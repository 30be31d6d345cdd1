import Kave.Concurrent
import Kave.Restart

/-! Crashes. The process loses all but the buckets; `Restore` reads them back, takes the current revision from the last
    record and resumes a compaction that was scheduled and not finished. -/

namespace Kave

open TreeIndex KeyIndex

inductive CrashEvent
  | step (event : SysEvent)
  | crash
deriving DecidableEq, Repr

/-- Whether a transaction changes something, and so takes a number. -/
def KvStore.numbers (s : KvStore) (ops : List Op) : Bool :=
  match Writer.runOps ops s.newWriter with
  | (w,none) => w.changes ≠ []
  | (_,some _) => false

namespace Sys

/-- A new store over the buckets that are left, with the compaction `Restore` starts again. -/
def restart (s : Sys) : Sys :=
  let restored := (KvStore.new s.store.backend).restore
  ⟨restored.1,restored.2.toList.map fun c => ⟨c,.clone⟩⟩

def crashStep (s : Sys) : CrashEvent → Sys
  | .step event => s.step event
  | .crash => s.restart

def crashRun (s : Sys) (events : List CrashEvent) : Sys := events.foldl crashStep s

/-- One if the event commits a transaction that changes something. -/
def committedBy (s : Sys) : CrashEvent → Int
  | .step (.txn ops) => if s.store.numbers ops then 1 else 0
  | _ => 0

/-- The number of the last transaction that the run commits. -/
def lastTxn : Sys → List CrashEvent → Int
  | _, [] => 0
  | s, event :: rest => s.committedBy event + lastTxn (s.crashStep event) rest

/-- The index has a revision of the newest transaction. -/
def KnowsNewest (s : Sys) : Prop :=
  ∃ item ∈ s.store.kvIndex.entries, ∃ bk ∈ item.2.bucketKeys, bk.rev.main = s.store.currentRev.main

/-- The bucket has a record of the newest transaction that a replay takes up: a put, or a tombstone that ends a life
    still in the bucket. -/
def ReplaysNewest (s : Sys) : Prop :=
  ∃ e ∈ s.store.backend.buckets.kv.entries, e.1.rev.main = s.store.currentRev.main ∧
    (e.1.tombstone = false ∨ openRun ((recordsIn s.store.backend.buckets.kv e.2.key).filter (· < e.1)) ≠ [])

instance (s : Sys) : Decidable s.KnowsNewest := by
  unfold KnowsNewest
  infer_instance

instance (s : Sys) : Decidable s.ReplaysNewest := by
  unfold ReplaysNewest
  infer_instance

/-- Whenever a compaction is started or resumed at the newest revision, the index has, or is given, a revision of it. -/
def Safe (s : Sys) : CrashEvent → Prop
  | .step (.compact rev) => s.store.Accepts rev → rev = s.store.currentRev.main → s.KnowsNewest
  | .crash => s.store.backend.buckets.metadata.scheduledCompactedRev.getD 0 >
        s.store.backend.buckets.metadata.finishedCompactedRev.getD 0 →
      s.store.backend.buckets.metadata.scheduledCompactedRev.getD 0 = s.store.currentRev.main → s.ReplaysNewest
  | _ => True

instance (s : Sys) : (event : CrashEvent) → Decidable (s.Safe event)
  | .step (.txn _) => isTrue trivial
  | .step (.advance _) => isTrue trivial
  | .step (.compact rev) => inferInstanceAs (Decidable (s.store.Accepts rev → rev = s.store.currentRev.main → s.KnowsNewest))
  | .crash => inferInstanceAs (Decidable (s.store.backend.buckets.metadata.scheduledCompactedRev.getD 0 >
        s.store.backend.buckets.metadata.finishedCompactedRev.getD 0 →
      s.store.backend.buckets.metadata.scheduledCompactedRev.getD 0 = s.store.currentRev.main → s.ReplaysNewest))

def EverySafe : Sys → List CrashEvent → Prop
  | _, [] => True
  | s, event :: rest => s.Safe event ∧ EverySafe (s.crashStep event) rest

instance decidableEverySafe : (s : Sys) → (events : List CrashEvent) → Decidable (s.EverySafe events)
  | _, [] => isTrue trivial
  | s, event :: rest =>
    have := decidableEverySafe (s.crashStep event) rest
    inferInstanceAs (Decidable (s.Safe event ∧ EverySafe (s.crashStep event) rest))

end Sys

/-! ### What keeps a record of the newest transaction -/

/-- A running compaction at the newest revision will not remove this record of the key. -/
def Job.Holds (job : Job) (key : Bytes) (bk : KvBucketKey) : Prop :=
  match job.stage with
  | .clone | .store => True
  | .index pending avail => bk.rev ∈ avail ∨ (key,true) ∈ pending
  | .batch retain _ => bk.rev ∈ retain

variable {bk : KvBucketKey} {key : Bytes}

theorem Job.Holds.detach {job : Job} (holds : job.Holds key bk) {ti : TreeIndex}
    (present : bk ∈ ti.records key) : (job.detach ti).Holds key bk := by
  obtain ⟨c,stage⟩ := job
  cases stage with
  | clone | store | batch => exact holds
  | index pending avail =>
    rcases holds with kept | waiting
    · exact Or.inl kept
    · refine Or.inr (List.mem_map.mpr ⟨(key,true),waiting,?_⟩)
      cases found : ti.find? key with
      | none => simp [TreeIndex.records,found] at present
      | some ki => simp

/-- A running compaction leaves a record of transaction `n`, the newest, in the bucket: at a target of `n` it holds the
    keeper of every key, and some key has one. -/
structure Job.Anchors (n : Int) (ti : TreeIndex) (job : Job) : Prop where
  target : job.compaction.targetRev ≤ n
  holds : job.compaction.targetRev = n → ∀ key bk, keeper n (ti.records key) = some bk → job.Holds key bk
  known : job.compaction.targetRev = n → job.stage ≠ .store → ∃ key bk, keeper n (ti.records key) = some bk

section

variable {n n' : Int} {ti ti' : TreeIndex} {job : Job}

theorem Job.Anchors.later (anchors : job.Anchors n ti) (less : n < n') : job.Anchors n' ti' := by
  have target := anchors.target
  constructor
  · omega
  · intro same
    omega
  · intro same
    omega

theorem Job.Anchors.congr (anchors : job.Anchors n ti)
    (same : ∀ key, keeper n (ti'.records key) = keeper n (ti.records key)) : job.Anchors n ti' := by
  refine ⟨anchors.target,?_,?_⟩
  · intro target key bk found
    exact anchors.holds target key bk ((same key).symm.trans found)
  · intro target stage
    obtain ⟨key,bk,found⟩ := anchors.known target stage
    exact ⟨key,bk,(same key).trans found⟩

theorem Job.Anchors.detach (anchors : job.Anchors n ti) (valid : ti.Valid) : (job.detach ti).Anchors n ti := by
  refine ⟨?_,?_,?_⟩
  · rw [Job.detach_compaction]
    exact anchors.target
  · rw [Job.detach_compaction]
    intro target key bk found
    exact (anchors.holds target key bk found).detach (keeper_cases (valid.records_sorted key) found).1
  · rw [Job.detach_compaction]
    intro target stage
    refine anchors.known target fun at_ => stage ?_
    rw [Job.detach,at_]
    exact at_

end

theorem TreeIndex.KeyVisited.keeper_eq {c n : Int} {ti ti' : TreeIndex} {kept : List Revision}
    (visited : KeyVisited c ti ti' key kept) (valid : ti.Valid) (le : c ≤ n) (k : Bytes) :
    keeper n (ti'.records k) = keeper n (ti.records k) := by
  by_cases same : k = key
  · subst same
    obtain ⟨gone,keys,dropped⟩ := visited.item.keys
    have sorted := valid.records_sorted k
    cases found : keeper n (ti.records k) with
    | some bk =>
      obtain ⟨member,main,-⟩ := keeper_cases sorted found
      have inside : bk ∈ ti'.records k := by
        rcases le.lt_or_eq with less | equal
        · change bk ∈ keysOf (ti.find? k) at member
          rw [keys] at member
          rcases List.mem_append.mp member with old | stays
          · have := (dropped bk old).1
            omega
          · exact stays
        · subst equal
          exact (visited.item.keeper bk found).1
      change (keysOf (ti.find? k)).Pairwise _ at sorted
      change keeper n (keysOf (ti.find? k)) = some bk at found
      rw [keys] at sorted found
      exact keeper_suffix sorted found inside
    | none =>
      cases found' : keeper n (ti'.records k) with
      | none => rfl
      | some bk =>
        obtain ⟨member,main,-⟩ := keeper_cases (visited.valid.records_sorted k) found'
        obtain ⟨bk',found''⟩ := keeper_isSome (visited.records_subset member) main
        rw [found] at found''
        cases found''
  · rw [TreeIndex.records,TreeIndex.records,visited.other k same]

namespace Sys

/-- The bucket has a record of the newest transaction `n`, and no running compaction will take the last one. -/
structure Anchored (n : Int) (s : Sys) : Prop where
  settled : s.store.Settled
  current : s.store.currentRev.main = n
  stamped : Stamped s.store.backend.buckets.kv ⟨n + 1,0⟩
  newest : 0 < n → ∃ bk, (s.store.backend.buckets.kv.find? bk).isSome ∧ bk.rev.main = n
  scheduled : s.store.backend.buckets.metadata.scheduledCompactedRev.getD 0 ≤ n
  filed : ∀ key bk, keeper n (s.store.kvIndex.records key) = some bk → (s.store.backend.buckets.kv.find? bk).isSome
  jobs : ∀ job ∈ s.jobs, job.Anchors n s.store.kvIndex

theorem Anchored.new : Sys.new.Anchored 0 := by
  refine ⟨refines_empty.settled,rfl,?_,?_,le_rfl,?_,?_⟩
  · constructor
    · intro bk present
      cases present
    · intro bk bk' present
      cases present
  · intro positive
    omega
  · intro key bk found
    cases found
  · intro job member
    cases member

end Sys

theorem KvStore.Settled.numbered {s : KvStore} (settled : s.Settled) (ops : List Op) :
    ∃ ws, Committed s (s.txn ops) ws ∧ s.numbers ops = decide (ws ≠ []) := by
  obtain ⟨m,domain⟩ := s.content.exists_domain (s.currentRev.main + 1)
  obtain ⟨w,more,run,extends_,count,chain⟩ := Writer.runOps_spec ops settled.fresh domain
  have changes : w.changes = more := by simpa [KvStore.newWriter] using extends_.changes
  refine ⟨_,by rw [KvStore.txn,run]; exact Writer.endTx_spec extends_ count chain,?_⟩
  rw [KvStore.numbers,run]
  refine decide_eq_decide.mpr (not_congr ?_)
  rw [changes,← List.length_eq_zero_iff,← List.length_eq_zero_iff,← count]

theorem Chain.filed_new {next : Int} {n : Nat} {a b : Content} {ws : List Write} (chain : Chain next n a ws b)
    (before : a.Before ⟨next,0⟩) (member : bk ∈ b.index.records key)
    (new : bk.rev.main = next) : (b.kv.find? bk).isSome := by
  refine chain.invariant (P := fun _ c => ∀ key, ∀ bk ∈ c.index.records key, bk.rev.main = next → (c.kv.find? bk).isSome)
    ?_ ?_ key bk member new
  · intro n a w b filed step key bk member new
    obtain ⟨k,added,entry,-,wrote,kv,-⟩ := step.wrote
    rcases wrote.mem_records.mp member with old | ⟨-,same⟩
    · exact step.keeps (filed key bk old new)
    · rw [kv,SortedMap.find_insert,if_pos same]
      rfl
  · intro key bk member new
    obtain ⟨-,sub,less⟩ := before.early key bk member
    rcases Revision.lt_iff.mp less with below | ⟨-,below⟩ <;> simp only at below <;> omega

namespace Sys

variable {n : Int} {s : Sys}

theorem Anchored.settle (anchored : s.Anchored n) {store : KvStore} {jobs : List Job}
    (settled : store.Settled) (current : store.currentRev.main = s.store.currentRev.main)
    (kv : ∀ {bk entry}, store.backend.buckets.kv.find? bk = some entry → s.store.backend.buckets.kv.find? bk = some entry)
    (scheduled : store.backend.buckets.metadata.scheduledCompactedRev =
      s.store.backend.buckets.metadata.scheduledCompactedRev)
    (newest : 0 < n → ∃ bk, (store.backend.buckets.kv.find? bk).isSome ∧ bk.rev.main = n)
    (same : ∀ key, keeper n (store.kvIndex.records key) = keeper n (s.store.kvIndex.records key))
    (filed : ∀ key bk, keeper n (s.store.kvIndex.records key) = some bk → (store.backend.buckets.kv.find? bk).isSome)
    (holds : ∀ job ∈ jobs, job ∈ s.jobs ∨ job.Anchors n store.kvIndex) : (Sys.settle store jobs).Anchored n := by
  refine ⟨settled,?_,anchored.stamped.subset kv,newest,?_,?_,?_⟩
  · exact current.trans anchored.current
  · change Option.getD store.backend.buckets.metadata.scheduledCompactedRev 0 ≤ n
    rw [scheduled]
    exact anchored.scheduled
  · intro key bk found
    exact filed key bk ((same key).symm.trans found)
  · intro job member
    obtain ⟨left,inside,rfl⟩ := mem_settle.mp member
    rcases holds left inside with old | new
    · exact ((anchored.jobs left old).congr same).detach settled.before.valid
    · exact new.detach settled.before.valid

theorem Anchored.txn (anchored : s.Anchored n) (ops : List Op) :
    (s.step (.txn ops)).Anchored (n + s.committedBy (.step (.txn ops))) := by
  obtain ⟨ws,committed,numbers⟩ := anchored.settled.numbered ops
  have settled := committed.settled anchored.settled
  rw [committedBy,numbers]
  by_cases none : ws = []
  · subst none
    have same : (s.store.txn ops).content = s.store.content := by
      have chain := committed.chain
      generalize (s.store.txn ops).content = c at chain
      cases chain
      rfl
    have kv : (s.store.txn ops).backend.buckets.kv = s.store.backend.buckets.kv := congrArg Content.kv same
    have index : (s.store.txn ops).kvIndex = s.store.kvIndex := congrArg Content.index same
    simp only [ne_eq,not_true_eq_false,decide_false,Bool.false_eq_true,if_false,add_zero]
    refine anchored.settle settled ?_ ?_ committed.scheduled ?_ ?_ ?_ fun job member => Or.inl member
    · exact committed.current
    · rw [kv]
      exact fun found => found
    · rw [kv]
      exact anchored.newest
    · rw [index]
      exact fun key => rfl
    · rw [kv]
      exact anchored.filed
  · have positive : 0 < s.store.currentRev.main + 1 := by have := anchored.settled.nonneg; omega
    have stamped := committed.chain.stamped positive (by rw [anchored.current]; exact anchored.stamped)
    have current : (s.store.txn ops).currentRev.main = n + 1 := by
      rw [committed.current,if_neg none,anchored.current]
    simp only [ne_eq,none,not_false_eq_true,decide_true,if_true]
    refine ⟨settled,current,?_,?_,?_,?_,?_⟩
    · refine stamped.mono ?_
      rw [anchored.current]
      exact Revision.lt_iff.mpr (Or.inl (by simp)) |>.le
    · rw [← anchored.current]
      exact fun _ => committed.chain.newest none
    · change Option.getD (s.store.txn ops).backend.buckets.metadata.scheduledCompactedRev 0 ≤ n + 1
      have := anchored.scheduled
      rw [committed.scheduled]
      omega
    · intro key bk found
      obtain ⟨member,main,-⟩ := keeper_cases (settled.before.valid.records_sorted key) found
      exact committed.chain.filed_new anchored.settled.before member (main.trans (by rw [anchored.current]))
    · intro job member
      obtain ⟨old,inside,rfl⟩ := mem_settle.mp member
      exact ((anchored.jobs old inside).later (by omega)).detach settled.before.valid

theorem Anchored.compact (anchored : s.Anchored n) {rev : Int}
    (safe : s.Safe (.step (.compact rev))) : (s.compact rev).Anchored n := by
  rcases s.store.compact_eq rev with ⟨accepts,run⟩ | ⟨-,e,run⟩
  · have settled := anchored.settled.compact rev
    have le : rev ≤ n := by
      rw [← anchored.current]
      exact accepts.2.1
    rw [Sys.compact,run]
    rw [run] at settled
    refine ⟨settled,anchored.current,anchored.stamped,anchored.newest,le,anchored.filed,?_⟩
    intro job member
    rcases List.mem_append.mp member with old | new
    · exact anchored.jobs job old
    · rw [List.mem_singleton.mp new]
      refine ⟨le,fun _ _ _ _ => trivial,?_⟩
      rintro (at_ : rev = n) -
      obtain ⟨item,present,bk,member,main⟩ := safe accepts (at_.trans anchored.current.symm)
      have here : bk ∈ s.store.kvIndex.records item.1 := by
        rw [TreeIndex.records,SortedMap.mem_entries.mp present]
        exact member
      obtain ⟨kept,found⟩ := keeper_isSome here (main.trans anchored.current)
      exact ⟨item.1,kept,found⟩
  · have shape : s.compact rev = s := by rw [Sys.compact,run]
    rw [shape]
    exact anchored

theorem Anchored.advance (anchored : s.Anchored n) (i : Nat) : (s.advance i).Anchored n := by
  cases at_ : s.jobs[i]? with
  | none =>
    have shape : s.advance i = s := by rw [Sys.advance,at_]
    rw [shape]
    exact anchored
  | some job =>
    have shape : s.advance i = Sys.settle (job.step s.store).1 (replaceJob s.jobs i (job.step s.store).2) := by
      rw [Sys.advance,at_]
    have mine := anchored.jobs job (List.mem_of_getElem? at_)
    have valid : s.store.kvIndex.Valid := anchored.settled.before.valid
    have stepped := job.step_cases valid
    rw [shape]
    generalize (job.step s.store).1 = store at stepped
    generalize (job.step s.store).2 = next at stepped
    have settled := stepped.settled anchored.settled
    -- the other goroutines are as before; what is shown is about the store and the one that took the step
    have others : ∀ {new : Job}, (next = some new → new.Anchors n store.kvIndex) → new ∈ replaceJob s.jobs i next →
        new ∈ s.jobs ∨ new.Anchors n store.kvIndex := by
      intro new own member
      exact (mem_of_mem_replaceJob member).imp id own
    cases stepped with
    | clone stage =>
      refine anchored.settle settled rfl (fun found => found) rfl anchored.newest (fun _ => rfl) anchored.filed
        fun new member => others ?_ member
      rintro ⟨⟩
      refine ⟨mine.target,?_,?_⟩
      · intro target key bk found
        refine Or.inr (List.mem_map.mpr ⟨key,SortedMap.mem_keys.mpr ?_,rfl⟩)
        have member := (keeper_cases (valid.records_sorted key) found).1
        by_contra missing
        rw [TreeIndex.records,Option.not_isSome_iff_eq_none.mp missing] at member
        cases member
      · exact fun target _ => mine.known target (by rw [stage]; simp)
    | indexed stage =>
      refine anchored.settle settled rfl (fun found => found) rfl anchored.newest (fun _ => rfl) anchored.filed
        fun new member => others ?_ member
      rintro ⟨⟩
      refine ⟨mine.target,?_,?_⟩
      · intro target key bk found
        have holds := mine.holds target key bk found
        rw [Job.Holds,stage] at holds
        exact holds.resolve_right List.not_mem_nil
      · exact fun target _ => mine.known target (by rw [stage]; simp)
    | failed stage =>
      refine anchored.settle settled rfl (fun found => found) rfl anchored.newest (fun _ => rfl) anchored.filed
        fun new member => others ?_ member
      rintro ⟨⟩
    | store stage =>
      refine anchored.settle settled rfl (fun found => found) rfl anchored.newest (fun _ => rfl) anchored.filed
        fun new member => others ?_ member
      rintro ⟨⟩
    | @visit key rest avail kept ti stage visited =>
      have same := visited.keeper_eq valid mine.target
      refine anchored.settle settled rfl (fun found => found) rfl anchored.newest same anchored.filed
        fun new member => others ?_ member
      rintro ⟨⟩
      refine ⟨mine.target,?_,?_⟩
      · intro target k bk found
        have before : keeper n (s.store.kvIndex.records k) = some bk := (same k).symm.trans found
        have holds := mine.holds target k bk before
        rw [Job.Holds,stage] at holds
        rcases holds with kept_ | waiting
        · exact Or.inl (List.mem_append_left _ kept_)
        · rcases List.mem_cons.mp waiting with now | later
          · obtain rfl : k = key := congrArg Prod.fst now
            rw [← target] at before
            exact Or.inl (List.mem_append_right _ (visited.item.keeper bk before).2)
          · exact Or.inr later
      · intro target _
        obtain ⟨k,bk,found⟩ := mine.known target (by rw [stage]; simp)
        exact ⟨k,bk,(same k).trans found⟩
    | @batch retain start b next stage pruned scheduled ended =>
      have keeps : ∀ bk, (s.store.backend.buckets.kv.find? bk).isSome → bk.rev.main = n →
          (job.compaction.targetRev = n → bk.rev ∈ retain) → (b.buckets.kv.find? bk).isSome := by
        intro bk present main held
        rcases pruned bk with same | ⟨-,-,less,free⟩
        · rw [same]
          exact present
        · -- the record is of the target transaction, so it is one the compaction holds
          have target := mine.target
          have sub := (anchored.stamped.early bk present).2.1
          refine absurd (held ?_) free
          rcases Revision.lt_iff.mp less with below | ⟨-,below⟩ <;> simp only at below <;> omega
      have holds : job.compaction.targetRev = n → ∀ key bk, keeper n (s.store.kvIndex.records key) = some bk →
          bk.rev ∈ retain := by
        intro target key bk found
        have holds := mine.holds target key bk found
        rwa [Job.Holds, stage] at holds
      have filed : ∀ key bk, keeper n (s.store.kvIndex.records key) = some bk → (b.buckets.kv.find? bk).isSome := by
        intro key bk found
        exact keeps bk (anchored.filed key bk found) (keeper_cases (valid.records_sorted key) found).2.1
          fun target => holds target key bk found
      refine anchored.settle settled rfl ?_ ?_ ?_ (fun _ => rfl) filed fun new member => others ?_ member
      · intro bk entry found
        rcases pruned bk with same | ⟨gone,-⟩
        · rwa [← same]
        · change b.buckets.kv.find? bk = some entry at found
          rw [gone] at found
          cases found
      · exact scheduled
      · intro positive
        by_cases target : job.compaction.targetRev = n
        · obtain ⟨key,bk,found⟩ := mine.known target (by rw [stage]; simp)
          exact ⟨bk,filed key bk found,(keeper_cases (valid.records_sorted key) found).2.1⟩
        · obtain ⟨bk,present,main⟩ := anchored.newest positive
          exact ⟨bk,keeps bk present main fun same => absurd same target,main⟩
      · rintro ⟨⟩
        refine ⟨mine.target,?_,?_⟩
        · intro target key bk found
          rcases ended with ⟨rfl,-⟩ | ⟨⟨start',rfl⟩,-⟩
          · trivial
          · exact holds target key bk found
        · exact fun target _ => mine.known target (by rw [stage]; simp)

end Sys

/-! ### What a replay takes up -/

theorem rebuildStep_keeps {ki : KeyIndex} (wellFormed : ki.WellFormed) (key : Bytes) (next : KvBucketKey)
    (member : bk ∈ ki.bucketKeys) : ∃ ki', rebuildStep key (some ki) next = some ki' ∧ bk ∈ ki'.bucketKeys := by
  obtain ⟨ended,current,lives⟩ := wellFormed
  refine ⟨_,rfl,?_⟩
  cases marked : next.tombstone with
  | false =>
    rw [if_neg Bool.false_ne_true]
    cases run : ki.put next.rev.main next.rev.sub with
    | error e => exact member
    | ok ki' =>
      obtain ⟨-,rfl⟩ := put_ok_iff run
      rw [Except.toOption,Option.getD_some,lives.keys_put]
      exact List.mem_append_left _ member
  | true =>
    rw [if_pos rfl]
    cases run : ki.tombstone next.rev.main next.rev.sub with
    | error e => exact member
    | ok ki' =>
      obtain ⟨-,later,rfl⟩ := lives.tombstone_ok run
      rw [Except.toOption,Option.getD_some,lives.keys_bury later]
      exact List.mem_append_left _ member

/-- A replay takes up every put, and every tombstone that ends a life. -/
theorem mem_rebuild (key : Bytes) {older newer : List KvBucketKey}
    (sorted : (older ++ bk :: newer).Pairwise fun a b => a.rev < b.rev)
    (positive : ∀ x ∈ older ++ bk :: newer, Revision.zero < x.rev) (taken : bk.tombstone = false ∨ openRun older ≠ []) :
    ∃ ki, rebuild key none (older ++ bk :: newer) = some ki ∧ bk ∈ ki.bucketKeys := by
  induction newer using List.reverseRecOn with
  | nil =>
    obtain ⟨before,-,later⟩ := List.pairwise_append.mp sorted
    have step : rebuild key none (older ++ [bk]) = rebuildStep key (rebuild key none older) bk := rebuild_append _ _ _ _
    rw [step]
    rcases rebuild_openRun key before fun x inside => positive x (by simp [inside]) with
      ⟨missing,dead⟩ | ⟨ki,ended,found,lives,⟨newest,inside,newestIs⟩,-⟩
    · have unmarked := taken.resolve_right (not_not.mpr dead)
      have put := @put_eq (KeyIndex.new key) _ (positive bk (by simp))
      rw [missing]
      refine ⟨_,by simp [rebuildStep,unmarked,put,Except.toOption]; rfl,?_⟩
      have only : bk = ⟨bk.rev,false⟩ := by rw [← unmarked]
      simp [bucketKeys,genKeys,KeyIndex.new,appendRev,Generation.append,Generation.zero,← only]
    · have after : ki.modRev < bk.rev := by
        rw [newestIs]
        exact later newest inside bk (by simp)
      rw [found]
      refine ⟨_,rfl,?_⟩
      cases marked : bk.tombstone with
      | false =>
        rw [if_neg Bool.false_ne_true,put_eq after]
        rw [Except.toOption,Option.getD_some,lives.keys_put,← marked]
        simp
      | true =>
        have alive : openRun older ≠ [] := taken.resolve_left (by simp [marked])
        rw [if_pos rfl,lives.tombstone_eq alive after]
        rw [Except.toOption,Option.getD_some,lives.keys_bury after,← marked]
        simp
  | append_singleton newer next ih =>
    have shape : older ++ bk :: (newer ++ [next]) = (older ++ bk :: newer) ++ [next] := by simp
    rw [shape] at sorted positive ⊢
    obtain ⟨ki,found,member⟩ := ih (List.pairwise_append.mp sorted).1 fun x inside =>
      positive x (List.mem_append_left _ inside)
    obtain ⟨ki',found',member'⟩ := rebuildStep_keeps (rebuild_valid _ found).2 key next member
    refine ⟨ki',?_,member'⟩
    rw [rebuild_append,found]
    exact found'

namespace Sys

theorem ReplaysNewest.known {s : Sys} (replays : s.ReplaysNewest) {rev : Revision}
    (stamped : Stamped s.store.backend.buckets.kv rev) :
    ∃ key, ∃ bk ∈ (KvStore.restoreIndex s.store.backend.buckets.kv).records key, bk.rev.main = s.store.currentRev.main := by
  obtain ⟨e,present,main,taken⟩ := replays
  refine ⟨e.2.key,e.1,?_,main⟩
  have member : e.1 ∈ recordsIn s.store.backend.buckets.kv e.2.key :=
    mem_recordsIn.mpr ⟨e.2,SortedMap.mem_entries.mp present,rfl⟩
  have sorted := stamped.sorted e.2.key
  have strict := recordsIn_sorted s.store.backend.buckets.kv e.2.key
  have positive : ∀ x ∈ recordsIn s.store.backend.buckets.kv e.2.key, Revision.zero < x.rev :=
    fun x inside => stamped.positive inside
  obtain ⟨older,newer,split⟩ := List.mem_iff_append.mp member
  have before : (recordsIn s.store.backend.buckets.kv e.2.key).filter (· < e.1) = older := by
    rw [split] at strict ⊢
    obtain ⟨-,tail,across⟩ := List.pairwise_append.mp strict
    have low : older.filter (· < e.1) = older :=
      List.filter_eq_self.mpr fun x inside => decide_eq_true (across x inside e.1 (by simp))
    have high : (e.1 :: newer).filter (· < e.1) = [] := by
      refine List.filter_eq_nil_iff.mpr fun x inside => ?_
      rcases List.mem_cons.mp inside with rfl | later
      · simp
      · simpa using ((List.pairwise_cons.mp tail).1 x later).le
    rw [List.filter_append,low,high,List.append_nil]
  rw [before] at taken
  rw [split] at sorted positive
  obtain ⟨ki,found,inside⟩ := mem_rebuild e.2.key sorted positive taken
  rw [TreeIndex.records,find_restoreIndex,split,found]
  exact inside

theorem Anchored.crash {n : Int} {s : Sys} (anchored : s.Anchored n) (safe : s.Safe .crash) : s.restart.Anchored n := by
  have nonneg : 0 ≤ n := by
    rw [← anchored.current]
    exact anchored.settled.nonneg
  have current : s.restart.store.currentRev.main = n := anchored.stamped.last_main nonneg anchored.newest
  have valid : s.restart.store.kvIndex.Valid := restoreIndex_valid _
  have inside : ∀ {key bk}, bk ∈ s.restart.store.kvIndex.records key → (s.store.backend.buckets.kv.find? bk).isSome :=
    fun member => isSome_of_mem_recordsIn (restoreIndex_records anchored.stamped member)
  refine ⟨⟨by rw [current]; exact nonneg,valid,?_⟩,current,anchored.stamped,anchored.newest,anchored.scheduled,?_,?_⟩
  · intro key bk member
    have early := anchored.stamped.early bk (inside member)
    change 0 < bk.rev.main ∧ 0 ≤ bk.rev.sub ∧ bk.rev < ⟨s.restart.store.currentRev.main + 1,0⟩
    rw [current]
    exact early
  · intro key bk found
    exact inside (keeper_cases (valid.records_sorted key) found).1
  · intro job member
    -- the only goroutine is the resumed one, before its clone
    by_cases interrupted : s.store.backend.buckets.metadata.scheduledCompactedRev.getD 0 >
        s.store.backend.buckets.metadata.finishedCompactedRev.getD 0
    · have resumed : s.restart.jobs = [⟨⟨s.store.backend.buckets.metadata.scheduledCompactedRev.getD 0,
          s.store.backend.buckets.metadata.finishedCompactedRev.getD 0⟩,.clone⟩] := by
        simp [restart,KvStore.restore,KvStore.new,interrupted]
      rw [resumed,List.mem_singleton] at member
      subst member
      refine ⟨anchored.scheduled,fun _ _ _ _ => trivial,?_⟩
      intro target _
      have replays := safe interrupted (Eq.trans target anchored.current.symm)
      obtain ⟨key,bk,here,main⟩ := replays.known anchored.stamped
      obtain ⟨kept,found⟩ := keeper_isSome here (main.trans anchored.current)
      exact ⟨key,kept,found⟩
    · have idle : s.restart.jobs = [] := by simp [restart,KvStore.restore,KvStore.new,interrupted]
      rw [idle] at member
      cases member

theorem Anchored.step {n : Int} {s : Sys} (anchored : s.Anchored n) {event : CrashEvent} (safe : s.Safe event) :
    (s.crashStep event).Anchored (n + s.committedBy event) := by
  cases event with
  | crash =>
    rw [committedBy,add_zero]
    · exact anchored.crash safe
    · rintro ops ⟨⟩
  | step event =>
    cases event with
    | txn ops => exact anchored.txn ops
    | compact rev =>
      rw [committedBy,add_zero]
      · exact anchored.compact safe
      · rintro ops ⟨⟩
    | advance i =>
      rw [committedBy,add_zero]
      · exact anchored.advance i
      · rintro ops ⟨⟩

theorem Anchored.run {n : Int} {s : Sys} (anchored : s.Anchored n) {events : List CrashEvent} (safe : s.EverySafe events) :
    (s.crashRun events).Anchored (n + s.lastTxn events) := by
  induction events generalizing n s with
  | nil =>
    rw [lastTxn,add_zero]
    exact anchored
  | cons event rest ih =>
    rw [lastTxn,← add_assoc]
    exact ih (anchored.step safe.1) safe.2

/-- After a restart at any point of a run the current revision is the number of the last committed transaction. -/
theorem restart_finds_last_transaction (events : List CrashEvent) (safe : Sys.new.EverySafe events) :
    (Sys.new.crashRun (events ++ [.crash])).store.currentRev.main = Sys.new.lastTxn events := by
  have anchored := Anchored.new.run safe
  have nonneg := anchored.settled.nonneg
  have shape : Sys.new.crashRun (events ++ [.crash]) = (Sys.new.crashRun events).restart := List.foldl_append
  rw [anchored.current] at nonneg
  rw [shape]
  rw [zero_add] at anchored nonneg
  exact anchored.stamped.last_main nonneg anchored.newest

/-- Two puts, compacted at the newest revision; the process stops in the delete loop and again after the resumed one. -/
theorem restart_finds_last_transaction_two_puts :
    (Sys.new.crashRun ([.step (.txn [.put [97] (some [1]) 0]),.step (.txn [.put [97] (some [2]) 0]),.step (.compact 2),
      .step (.advance 0),.step (.advance 0),.crash,.step (.advance 0),.step (.advance 0),.step (.advance 0),
      .step (.advance 0),.step (.advance 0)] ++ [.crash])).store.currentRev.main = 2 :=
  (restart_finds_last_transaction _ (by decide)).trans (by decide)

/-- A key is put a hundred times and deleted, and the compaction at the deletion is interrupted after its first batch.
    The tombstone that is left is refused by the replay, so the resumed compaction does not hold it. -/
theorem restart_loses_last_transaction :
    let events : List CrashEvent := [.step (.txn (List.replicate 100 (.put [97] (some [1]) 0))),.step (.txn [.deleteKey [97]]),
      .step (.compact 2),.step (.advance 0),.step (.advance 0),.step (.advance 0),.step (.advance 0),.crash,
      .step (.advance 0),.step (.advance 0),.step (.advance 0),.step (.advance 0)]
    Sys.new.lastTxn events = 2 ∧ (Sys.new.crashRun (events ++ [.crash])).store.currentRev.main = 0 := by
  decide +kernel

end Sys

end Kave
