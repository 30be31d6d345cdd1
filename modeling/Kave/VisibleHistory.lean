import Kave.Refinement
import Kave.TreeCompaction
import Kave.DeleteLoop

/-! Compaction and the visible history: a compaction that runs to its end leaves every read from its target on as it
    was, provided no key was deleted and put again by the target transaction itself. -/

namespace Kave

open TreeIndex KeyIndex

/-- Every record the index knows of is in the bucket, under its own key. -/
def Content.Linked (c : Content) : Prop :=
  ∀ key, ∀ bk ∈ c.index.records key, ∃ entry, c.kv.find? bk = some entry ∧ entry.key = key

theorem WriteStep.linked {next : Int} {n : Nat} {a b : Content} {w : Write} (step : WriteStep next n a w b)
    (before : a.Before ⟨next,n⟩) (linked : a.Linked) : b.Linked := by
  obtain ⟨key,bk,entry,rev,wrote,kv,named⟩ := step.wrote
  intro k old member
  rw [kv,SortedMap.find_insert]
  rcases wrote.mem_records.mp member with known | ⟨same,new⟩
  · have different : old ≠ bk := by
      rintro rfl
      exact absurd (before.early k old known).2.2 (by rw [rev]; exact lt_irrefl _)
    rw [if_neg different]
    exact linked k old known
  · exact ⟨entry,if_pos new,named.trans same.symm⟩

theorem Chain.linked {next : Int} {n : Nat} {a b : Content} {ws : List Write} (positive : 0 < next)
    (chain : Chain next n a ws b) (before : a.Before ⟨next,n⟩) (linked : a.Linked) : b.Linked := by
  induction chain with
  | nil => exact linked
  | cons step rest ih => exact ih (step.before positive before) (step.linked before linked)

/-- `c'` is `c` with less of the past: the index knows fewer records, each still in the bucket, and answers as
    before from `lo` on. -/
structure Content.Trimmed (lo : Int) (c c' : Content) : Prop where
  valid : c'.index.Valid
  look : ∀ key t, lo ≤ t → c'.index.look key t = c.index.look key t
  records : ∀ key, ∀ bk ∈ c'.index.records key, bk ∈ c.index.records key
  kept : ∀ key, ∀ bk ∈ c'.index.records key, c'.kv.find? bk = c.kv.find? bk

theorem Content.Trimmed.shows_ {lo r : Int} {c c' : Content} (trimmed : c.Trimmed lo c') (le : lo ≤ r) {m : KvMap}
    (shows_ : c.Shows r m) : c'.Shows r m := by
  intro key
  rw [shown_congr fun bk member _ _ => trimmed.kept key bk member,trimmed.look key r le]
  exact shows_ key

theorem Content.Trimmed.linked {lo : Int} {c c' : Content} (trimmed : c.Trimmed lo c') (linked : c.Linked) : c'.Linked := by
  intro key bk member
  rw [trimmed.kept key bk member]
  exact linked key bk (trimmed.records key bk member)

theorem Content.Trimmed.before {lo : Int} {c c' : Content} (trimmed : c.Trimmed lo c') {rev : Revision}
    (before : c.Before rev) : c'.Before rev :=
  ⟨trimmed.valid,fun key bk member => before.early key bk (trimmed.records key bk member)⟩

variable {h : History} {s : KvStore} {c : Int}

theorem Refines.trimmed {lo lo' : Int} {s s' : KvStore} (refines_ : Refines lo s h)
    (trimmed : s.content.Trimmed lo' s'.content) (current : s'.currentRev = s.currentRev) (le : lo ≤ lo')
    (reach : lo' ≤ h.current) : Refines lo' s' h := by
  refine ⟨⟨?_,?_⟩,?_,reach,?_⟩
  · rw [current]; exact refines_.settled.nonneg
  · rw [current]; exact trimmed.before refines_.settled.before
  · rw [current]; exact refines_.current
  · intro r low high
    exact trimmed.shows_ low (refines_.agree r (le.trans low) high)

/-- No key of the tree was deleted and then put by transaction `c`. -/
def KvStore.CleanAt (s : KvStore) (c : Int) : Prop := ∀ item ∈ s.kvIndex.entries, ¬ DeletedThenPut c item.2.bucketKeys

instance (s : KvStore) (c : Int) : Decidable (s.CleanAt c) := by
  unfold KvStore.CleanAt
  infer_instance

theorem KvStore.CleanAt.records (clean : s.CleanAt c) (key : Bytes) :
    ¬ DeletedThenPut c (s.kvIndex.records key) := by
  rw [TreeIndex.records]
  cases found : s.kvIndex.find? key with
  | none => simp [DeletedThenPut]
  | some ki => exact clean (key,ki) (SortedMap.mem_entries.mpr found)

theorem not_removable {retain : List Revision} {start bk : KvBucketKey} (sub : 0 ≤ bk.rev.sub)
    (stays : bk.rev.main ≤ c → bk.rev ∈ retain) : ¬ Removable c retain start bk := by
  rintro ⟨-,below,gone⟩
  refine gone (stays ?_)
  rcases Revision.lt_iff.mp below with less | ⟨-,less⟩
  · exact Int.lt_add_one_iff.mp less
  · simp only at less
    omega

theorem trimmed_of_compact {before after : Content} {kept : List Revision} {start : KvBucketKey} {rev : Revision}
    (early : before.Before rev) (clean : ∀ key, ¬ DeletedThenPut c (before.index.records key))
    (valid : after.index.Valid)
    (items : ∀ key, ItemCompacted c (before.index.find? key) (after.index.find? key) kept)
    (pruned : Pruned (Removable c kept start) before.kv after.kv) : before.Trimmed c after where
  valid := valid
  look key t le := (items key).view t le
  records key bk member := (items key).subset member
  kept key bk member := by
    refine pruned.keeps (not_removable (early.early key bk ((items key).subset member)).2.1 fun le => ?_)
    exact (items key).retains (clean key) bk member le

/-- What `doCompact` leaves of `s`: the index `ti`, the retained revisions `kept` and the backend `b`. -/
structure KvStore.CompactionDone (s : KvStore) (c : Compaction) (ti : TreeIndex) (kept : List Revision) (b : Backend) :
    Prop where
  result : s.doCompact c = { s with kvIndex := ti, backend := b, compactedMainRev := c.targetRev }
  valid : ti.Valid
  items : ∀ key, ItemCompacted c.targetRev (s.kvIndex.find? key) (ti.find? key) kept
  sound : ∀ rev ∈ kept, rev.main ≤ c.targetRev ∧ ∃ key, ∃ bk ∈ ti.records key, bk.rev = rev
  batched : s.backend.buckets.Batched (Removable c.targetRev kept ⟨⟨c.compactedRev,0⟩,false⟩) c.targetRev true b.buckets
  swept : Cleared (doomed c.targetRev kept ⟨⟨c.compactedRev,0⟩,false⟩ s.backend.buckets.kv) b.buckets.kv ↔
    Aligned (doomed c.targetRev kept ⟨⟨c.compactedRev,0⟩,false⟩ s.backend.buckets.kv)

theorem KvStore.doCompact_done (valid : s.kvIndex.Valid) (c : Compaction) :
    ∃ ti kept b, s.CompactionDone c ti kept b := by
  obtain ⟨ti,kept,run,valid',items,sound⟩ := valid.compact c.targetRev
  obtain ⟨b,loop,batched,swept⟩ := compactBatches_spec c.targetRev kept (s.backend.buckets.kv.entries.length + 1)
    ⟨⟨c.compactedRev,0⟩,false⟩ { s with kvIndex := ti } (Nat.lt_succ_of_le (doomed_length_le _ _ _ _))
  exact ⟨ti,kept,b,by simp only [doCompact,run,KvBucketKey.encodeRevisionAsBucketKey,loop],valid',items,sound,batched,swept⟩

/-! ### Runs of transactions and completed compactions -/

inductive StoreEvent
  | txn (ops : List Op)
  | compact (rev : Int)
deriving DecidableEq, Repr

def KvStore.step (s : KvStore) : StoreEvent → KvStore
  | .txn ops => s.txn ops
  | .compact rev => s.compactToEnd rev

def KvStore.run (s : KvStore) (events : List StoreEvent) : KvStore := events.foldl KvStore.step s

/-- Compaction leaves the history alone. -/
def History.step (h : History) : StoreEvent → History
  | .txn ops => h.txn ops
  | .compact _ => h

def History.run (h : History) (events : List StoreEvent) : History := events.foldl History.step h

/-- `Compact` accepts the target. -/
def KvStore.Accepts (s : KvStore) (rev : Int) : Prop := 0 ≤ rev ∧ rev ≤ s.currentRev.main ∧ s.compactedMainRev < rev

instance (s : KvStore) (rev : Int) : Decidable (s.Accepts rev) := by
  unfold KvStore.Accepts
  infer_instance

/-- Every accepted compaction of the run meets `ok` in the state it is accepted in. -/
def KvStore.EveryCompaction (ok : KvStore → Int → Prop) : KvStore → List StoreEvent → Prop
  | _, [] => True
  | s, .txn ops :: rest => EveryCompaction ok (s.txn ops) rest
  | s, .compact rev :: rest => (s.Accepts rev → ok s rev) ∧ EveryCompaction ok (s.compactToEnd rev) rest

instance KvStore.decidableEveryCompaction (ok : KvStore → Int → Prop) [∀ s rev, Decidable (ok s rev)] :
    (s : KvStore) → (events : List StoreEvent) → Decidable (s.EveryCompaction ok events)
  | _, [] => isTrue trivial
  | s, .txn ops :: rest => decidableEveryCompaction ok (s.txn ops) rest
  | s, .compact rev :: rest =>
    have := decidableEveryCompaction ok (s.compactToEnd rev) rest
    inferInstanceAs (Decidable ((s.Accepts rev → ok s rev) ∧ EveryCompaction ok (s.compactToEnd rev) rest))

theorem KvStore.compact_eq (s : KvStore) (rev : Int) :
    s.Accepts rev ∧ s.compact rev =
        ({ s with backend := s.backend.commit [.putScheduledCompactedRev rev] },.ok ⟨rev,s.compactedMainRev⟩) ∨
      ¬ s.Accepts rev ∧ ∃ e, s.compact rev = (s,.error e) := by
  rw [compact,Accepts]
  by_cases negative : rev < 0
  · exact Or.inr ⟨by omega,_,if_pos negative⟩
  · by_cases future : rev > s.currentRev.main
    · exact Or.inr ⟨by omega,_,by rw [if_neg negative,if_pos future]⟩
    · by_cases compacted : rev ≤ s.compactedMainRev
      · exact Or.inr ⟨by omega,_,by rw [if_neg negative,if_neg future,if_pos compacted]⟩
      · exact Or.inl ⟨by omega,by rw [if_neg negative,if_neg future,if_neg compacted]⟩

theorem KvStore.compactToEnd_of_not {rev : Int} (refused : ¬ s.Accepts rev) : s.compactToEnd rev = s := by
  rcases s.compact_eq rev with ⟨accepts_,-⟩ | ⟨-,e,run⟩
  · exact absurd accepts_ refused
  · rw [compactToEnd,run]

theorem KvStore.compactToEnd_of {rev : Int} (accepts_ : s.Accepts rev) :
    s.compactToEnd rev = doCompact { s with backend := s.backend.commit [.putScheduledCompactedRev rev] }
      ⟨rev,s.compactedMainRev⟩ := by
  rcases s.compact_eq rev with ⟨-,run⟩ | ⟨refused,-⟩
  · rw [compactToEnd,run]
  · exact absurd accepts_ refused

/-- The store shows the history from its compacted revision on, and the index has all of its records. -/
structure Intact (s : KvStore) (h : History) : Prop where
  nonneg : 0 ≤ s.compactedMainRev
  refines_ : Refines s.compactedMainRev s h
  linked : s.content.Linked

theorem Intact.txn (intact : Intact s h) (ops : List Op) : Intact (s.txn ops) (h.txn ops) := by
  have settled := intact.refines_.settled
  have committed := settled.txn intact.refines_.shows_next.domain ops
  have positive : 0 < s.currentRev.main + 1 := by have := settled.nonneg; omega
  refine ⟨by rw [committed.compacted]; exact intact.nonneg,?_,committed.chain.linked positive settled.before intact.linked⟩
  rw [committed.compacted]
  exact intact.refines_.txn ops

theorem KvStore.compactToEnd_trimmed (settled : s.Settled) (accepts_ : s.Accepts c)
    (clean : s.CleanAt c) :
    s.content.Trimmed c (s.compactToEnd c).content ∧ (s.compactToEnd c).currentRev = s.currentRev ∧
      (s.compactToEnd c).compactedMainRev = c := by
  rw [compactToEnd_of accepts_]
  obtain ⟨ti,kept,b,done⟩ := doCompact_done
    (s := { s with backend := s.backend.commit [.putScheduledCompactedRev c] }) settled.before.valid ⟨c,s.compactedMainRev⟩
  rw [done.result]
  exact ⟨@trimmed_of_compact _ _ ⟨ti,b.buckets.kv⟩ _ _ _ settled.before clean.records done.valid done.items done.batched.kv,
    rfl,rfl⟩

theorem Intact.compact (intact : Intact s h) (accepts_ : s.Accepts c)
    (clean : s.CleanAt c) : Intact (s.compactToEnd c) h := by
  obtain ⟨trimmed,current,compacted⟩ := s.compactToEnd_trimmed intact.refines_.settled accepts_ clean
  obtain ⟨-,le,less⟩ := accepts_
  refine ⟨by rw [compacted]; exact intact.nonneg.trans less.le,?_,trimmed.linked intact.linked⟩
  rw [compacted]
  exact intact.refines_.trimmed trimmed current less.le (by rw [← intact.refines_.current]; exact le)

theorem Intact.empty : Intact (KvStore.new Backend.empty) History.empty :=
  ⟨le_rfl,refines_empty,fun key bk member => by simp [KvStore.content,KvStore.new,TreeIndex.records] at member⟩

theorem KvStore.run_invariant {ok : KvStore → Int → Prop} {P : KvStore → History → Prop}
    (txn : ∀ s h ops, P s h → P (s.txn ops) (h.txn ops))
    (compact : ∀ s h c, P s h → s.Accepts c → ok s c → P (s.compactToEnd c) h) (start : P s h)
    {events : List StoreEvent} (every : s.EveryCompaction ok events) : P (s.run events) (h.run events) := by
  induction events generalizing s h with
  | nil => exact start
  | cons event rest ih =>
    cases event with
    | txn ops => exact ih (txn s h ops start) every
    | compact c =>
      by_cases accepts_ : s.Accepts c
      · exact ih (compact s h c start accepts_ (every.1 accepts_)) every.2
      · have same := KvStore.compactToEnd_of_not accepts_
        have rest := every.2
        rw [same] at rest
        change P ((s.compactToEnd c).run _) _
        rw [same]
        exact ih start rest

theorem Intact.run (intact : Intact s h) {events : List StoreEvent}
    (clean : s.EveryCompaction KvStore.CleanAt events) : Intact (s.run events) (h.run events) :=
  KvStore.run_invariant (fun _ _ ops intact => intact.txn ops) (fun _ _ _ intact accepts_ clean => intact.compact accepts_ clean)
    intact clean

/-- In every run whose compactions are clean, a further clean compaction changes no read from its target on, and
    every revision the index can still hand out has its record. -/
theorem compaction_preserves_reads (events : List StoreEvent)
    (cleanRun : (KvStore.new Backend.empty).EveryCompaction KvStore.CleanAt events) {c : Int}
    (accepts_ : ((KvStore.new Backend.empty).run events).Accepts c)
    (clean : ((KvStore.new Backend.empty).run events).CleanAt c) :
    let s := (KvStore.new Backend.empty).run events
    (∀ r key endKey limit, c ≤ r → r ≤ s.currentRev.main →
      (s.compactToEnd c).range key endKey r limit = s.range key endKey r limit) ∧
    ∀ key t created mod version, (s.compactToEnd c).kvIndex.unsafeGet key t = .ok (created,mod,version) →
      ∃ entry, (s.compactToEnd c).backend.buckets.kv.find? (KvBucketKey.encodeRevisionAsBucketKey mod) = some entry ∧
        entry.key = key := by
  intro s
  have before : Intact s _ := Intact.empty.run cleanRun
  have after := before.compact accepts_ clean
  obtain ⟨-,current,compacted⟩ := s.compactToEnd_trimmed before.refines_.settled accepts_ clean
  have less : s.compactedMainRev < c := accepts_.2.2
  have nonneg := before.nonneg
  constructor
  · intro r key endKey limit low high
    rw [after.refines_.range (by rw [compacted]; exact low) (by omega) (by rw [current]; exact high)
      (by rw [compacted]; exact low), before.refines_.range (by omega) (by omega) high (by omega)]
  · intro key t created mod version answer
    have alive : (s.compactToEnd c).kvIndex.look key t = some (created,mod,version) := by
      rw [← unsafeGet_toOption, answer]
      rfl
    exact after.linked key _ (look_mem alive).1

theorem compaction_preserves_reads_two_puts :
    ((KvStore.new Backend.empty).run [.txn [.put [97] (some [1]) 0],.txn [.put [97] (some [2]) 0]]).Accepts 2 ∧
      (((KvStore.new Backend.empty).run [.txn [.put [97] (some [1]) 0],.txn [.put [97] (some [2]) 0]]).compactToEnd
        2).range [97] none 2 0 =
      ((KvStore.new Backend.empty).run [.txn [.put [97] (some [1]) 0],.txn [.put [97] (some [2]) 0]]).range [97] none 2 0 :=
  ⟨by decide,(compaction_preserves_reads [.txn [.put [97] (some [1]) 0],.txn [.put [97] (some [2]) 0]] (by decide)
    (c := 2) (by decide) (by decide)).1 2 [97] none 0 (by decide) (by decide)⟩

/-- A key deleted and put again by the target transaction loses its record while the index keeps answering it. -/
theorem compaction_loses_recreated_key :
    ((KvStore.new Backend.empty).run
      [.txn [.put [97] (some [1]) 0],.txn [.deleteKey [97],.put [97] (some [2]) 0]]).Accepts 2 ∧
    (((KvStore.new Backend.empty).run
      [.txn [.put [97] (some [1]) 0],.txn [.deleteKey [97],.put [97] (some [2]) 0]]).compactToEnd 2).range [97] none 2 0
        = .ok ⟨[],1,0⟩ ∧
    ((KvStore.new Backend.empty).run
      [.txn [.put [97] (some [1]) 0],.txn [.deleteKey [97],.put [97] (some [2]) 0]]).range [97] none 2 0
        = .ok ⟨[⟨[97],some [2],2,2,1,0⟩],1,2⟩ := by
  decide

end Kave
