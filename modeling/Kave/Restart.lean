import Kave.Layers

/-! Restarting a store whose compactions have all run to their end: what `Restore` reads back from the bucket. -/

namespace Kave

open TreeIndex KeyIndex

/-- The answer a replay of these puts gives from the newest one on. -/
def runView (run : List Revision) : Option (Revision × Revision × Int) :=
  run.getLast?.map fun rev => ((life run).created,rev,(life run).version)

variable {kv : KvBucket} {a b : Content} {n : Nat} {s : KvStore} {h : History} {c : Int}

theorem look_restoreIndex {rev : Revision} (stamped : Stamped kv rev) {t : Int}
    (past : ∀ bk, (kv.find? bk).isSome → bk.rev.main ≤ t) (key : Bytes) :
    (KvStore.restoreIndex kv).look key t = runView (openRun (recordsIn kv key)) := by
  rw [TreeIndex.look,find_restoreIndex]
  rcases rebuild_openRun key (stamped.sorted key) fun bk member => stamped.positive member with
    ⟨missing,run⟩ | ⟨ki,ended,found,lives,⟨bk,inside,newest⟩,-⟩
  · rw [missing,run]
    rfl
  · have now : ki.modRev.main ≤ t := by
      rw [newest]
      exact past bk (isSome_of_mem_recordsIn inside)
    rw [found,Option.bind_some,lives.view_now now]
    rfl

theorem look_newest {c : Content} {rev : Revision} (before : c.Before rev) {t : Int} {key : Bytes}
    (past : ∀ bk ∈ c.index.records key, bk.rev.main ≤ t) :
    (c.index.look key t).map (·.2.1) = (openRun (c.index.records key)).getLast? := by
  rw [TreeIndex.look,TreeIndex.records] at *
  cases found : c.index.find? key with
  | none => rfl
  | some ki =>
    obtain ⟨-,ended,current,lives⟩ := before.valid key ki found
    rw [found] at past
    have now : ki.modRev.main ≤ t := by
      have newest := List.mem_of_getLast? lives.newest
      rw [← lives.revs_eq] at newest
      obtain ⟨bk,inside,same⟩ := List.mem_map.mp newest
      rw [← same]
      exact past bk inside
    rw [Option.bind_some,lives.view_now now,Option.map_some,Option.getD_some,lives.openRun_eq,Option.map_map]
    cases current.revs.getLast? <;> rfl

theorem fetchRange_congr {ti ti' : TreeIndex} {r : Int}
    (same : ∀ key, (ti'.look key r).map (·.2.1) = (ti.look key r).map (·.2.1)) (b : Buckets) (key : Bytes)
    (endKey : Option Bytes) (limit : Int) : fetchRange ti' b r key endKey limit = fetchRange ti b r key endKey limit := by
  have records : ∀ key, (ti'.look key r).map (fun found => b.kv.find? ⟨found.2.1,false⟩) =
      (ti.look key r).map fun found => b.kv.find? ⟨found.2.1,false⟩ := by
    intro key
    have image := congrArg (Option.map fun mod => b.kv.find? ⟨mod,false⟩) (same key)
    rwa [Option.map_map, Option.map_map] at image
  rw [fetchRange_eq,fetchRange_eq,recordsAt_congr records]

/-! ### Runs -/

/-- A store whose compactions are all done, ready to be restored. -/
structure Recoverable (s : KvStore) (h : History) : Prop where
  intact : Intact s h
  filed : s.content.Filed s.compactedMainRev ⟨s.currentRev.main + 1,0⟩
  newest : 0 < s.currentRev.main → ∃ bk, (s.backend.buckets.kv.find? bk).isSome ∧ bk.rev.main = s.currentRev.main
  finished : s.backend.buckets.metadata.finishedCompactedRev.getD 0 = s.compactedMainRev
  scheduled : s.backend.buckets.metadata.scheduledCompactedRev.getD 0 = s.compactedMainRev

theorem Recoverable.empty : Recoverable (KvStore.new Backend.empty) History.empty := by
  refine ⟨Intact.empty,⟨⟨?_,?_⟩,Intact.empty.refines_.settled.before,?_⟩,?_,rfl,rfl⟩
  · intro bk present
    simp [KvStore.content,KvStore.new,Backend.empty,Buckets.empty] at present
  · intro bk bk' present
    simp [KvStore.content,KvStore.new,Backend.empty,Buckets.empty] at present
  · intro key
    exact ⟨[],rfl,by simp,fun _ => rfl⟩
  · intro positive
    exact absurd positive (lt_irrefl _)

theorem Content.Filed.mono {c : Content} {lo : Int} {rev rev' : Revision} (filed : c.Filed lo rev) (le : rev ≤ rev') :
    c.Filed lo rev' := by
  refine ⟨filed.toStamped.mono le,⟨filed.before.valid,?_⟩,filed.layers⟩
  intro key bk member
  obtain ⟨main,sub,less⟩ := filed.before.early key bk member
  exact ⟨main,sub,less.trans_le le⟩

theorem WriteStep.keeps {next : Int} {w : Write} (step : WriteStep next n a w b)
    {bk : KvBucketKey} (present : (a.kv.find? bk).isSome) : (b.kv.find? bk).isSome := by
  obtain ⟨key,new,entry,-,-,kv,-⟩ := step.wrote
  rw [kv,SortedMap.find_insert]
  split
  · rfl
  · exact present

theorem Chain.newest {next : Int} {ws : List Write} (chain : Chain next n a ws b)
    (some_ : ws ≠ []) : ∃ bk, (b.kv.find? bk).isSome ∧ bk.rev.main = next := by
  cases chain with
  | nil => exact absurd rfl some_
  | cons step rest =>
    obtain ⟨key,bk,entry,rev,-,kv,-⟩ := step.wrote
    refine ⟨bk,?_,by rw [rev]⟩
    refine rest.invariant (P := fun _ c => (c.kv.find? bk).isSome) (fun _ _ _ _ present step => step.keeps present) ?_
    rw [kv,SortedMap.find_insert,if_pos rfl]
    rfl

theorem Recoverable.txn (recoverable : Recoverable s h) (ops : List Op) :
    Recoverable (s.txn ops) (h.txn ops) := by
  have settled := recoverable.intact.refines_.settled
  have committed := settled.txn recoverable.intact.refines_.shows_next.domain ops
  have positive : 0 < s.currentRev.main + 1 := by have := settled.nonneg; omega
  have filed := committed.chain.filed positive recoverable.filed
  have current := committed.current
  refine ⟨recoverable.intact.txn ops,?_,?_,by rw [committed.finished,committed.compacted]; exact recoverable.finished,
    by rw [committed.scheduled,committed.compacted]; exact recoverable.scheduled⟩
  · rw [committed.compacted]
    by_cases none : KvMap.opsWrites (s.currentRev.main + 1) ops h.last = []
    · rw [if_pos none] at current
      rw [current]
      rw [none] at filed
      exact filed
    · rw [if_neg none] at current
      rw [current]
      exact filed.mono (Revision.lt_of_main_lt (Int.lt_succ _)).le
  · intro later
    by_cases none : KvMap.opsWrites (s.currentRev.main + 1) ops h.last = []
    · have chain := committed.chain
      rw [if_pos none] at current
      rw [none] at chain
      have same : (s.txn ops).content = s.content := by
        generalize (s.txn ops).content = c at chain
        cases chain
        rfl
      rw [current] at later ⊢
      have kv : (s.txn ops).backend.buckets.kv = s.backend.buckets.kv := congrArg Content.kv same
      rw [kv]
      exact recoverable.newest later
    · rw [if_neg none] at current
      rw [current]
      exact committed.chain.newest none

/-- The compaction at `c` is clean and its batches miss nothing. -/
def KvStore.Sweeps (s : KvStore) (c : Int) : Prop := s.CleanAt c ∧ Aligned (s.superseded c)

instance (s : KvStore) (c : Int) : Decidable (s.Sweeps c) := by
  unfold KvStore.Sweeps
  infer_instance

/-- The compaction at `c` lays open no put of a key whose newest record is a tombstone. -/
def KvStore.KeepsBuried (s : KvStore) (c : Int) : Prop :=
  ∀ item ∈ s.kvIndex.entries, ∀ bk ∈ (recordsIn s.backend.buckets.kv item.1).getLast?, bk.tombstone = true →
    ¬ LaysOpen s.compactedMainRev c (recordsIn s.backend.buckets.kv item.1) bk

instance (s : KvStore) (c : Int) : Decidable (s.KeepsBuried c) := by
  unfold KvStore.KeepsBuried
  infer_instance

theorem KvStore.compactToEnd_metadata (valid : s.kvIndex.Valid) (accepts_ : s.Accepts c) :
    (s.compactToEnd c).backend.buckets.metadata.finishedCompactedRev = some c ∧
      (s.compactToEnd c).backend.buckets.metadata.scheduledCompactedRev = some c := by
  rw [compactToEnd_of accepts_]
  obtain ⟨ti,kept,b,done⟩ := doCompact_done
    (s := { s with backend := s.backend.commit [.putScheduledCompactedRev c] }) valid ⟨c,s.compactedMainRev⟩
  rw [done.result]
  exact ⟨done.batched.finished,done.batched.scheduled⟩

private theorem item_of_records {ti : TreeIndex} {key : Bytes} (some_ : ti.records key ≠ []) :
    ∃ ki, (key,ki) ∈ ti.entries := by
  rw [TreeIndex.records] at some_
  cases found : ti.find? key with
  | none => simp [found] at some_
  | some ki => exact ⟨ki,SortedMap.mem_entries.mpr found⟩

theorem Recoverable.compact (recoverable : Recoverable s h) (accepts_ : s.Accepts c)
    (sweeps : s.Sweeps c) (buried : s.KeepsBuried c) : Recoverable (s.compactToEnd c) h := by
  obtain ⟨clean,aligned⟩ := sweeps
  have settled := recoverable.intact.refines_.settled
  obtain ⟨-,current,compacted⟩ := s.compactToEnd_trimmed settled accepts_ clean
  have swept := s.compactToEnd_swept recoverable.filed accepts_ clean aligned
  obtain ⟨finished,scheduled⟩ := s.compactToEnd_metadata settled.before.valid accepts_
  have less : s.compactedMainRev < c := accepts_.2.2
  have le : c ≤ s.currentRev.main := accepts_.2.1
  have filed := swept.filed less recoverable.filed fun key some_ bk newest marked => by
    obtain ⟨ki,inside⟩ := item_of_records some_
    exact buried (key,ki) inside bk newest marked
  refine ⟨recoverable.intact.compact accepts_ clean,?_,?_,by rw [finished,compacted]; rfl,by rw [scheduled,compacted]; rfl⟩
  · rw [compacted,current]
    exact filed
  · intro positive
    rw [current] at positive ⊢
    obtain ⟨bk,present,newest⟩ := recoverable.newest positive
    obtain ⟨entry,found⟩ := Option.isSome_iff_exists.mp present
    have member : bk ∈ recordsIn s.backend.buckets.kv entry.key := mem_recordsIn.mpr ⟨entry,found,rfl⟩
    by_cases now : s.currentRev.main = c
    · -- of the target transaction itself the index keeps a record
      obtain ⟨kept,items⟩ := swept.items
      have known := recoverable.filed.known_of_mem member (by omega)
      obtain ⟨bk',kept'⟩ := keeper_isSome known (newest.trans now)
      have main := (keeper_cases (settled.before.valid.records_sorted entry.key) kept').2.1
      obtain ⟨member',-⟩ := (items entry.key).keeper bk' kept'
      exact ⟨bk',isSome_of_mem_recordsIn (filed.mem_of_known member'),main.trans now.symm⟩
    · have stays : bk ∈ recordsIn (s.compactToEnd c).content.kv entry.key := by
        rw [swept.records]
        refine List.mem_filter.mpr ⟨member,decide_eq_true ?_⟩
        rintro ⟨-,upTo,-⟩
        omega
      exact ⟨bk,isSome_of_mem_recordsIn stays,newest⟩

/-! ### Restoring -/

theorem newest_entry {bk : KvBucketKey} (present : (kv.find? bk).isSome) :
    ∃ e, kv.entries.getLast? = some e ∧ (kv.find? e.1).isSome ∧ bk ≤ e.1 := by
  obtain ⟨entry,found⟩ := Option.isSome_iff_exists.mp present
  have member := SortedMap.mem_entries.mpr found
  obtain ⟨older,e,split⟩ := (List.eq_nil_or_concat' kv.entries).resolve_left (List.ne_nil_of_mem member)
  have here : e ∈ kv.entries := by simp [split]
  refine ⟨e,by simp [split],by rw [SortedMap.mem_entries.mp here]; rfl,?_⟩
  have sorted := kv.sorted
  rw [split] at member sorted
  rcases List.mem_append.mp member with old | last
  · exact ((List.pairwise_append.mp sorted).2.2 _ old e (by simp)).le
  · rw [← List.mem_singleton.mp last]

theorem Stamped.last_main {n : Int} (stamped : Stamped kv ⟨n + 1,0⟩) (nonneg : 0 ≤ n)
    (newest : 0 < n → ∃ bk, (kv.find? bk).isSome ∧ bk.rev.main = n) :
    ((kv.entries.getLast?.map (·.1.rev)).getD Revision.zero).main = n := by
  have past : ∀ {bk}, (kv.find? bk).isSome → 0 < bk.rev.main ∧ bk.rev.main ≤ n := by
    intro bk present
    obtain ⟨main,sub,less⟩ := stamped.early bk present
    rcases Revision.lt_iff.mp less with below | ⟨-,below⟩ <;> simp only at below <;> omega
  rcases nonneg.lt_or_eq with positive | zero
  · obtain ⟨bk,present,main⟩ := newest positive
    obtain ⟨e,last,here,le⟩ := newest_entry present
    have high := (past here).2
    have low : bk.rev.main ≤ e.1.rev.main := by
      rcases le.lt_or_eq with less | same
      · exact Revision.main_le_of_le (KvBucketKey.rev_le_of_lt less)
      · rw [same]
    rw [last,Option.map_some,Option.getD_some]
    omega
  · have none : kv.entries.getLast? = none := by
      by_contra some_
      obtain ⟨e,last⟩ := Option.ne_none_iff_exists'.mp some_
      have here := SortedMap.mem_entries.mp (List.mem_of_getLast? last)
      have := past (show (kv.find? e.1).isSome by rw [here]; rfl)
      omega
    rw [none]
    exact zero

section

variable {s : KvStore} {h : History}

theorem Recoverable.past (recoverable : Recoverable s h) {bk : KvBucketKey}
    (present : (s.backend.buckets.kv.find? bk).isSome) : 0 < bk.rev.main ∧ bk.rev.main ≤ s.currentRev.main := by
  obtain ⟨main,sub,less⟩ := recoverable.filed.early bk present
  rcases Revision.lt_iff.mp less with below | ⟨-,below⟩ <;> simp only at below <;> omega

theorem Recoverable.restore_eq (recoverable : Recoverable s h) :
    s.restore.1.currentRev.main = s.currentRev.main ∧ s.restore.1.compactedMainRev = s.compactedMainRev ∧
      s.restore.1.backend = s.backend ∧ s.restore.1.kvIndex = KvStore.restoreIndex s.backend.buckets.kv ∧
      s.restore.2 = none := by
  have idle : ¬ s.backend.buckets.metadata.scheduledCompactedRev.getD 0 >
      s.backend.buckets.metadata.finishedCompactedRev.getD 0 := by
    rw [recoverable.scheduled,recoverable.finished]
    exact lt_irrefl _
  refine ⟨?_,?_,rfl,rfl,?_⟩
  · exact recoverable.filed.toStamped.last_main recoverable.intact.refines_.settled.nonneg recoverable.newest
  · exact (if_neg idle).trans recoverable.finished
  · exact if_neg idle

theorem Recoverable.restore_look (recoverable : Recoverable s h) (key : Bytes) :
    s.restore.1.kvIndex.look key s.currentRev.main = runView (openRun (recordsIn s.backend.buckets.kv key)) := by
  rw [recoverable.restore_eq.2.2.2.1]
  exact look_restoreIndex recoverable.filed.toStamped (fun bk present => (recoverable.past present).2) key

theorem Recoverable.restore_newest (recoverable : Recoverable s h) (key : Bytes) :
    (s.restore.1.kvIndex.look key s.currentRev.main).map (·.2.1) =
      (s.kvIndex.look key s.currentRev.main).map (·.2.1) := by
  obtain ⟨stale,layered⟩ := recoverable.filed.layers key
  have before : (s.kvIndex.look key s.currentRev.main).map (·.2.1) = (openRun (s.kvIndex.records key)).getLast? :=
    look_newest recoverable.filed.before fun bk member =>
      (recoverable.past (isSome_of_mem_recordsIn (recoverable.filed.mem_of_known member))).2
  have after : (runView (openRun (recordsIn s.backend.buckets.kv key))).map (·.2.1)
      = (openRun (recordsIn s.backend.buckets.kv key)).getLast? := by
    rw [runView,Option.map_map]
    exact Option.map_id'
  rw [recoverable.restore_look,after,before]
  exact layered.newest

theorem KvStore.range_now {s s' : KvStore} (current : s'.currentRev.main = s.currentRev.main)
    (kept : s.compactedMainRev ≤ s.currentRev.main) (kept' : s'.compactedMainRev ≤ s.currentRev.main)
    (nonneg : 0 ≤ s.currentRev.main) (fetch : ∀ key endKey limit,
      fetchRange s'.kvIndex s'.backend.buckets s.currentRev.main key endKey limit =
        fetchRange s.kvIndex s.backend.buckets s.currentRev.main key endKey limit) (key : Bytes)
    (endKey : Option Bytes) (limit : Int) : s'.range key endKey 0 limit = s.range key endKey 0 limit := by
  have now : ¬ (0 > s.currentRev.main) := not_lt.mpr nonneg
  simp only [KvStore.range,doRange,current,now,if_false,le_refl,if_true,not_lt.mpr kept,not_lt.mpr kept',fetch]

theorem Recoverable.restore_range (recoverable : Recoverable s h) (key : Bytes) (endKey : Option Bytes) (limit : Int) :
    s.restore.1.range key endKey 0 limit = s.range key endKey 0 limit := by
  obtain ⟨current,compacted,backend,-,-⟩ := recoverable.restore_eq
  have reach := recoverable.intact.refines_.reach
  rw [← recoverable.intact.refines_.current] at reach
  refine KvStore.range_now current reach (by rw [compacted]; exact reach) recoverable.intact.refines_.settled.nonneg ?_ key
    endKey limit
  intro key endKey limit
  rw [backend]
  exact fetchRange_congr recoverable.restore_newest s.backend.buckets key endKey limit

end

theorem Recoverable.run {events : List StoreEvent}
    (safe : (KvStore.new Backend.empty).EveryCompaction (fun s c => s.Sweeps c ∧ s.KeepsBuried c) events) :
    Recoverable ((KvStore.new Backend.empty).run events) (History.empty.run events) :=
  KvStore.run_invariant (fun _ _ ops recoverable => recoverable.txn ops)
    (fun _ _ _ recoverable accepts_ ok => recoverable.compact accepts_ ok.1 ok.2) Recoverable.empty safe

/-- In every run whose compactions are clean, miss nothing they scan and lay open no put of a deleted key, a restart
    brings back exactly what was live. -/
theorem restart_keeps_live_entries (events : List StoreEvent)
    (safe : (KvStore.new Backend.empty).EveryCompaction (fun s c => s.Sweeps c ∧ s.KeepsBuried c) events) (key : Bytes)
    (endKey : Option Bytes) (limit : Int) :
    ((KvStore.new Backend.empty).run events).restore.1.range key endKey 0 limit =
      ((KvStore.new Backend.empty).run events).range key endKey 0 limit :=
  (Recoverable.run safe).restore_range key endKey limit

theorem restart_keeps_live_entries_after_delete :
    ((KvStore.new Backend.empty).run [.txn [.put [97] (some [1]) 0],.txn [.deleteKey [97],.put [98] (some [2]) 0],
      .txn [.put [98] (some [3]) 0],.compact 3]).restore.1.range [] none 0 0 = .ok ⟨[⟨[98],some [3],2,3,2,0⟩],1,3⟩ := by
  rw [restart_keeps_live_entries _ (by decide)]
  decide

/-- A put that one compaction keeps and a later one cannot reach comes back when the tombstone is gone. -/
theorem restart_revives_deleted_key :
    ((KvStore.new Backend.empty).run [.txn [.put [97] (some [1]) 0],.txn [.put [98] (some [2]) 0],.compact 2,
      .txn [.deleteKey [97]],.txn [.put [98] (some [3]) 0],.compact 4]).range [97] none 0 0 = .ok ⟨[],0,4⟩ ∧
    ((KvStore.new Backend.empty).run [.txn [.put [97] (some [1]) 0],.txn [.put [98] (some [2]) 0],.compact 2,
      .txn [.deleteKey [97]],.txn [.put [98] (some [3]) 0],.compact 4]).restore.1.range [97] none 0 0
        = .ok ⟨[⟨[97],some [1],1,1,1,0⟩],1,1⟩ := by
  decide

/-! ### Create revisions and versions -/

/-- The compaction at `c` neither thins the current life of a key nor lays open a put before it. -/
def KvStore.KeepsLives (s : KvStore) (c : Int) : Prop :=
  ∀ item ∈ s.kvIndex.entries,
    (∀ bk ∈ ((recordsIn s.backend.buckets.kv item.1).filter (·.tombstone)).getLast?,
      ¬ LaysOpen s.compactedMainRev c (recordsIn s.backend.buckets.kv item.1) bk) ∧
    ¬ Thins s.compactedMainRev c (recordsIn s.backend.buckets.kv item.1)

instance (s : KvStore) (c : Int) : Decidable (s.KeepsLives c) := by
  unfold KvStore.KeepsLives
  infer_instance

theorem KvStore.KeepsLives.buried (keeps : s.KeepsLives c) : s.KeepsBuried c := by
  intro item inside bk newest marked
  refine (keeps item inside).1 bk ?_
  obtain ⟨older,split⟩ := List.getLast?_eq_some_iff.mp newest
  rw [split,List.filter_append,List.filter_singleton,marked]
  simp

/-- The index answers what a replay of the bucket answers. -/
def Content.Whole (c : Content) (t : Int) : Prop :=
  ∀ key, c.index.look key t = runView (openRun (recordsIn c.kv key))

theorem runView_snoc (run : List Revision) (rev : Revision) : runView (run ++ [rev]) = some (extend (runView run) rev) := by
  cases run with
  | nil => rfl
  | cons first rest =>
    have last : (first :: rest).getLast? = some ((first :: rest).getLast (by simp)) := List.getLast?_eq_some_getLast (by simp)
    rw [runView,List.getLast?_concat,runView,last]
    simp [extend,life]

theorem WriteStep.whole {next lo : Int} {w : Write} (step : WriteStep next n a w b)
    (filed : a.Filed lo ⟨next,n⟩) (whole : a.Whole next) : b.Whole next := by
  obtain ⟨key,bk,rev,wrote,records⟩ := step.recordsIn_eq filed.toStamped
  intro k
  rw [records]
  by_cases here : key = k
  · subst here
    have main : bk.rev.main = next := by rw [rev]
    rw [if_pos rfl,openRun_snoc,wrote.look,main,if_neg (lt_irrefl next),whole key]
    cases bk.tombstone
    · exact (runView_snoc _ _).symm
    · rfl
  · rw [if_neg here,List.append_nil,wrote.look_other (Ne.symm here)]
    exact whole k

theorem Chain.whole {next lo : Int} {ws : List Write} (positive : 0 < next)
    (chain : Chain next n a ws b) (filed : a.Filed lo ⟨next,n⟩) (whole : a.Whole next) : b.Whole next := by
  induction chain with
  | nil => exact whole
  | cons step rest ih => exact ih (step.filed positive filed) (step.whole filed whole)

section

variable {s : KvStore} {h : History}

theorem Recoverable.look_later (recoverable : Recoverable s h) (key : Bytes) {t : Int} (le : s.currentRev.main ≤ t) :
    s.kvIndex.look key t = s.kvIndex.look key s.currentRev.main :=
  recoverable.filed.before.valid.look_now (fun _ member =>
    (recoverable.past (isSome_of_mem_recordsIn (recoverable.filed.mem_of_known member))).2) le

theorem Recoverable.whole_txn (recoverable : Recoverable s h) (whole : s.content.Whole s.currentRev.main) (ops : List Op) :
    (s.txn ops).content.Whole (s.txn ops).currentRev.main := by
  have settled := recoverable.intact.refines_.settled
  have committed := settled.txn recoverable.intact.refines_.shows_next.domain ops
  have positive : 0 < s.currentRev.main + 1 := by have := settled.nonneg; omega
  have start : s.content.Whole (s.currentRev.main + 1) := by
    intro key
    have later := recoverable.look_later key (Int.lt_succ s.currentRev.main).le
    exact later.trans (whole key)
  have final := committed.chain.whole positive recoverable.filed start
  intro key
  have next := (recoverable.txn ops).look_later key (t := s.currentRev.main + 1) (by
    rw [committed.current]
    split <;> omega)
  exact next.symm.trans (final key)

theorem Recoverable.whole_compact (recoverable : Recoverable s h) (whole : s.content.Whole s.currentRev.main) {c : Int}
    (accepts_ : s.Accepts c) (sweeps : s.Sweeps c) (keeps : s.KeepsLives c) :
    (s.compactToEnd c).content.Whole (s.compactToEnd c).currentRev.main := by
  obtain ⟨trimmed,current,-⟩ := s.compactToEnd_trimmed recoverable.intact.refines_.settled accepts_ sweeps.1
  have swept := s.compactToEnd_swept recoverable.filed accepts_ sweeps.1 sweeps.2
  intro key
  rw [current,trimmed.look key _ accepts_.2.1,whole key,swept.openRun_eq recoverable.filed]
  intro some_
  obtain ⟨ki,inside⟩ := item_of_records some_
  exact keeps (key,ki) inside

theorem restoreIndex_records {kv : KvBucket} {rev : Revision} (stamped : Stamped kv rev) {key : Bytes}
    {bk : KvBucketKey} (member : bk ∈ (KvStore.restoreIndex kv).records key) : bk ∈ recordsIn kv key := by
  rw [TreeIndex.records,find_restoreIndex] at member
  rcases rebuild_openRun key (stamped.sorted key) fun bk member => stamped.positive member with
    ⟨missing,-⟩ | ⟨ki,ended,found,-,-,known⟩
  · rw [missing] at member
    simp at member
  · rw [found] at member
    exact known bk member

/-- If the index answers what a replay answers, the restored store shows the same history from here on. -/
theorem Recoverable.restore_refines (recoverable : Recoverable s h) (whole : s.content.Whole s.currentRev.main) :
    Refines s.currentRev.main s.restore.1 h := by
  obtain ⟨current,-,backend,index,-⟩ := recoverable.restore_eq
  have content : s.restore.1.content = ⟨KvStore.restoreIndex s.backend.buckets.kv,s.backend.buckets.kv⟩ := by
    rw [KvStore.content,backend,index]
  have refines_ := recoverable.intact.refines_
  refine ⟨⟨by rw [current]; exact refines_.settled.nonneg,?_⟩,current.trans refines_.current,refines_.current.le,?_⟩
  · rw [current,content]
    refine ⟨restoreIndex_valid _,fun key bk member => ?_⟩
    exact recoverable.filed.early bk (isSome_of_mem_recordsIn (restoreIndex_records recoverable.filed.toStamped member))
  · intro r low high key
    have now : r = s.currentRev.main := le_antisymm (high.trans_eq refines_.current.symm) low
    have same : (KvStore.restoreIndex s.backend.buckets.kv).look key s.currentRev.main
        = s.content.index.look key s.currentRev.main := by
      rw [← index,recoverable.restore_look]
      exact (whole key).symm
    rw [content,now]
    simp only [same]
    rw [refines_.current]
    exact refines_.agree h.current refines_.reach le_rfl key

end

theorem Refines.range_now {lo lo' : Int} {s s' : KvStore} (refines_ : Refines lo s h)
    (refines' : Refines lo' s' h) (kept : s.compactedMainRev ≤ h.current) (kept' : s'.compactedMainRev ≤ h.current)
    (key : Bytes) (endKey : Option Bytes) (limit : Int) : s'.range key endKey 0 limit = s.range key endKey 0 limit := by
  rw [← refines_.current] at kept kept'
  refine KvStore.range_now (refines'.current.trans refines_.current.symm) kept kept' refines_.settled.nonneg ?_ key endKey limit
  intro key endKey limit
  have shows_ := refines_.agree h.current refines_.reach le_rfl
  have shows' := refines'.agree h.current refines'.reach le_rfl
  rw [refines_.current,Content.Shows.fetchRange shows_,Content.Shows.fetchRange shows']

/-- In every run whose compactions are clean, miss nothing they scan, and neither thin a current life nor lay open a put
    before it, a restart gives every live key its create revision and version again; and whatever transactions
    follow, the restarted store reads as the one that kept running. -/
theorem restart_keeps_create_and_version (events : List StoreEvent)
    (safe : (KvStore.new Backend.empty).EveryCompaction (fun s c => s.Sweeps c ∧ s.KeepsLives c) events) :
    let s := (KvStore.new Backend.empty).run events
    (∀ key, (s.restore.1.kvIndex.unsafeGet key s.currentRev.main).toOption =
      (s.kvIndex.unsafeGet key s.currentRev.main).toOption) ∧
    ∀ later key endKey limit, (s.restore.1.txns later).range key endKey 0 limit = (s.txns later).range key endKey 0 limit := by
  intro s
  have invariant : Recoverable s (History.empty.run events) ∧ s.content.Whole s.currentRev.main := by
    refine KvStore.run_invariant (P := fun s h => Recoverable s h ∧ s.content.Whole s.currentRev.main) ?_ ?_ ?_ safe
    · rintro s h ops ⟨recoverable,whole⟩
      exact ⟨recoverable.txn ops,recoverable.whole_txn whole ops⟩
    · rintro s h c ⟨recoverable,whole⟩ accepts_ ⟨sweeps,keeps⟩
      exact ⟨recoverable.compact accepts_ sweeps keeps.buried,recoverable.whole_compact whole accepts_ sweeps keeps⟩
    · exact ⟨Recoverable.empty,fun key => rfl⟩
  obtain ⟨recoverable,whole⟩ := invariant
  constructor
  · intro key
    rw [unsafeGet_toOption, unsafeGet_toOption, recoverable.restore_look]
    exact (whole key).symm
  · intro later key endKey limit
    obtain ⟨running,compacted⟩ := recoverable.intact.refines_.txns later
    obtain ⟨restarted,compacted'⟩ := (recoverable.restore_refines whole).txns later
    have kept := (recoverable.intact.refines_.reach.trans_eq recoverable.intact.refines_.current.symm).trans restarted.reach
    refine Refines.range_now running restarted ?_ ?_ key endKey limit
    · rw [compacted]
      exact kept
    · rw [compacted', recoverable.restore_eq.2.1]
      exact kept

theorem restart_keeps_create_and_version_two_puts :
    ((KvStore.new Backend.empty).run [.txn [.put [97] (some [1]) 0],.compact 1,.txn [.put [97] (some [2]) 0]]).restore.1.kvIndex.unsafeGet
      [97] 2 = .ok (⟨1,0⟩,⟨2,0⟩,2) ∧
    ((((KvStore.new Backend.empty).run [.txn [.put [97] (some [1]) 0],.compact 1,.txn [.put [97] (some [2]) 0]]).restore.1.txns
      [[.put [97] (some [3]) 0]]).range [97] none 0 0) = .ok ⟨[⟨[97],some [3],1,3,3,0⟩],1,3⟩ := by
  have keeps := restart_keeps_create_and_version
    [.txn [.put [97] (some [1]) 0],.compact 1,.txn [.put [97] (some [2]) 0]] (by decide)
  constructor
  · decide
  · rw [keeps.2]
    decide

/-- A compaction that removes older puts of a live key makes a restart count again from what is left. -/
theorem restart_forgets_versions :
    ((KvStore.new Backend.empty).run [.txn [.put [97] (some [1]) 0],.txn [.put [97] (some [2]) 0],
      .txn [.put [97] (some [3]) 0],.compact 3]).kvIndex.unsafeGet [97] 3 = .ok (⟨1,0⟩,⟨3,0⟩,3) ∧
    ((KvStore.new Backend.empty).run [.txn [.put [97] (some [1]) 0],.txn [.put [97] (some [2]) 0],
      .txn [.put [97] (some [3]) 0],.compact 3]).restore.1.kvIndex.unsafeGet [97] 3 = .ok (⟨3,0⟩,⟨3,0⟩,1) := by
  decide

end Kave
