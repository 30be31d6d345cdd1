import Kave.Abort

/-! The journal of a store: the records of its transactions in the order they were written. Reading the bucket from its
    first record to its last replays the journal, so a restart builds the index the transactions had built. -/

namespace Kave

open TreeIndex KeyIndex

/-! ### Replaying a record in alike trees -/

namespace KeyIndex

@[simp] theorem forget_append (g : Generation) (rev : Revision) : g.forget.append rev = g.append rev := by
  by_cases none : g.revs = []
  · simp [Generation.forget,Generation.append,none]
  · rw [Generation.forget_of_revs none]

private theorem appendRev_forget (gens : List Generation) (rev : Revision) :
    appendRev (gens.map Generation.forget) rev = (gens.dropLast.map Generation.forget) ++
      [(gens.getLast?.getD Generation.zero).append rev] := by
  rw [appendRev,List.map_dropLast,List.getLast?_map]
  cases gens.getLast? <;> simp

private theorem forget_appendRev (gens : List Generation) (rev : Revision) :
    (appendRev (gens.map Generation.forget) rev).map Generation.forget = (appendRev gens rev).map Generation.forget := by
  have idem : Generation.forget ∘ Generation.forget = Generation.forget := funext Generation.forget_idem
  rw [appendRev_forget,appendRev,List.map_append,List.map_append,List.map_map,idem]

theorem put_forget (ki : KeyIndex) (main sub : Int) :
    (ki.forget.put main sub).map forget = (ki.put main sub).map forget := by
  have modRev : ki.forget.modRev = ki.modRev := rfl
  have gens : ki.forget.generations = ki.generations.map Generation.forget := rfl
  rw [put,put,modRev,gens]
  by_cases refused : (!Revision.greaterThan ⟨main,sub⟩ ki.modRev) = true
  · simp only [if_pos refused]
  · simp only [if_neg refused,Except.map,forget,forget_appendRev]

theorem tombstone_forget (ki : KeyIndex) (main sub : Int) :
    (ki.forget.tombstone main sub).map forget = (ki.tombstone main sub).map forget := by
  have puts := ki.put_forget main sub
  have last : ki.forget.generations.getLast? = ki.generations.getLast?.map Generation.forget := List.getLast?_map
  rw [tombstone,tombstone,forget_isEmpty,last]
  by_cases none : ki.isEmpty = true
  · rw [if_pos none,if_pos none]
  · rw [if_neg none,if_neg none]
    cases ki.generations.getLast? with
    | none => rfl
    | some g =>
      have same : g.forget.isEmpty = g.isEmpty := by simp [Generation.isEmpty]
      simp only [Option.map_some,same]
      cases g.isEmpty with
      | true => rfl
      | false =>
        -- both puts end alike, and the generation opened after them is the same
        cases first : ki.forget.put main sub <;> cases second : ki.put main sub <;> rw [first,second] at puts
        · simpa [Except.map] using puts
        · cases puts
        · cases puts
        · simpa [Except.map,forget] using puts

end KeyIndex

private theorem map_getD_of_map {α β : Type} {f : α → β} {x y : Except IndexError α} {a b : α} (same : x.map f = y.map f)
    (default : f a = f b) : f (x.toOption.getD a) = f (y.toOption.getD b) := by
  cases x <;> cases y <;> simp_all [Except.map,Except.toOption]

theorem rebuildStep_forget (key : Bytes) (item : Option KeyIndex) (bk : KvBucketKey) :
    (rebuildStep key (item.map KeyIndex.forget) bk).map KeyIndex.forget = (rebuildStep key item bk).map KeyIndex.forget := by
  cases item with
  | none => rfl
  | some ki =>
    have idem : ki.forget.forget = ki.forget := by simp [KeyIndex.forget,Function.comp_def,Generation.forget_idem]
    simp only [Option.map_some,rebuildStep,Option.some.injEq]
    split
    · exact map_getD_of_map (ki.tombstone_forget _ _) idem
    · exact map_getD_of_map (ki.put_forget _ _) idem

theorem TreeIndex.Alike.restoreEntry {ti ti' : TreeIndex} (alike : ti.Alike ti') (bk : KvBucketKey) (entry : Entry) :
    (KvStore.restoreEntry ti bk entry).Alike (KvStore.restoreEntry ti' bk entry) := by
  intro key
  rw [find_restoreEntry,find_restoreEntry]
  split
  · rw [← rebuildStep_forget,alike key,rebuildStep_forget]
  · exact alike key

/-- The index after replaying some records. -/
def TreeIndex.replay (ti : TreeIndex) (log : List (KvBucketKey × Entry)) : TreeIndex :=
  log.foldl (fun ti e => KvStore.restoreEntry ti e.1 e.2) ti

theorem TreeIndex.Alike.replay {ti ti' : TreeIndex} (alike : ti.Alike ti') (log : List (KvBucketKey × Entry)) :
    (ti.replay log).Alike (ti'.replay log) := by
  induction log generalizing ti ti' with
  | nil => exact alike
  | cons e rest ih => exact ih (alike.restoreEntry e.1 e.2)

/-! ### What an open transaction has written -/

/-- The records of an open transaction, in the order of its changes. -/
structure Writer.Journaled (s : KvStore) (w : Writer) (log : List (KvBucketKey × Entry)) : Prop where
  store : w.store = { s with kvIndex := s.kvIndex.replay log }
  startRev : w.startRev = s.currentRev
  entries : w.content.kv.entries = s.backend.buckets.kv.entries ++ log
  changes : log.map (·.2) = w.changes.map Entry.stored
  revs : log.map (·.1.rev) = (List.range w.changes.length).map fun i : Nat => ⟨s.currentRev.main + 1,(i : Int)⟩
  dated : ∀ e ∈ log, e.2.modRev = s.currentRev.main + 1

namespace Writer.Journaled

variable {s : KvStore} {w w' : Writer} {log : List (KvBucketKey × Entry)}

theorem new (s : KvStore) : s.newWriter.Journaled s [] := ⟨rfl,rfl,by simp [Writer.content,KvStore.newWriter],rfl,rfl,by simp⟩

theorem changes_eq_nil_iff (journaled : w.Journaled s log) : w.changes = [] ↔ log = [] := by
  rw [← List.map_eq_nil_iff,← journaled.changes,List.map_eq_nil_iff]

theorem newest (journaled : w.Journaled s log) (stamped : Stamped s.backend.buckets.kv ⟨s.currentRev.main + 1,0⟩)
    {e : KvBucketKey × Entry} (member : e ∈ w.content.kv.entries) : e.1.rev < ⟨w.startRev.main + 1,w.changes.length⟩ := by
  rw [journaled.entries] at member
  rw [journaled.startRev]
  rcases List.mem_append.mp member with old | new
  · have present : (s.backend.buckets.kv.find? e.1).isSome := by rw [SortedMap.mem_entries.mp old]; rfl
    refine (stamped.early e.1 present).2.2.trans_le (Revision.le_iff.mpr (Or.inr ⟨rfl,?_⟩))
    exact Int.natCast_nonneg _
  · have rev : e.1.rev ∈ log.map (·.1.rev) := List.mem_map_of_mem new
    rw [journaled.revs] at rev
    obtain ⟨i,inside,is⟩ := List.mem_map.mp rev
    rw [← is]
    exact Revision.lt_iff.mpr (Or.inr ⟨rfl,by simpa using inside⟩)

private theorem write (journaled : w.Journaled s log) (stamped : Stamped s.backend.buckets.kv ⟨s.currentRev.main + 1,0⟩)
    {bk : KvBucketKey} {entry : Entry} (rev : bk.rev = ⟨w.startRev.main + 1,w.changes.length⟩)
    (dated : entry.modRev = w.startRev.main + 1)
    (store : w'.store = { w.store with kvIndex := KvStore.restoreEntry w.store.kvIndex bk entry.stored })
    (writeTx : w'.writeTx = w.writeTx ++ [.putKv bk entry]) (startRev : w'.startRev = w.startRev)
    (changes : w'.changes = w.changes ++ [entry]) : w'.Journaled s (log ++ [(bk,entry.stored)]) where
  store := by rw [store,journaled.store,replay,replay,List.foldl_append]; rfl
  startRev := startRev.trans journaled.startRev
  entries := by
    have behind : ∀ e ∈ w.content.kv.entries, e.1 < bk := fun e member =>
      KvBucketKey.lt_iff.mpr (Or.inl (by rw [rev]; exact journaled.newest stamped member))
    have kv : w'.content.kv = w.content.kv.insert bk entry.stored := by
      rw [Writer.content,Writer.content,writeTx,Buckets.applyBatch_append,store]
      rfl
    rw [kv,SortedMap.entries_insert_of_lt behind,journaled.entries,List.append_assoc]
  changes := by rw [changes,List.map_append,List.map_append,journaled.changes]; rfl
  revs := by
    rw [changes,List.length_append,List.length_singleton,List.range_succ,List.map_append,List.map_append,journaled.revs,
      ← journaled.startRev]
    simp [rev]
  dated e member := by
    rcases List.mem_append.mp member with old | new
    · exact journaled.dated e old
    · rw [List.mem_singleton.mp new,← journaled.startRev]
      exact dated

section

variable (stamped : Stamped s.backend.buckets.kv ⟨s.currentRev.main + 1,0⟩)

include stamped

theorem put (journaled : w.Journaled s log) {key : Bytes} {value : Option Bytes} {leaseID : Int64}
    (run : w.put key value leaseID = (w',none)) : ∃ log', w'.Journaled s log' := by
  rw [Writer.put] at run
  cases index : w.store.kvIndex.put key ⟨w.startRev.main + 1,w.changes.length⟩ with
  | error e => simp [index] at run
  | ok ti =>
    simp only [index,Prod.mk.injEq,and_true] at run
    subst run
    refine ⟨_,journaled.write stamped rfl rfl ?_ rfl rfl rfl⟩
    simp [KvStore.restoreEntry,KvBucketKey.encodeRevisionAsBucketKey,putEntry,index,Except.toOption]

theorem deleteKey (journaled : w.Journaled s log) {key : Bytes} (run : w.deleteKey key = (w',none)) :
    ∃ log', w'.Journaled s log' := by
  rw [Writer.deleteKey] at run
  cases index : w.store.kvIndex.tombstone key ⟨w.startRev.main + 1,w.changes.length⟩ with
  | error e => simp [index,KvBucketKey.newKvBucketKey] at run
  | ok ti =>
    simp only [index,KvBucketKey.newKvBucketKey,Prod.mk.injEq,and_true] at run
    subst run
    refine ⟨_,journaled.write stamped rfl rfl ?_ rfl rfl rfl⟩
    simp [KvStore.restoreEntry,tombstoneEntry,index,Except.toOption]

theorem runOps (ops : List Op) (journaled : w.Journaled s log) (run : Writer.runOps ops w = (w',none)) :
    ∃ log', w'.Journaled s log' := by
  have ran := Writer.runOps_invariant (P := fun p => p.2 = none → ∃ log, p.1.Journaled s log)
    (fun w key value leaseID before ok => by
      obtain ⟨log,journaled⟩ := before rfl
      exact journaled.put stamped (Prod.ext rfl ok))
    (fun w key before ok => by
      obtain ⟨log,journaled⟩ := before rfl
      exact journaled.deleteKey stamped (Prod.ext rfl ok))
    ops fun _ => ⟨log,journaled⟩
  rw [run] at ran
  exact ran rfl

end

end Writer.Journaled

/-! ### Committed and aborted transactions -/

/-- A committed transaction appends its records to the bucket, and to the index what replaying them adds. -/
structure KvStore.Appended (s s' : KvStore) (log : List (KvBucketKey × Entry)) : Prop where
  index : s'.kvIndex = s.kvIndex.replay log
  entries : s'.backend.buckets.kv.entries = s.backend.buckets.kv.entries ++ log
  current : s'.currentRev.main = if log = [] then s.currentRev.main else s.currentRev.main + 1
  main : ∀ e ∈ log, e.1.rev.main = s.currentRev.main + 1
  dated : ∀ e ∈ log, e.2.modRev = s.currentRev.main + 1

theorem Writer.Journaled.endTx {s : KvStore} {w : Writer} {log : List (KvBucketKey × Entry)} (journaled : w.Journaled s log) :
    s.Appended w.endTx log where
  index := congrArg KvStore.kvIndex journaled.store
  entries := by rw [← journaled.entries,← w.endTx_content]; rfl
  current := by
    have empty := journaled.changes_eq_nil_iff
    have current : w.store.currentRev = s.currentRev := by rw [journaled.store]
    by_cases none : log = []
    · simp [Writer.endTx,empty.mpr none,none,current]
    · simp [Writer.endTx,mt empty.mp none,none,current]
  main e member := by
    have rev : e.1.rev ∈ log.map (·.1.rev) := List.mem_map_of_mem member
    rw [journaled.revs] at rev
    obtain ⟨i,-,is⟩ := List.mem_map.mp rev
    rw [← is]
  dated := journaled.dated

theorem KvStore.Orderly.appended {s : KvStore} (orderly : s.Orderly) (ops : List Op) :
    ∃ log, s.Appended (s.txn ops) log ∧ (log = [] ↔ ∀ op ∈ ops, s.Idle op) := by
  obtain ⟨m,domain⟩ := s.content.exists_domain (s.currentRev.main + 1)
  obtain ⟨w,more,run,-⟩ := Writer.runOps_spec ops orderly.settled.fresh domain
  obtain ⟨log,journaled⟩ := (Writer.Journaled.new s).runOps orderly.stamped ops run
  refine ⟨log,?_,?_⟩
  · rw [KvStore.txn,run]
    exact journaled.endTx
  · rw [← orderly.settled.changes_eq_nil_iff,run]
    exact journaled.changes_eq_nil_iff.symm

/-- The bucket holds the whole history: replaying it gives the index, and its last record is of the newest transaction. -/
structure KvStore.Mirrored (s : KvStore) : Prop extends s.Orderly where
  index : TreeIndex.Alike s.kvIndex (KvStore.restoreIndex s.backend.buckets.kv)
  newest : 0 < s.currentRev.main → ∃ bk, (s.backend.buckets.kv.find? bk).isSome ∧ bk.rev.main = s.currentRev.main

namespace KvStore.Mirrored

variable {s s' : KvStore}

theorem new : (KvStore.new Backend.empty).Mirrored := ⟨.new,TreeIndex.Alike.refl _,fun positive => absurd positive (lt_irrefl _)⟩

theorem appended (mirrored : s.Mirrored) (orderly : s'.Orderly) {log : List (KvBucketKey × Entry)}
    (appended : s.Appended s' log) : s'.Mirrored where
  toOrderly := orderly
  index := by
    have rebuilt : KvStore.restoreIndex s'.backend.buckets.kv = (KvStore.restoreIndex s.backend.buckets.kv).replay log := by
      rw [KvStore.restoreIndex,appended.entries,List.foldl_append]
      rfl
    rw [appended.index,rebuilt]
    exact mirrored.index.replay log
  newest positive := by
    have current := appended.current
    rcases List.eq_nil_or_concat' log with none | ⟨older,e,last⟩
    · rw [if_pos none] at current
      have entries := appended.entries
      rw [none,List.append_nil] at entries
      obtain ⟨bk,present,main⟩ := mirrored.newest (by omega)
      refine ⟨bk,?_,by omega⟩
      rw [SortedMap.find?,entries]
      exact present
    · have inside : e ∈ log := by simp [last]
      rw [if_neg (List.ne_nil_of_mem inside)] at current
      have here : e ∈ s'.backend.buckets.kv.entries := by simp [appended.entries,inside]
      refine ⟨e.1,by rw [SortedMap.mem_entries.mp here]; rfl,?_⟩
      rw [appended.main e inside,current]

theorem txn (mirrored : s.Mirrored) (ops : List Op) : (s.txn ops).Mirrored := by
  obtain ⟨log,appended,-⟩ := mirrored.toOrderly.appended ops
  exact mirrored.appended (mirrored.toOrderly.txn ops) appended

theorem aborted (mirrored : s.Mirrored) {ti : TreeIndex} (alike : ti.Alike s.kvIndex) :
    KvStore.Mirrored { s with kvIndex := ti } :=
  ⟨mirrored.toOrderly.aborted alike,alike.trans mirrored.index,mirrored.newest⟩

theorem restore (mirrored : s.Mirrored) : s.kvIndex.SameAnswers (KvStore.new s.backend).restore.1.kvIndex ∧
    (KvStore.new s.backend).restore.1.currentRev.main = s.currentRev.main :=
  ⟨TreeIndex.Alike.sameAnswers fun key => (mirrored.index key).symm,
    mirrored.stamped.last_main mirrored.settled.nonneg mirrored.newest⟩

end KvStore.Mirrored

/-- A writer transaction that is ended, or aborted after its calls. -/
inductive WriterEvent
  | commit (ops : List Op)
  | abort (ops : List Op)
deriving DecidableEq, Repr

def KvStore.writerStep (s : KvStore) : WriterEvent → KvStore
  | .commit ops => s.txn ops
  | .abort ops => (Writer.runOps ops s.newWriter).1.abort

def KvStore.writers (s : KvStore) (events : List WriterEvent) : KvStore := events.foldl KvStore.writerStep s

theorem KvStore.Mirrored.writers {s : KvStore} (mirrored : s.Mirrored) (events : List WriterEvent) :
    (s.writers events).Mirrored := by
  induction events generalizing s with
  | nil => exact mirrored
  | cons event rest ih =>
    refine ih ?_
    cases event with
    | commit ops => exact mirrored.txn ops
    | abort ops =>
      obtain ⟨ti,left,alike⟩ := ((Writer.Opened.new mirrored.settled).runOps ops).abort
      rw [KvStore.writerStep,left]
      exact mirrored.aborted alike

/-- Without compactions a restart builds an index that answers as the live one, whatever was written and taken back. -/
theorem restart_rebuilds_index (events : List WriterEvent) :
    let s := (KvStore.new Backend.empty).writers events
    let restored := (KvStore.new s.backend).restore.1
    s.kvIndex.SameAnswers restored.kvIndex ∧ restored.currentRev.main = s.currentRev.main :=
  (KvStore.Mirrored.new.writers events).restore

end Kave
