import Kave.Journal

/-! The changes a store has committed, in the order of their revisions, and what index and bucket still know of them. -/

namespace Kave

open TreeIndex KeyIndex

/-- The changes of a store: a list of records by revision, with an entry for everything that index and bucket know. -/
structure KvStore.Logged (s : KvStore) (log : List (KvBucketKey × Entry)) : Prop extends s.Orderly where
  sorted : log.Pairwise fun a b => a.1.rev < b.1.rev
  dated : ∀ e ∈ log, e.2.modRev = e.1.rev.main
  past : ∀ e ∈ log, 0 < e.1.rev.main ∧ e.1.rev.main ≤ s.currentRev.main
  known : ∀ bk entry, s.backend.buckets.kv.find? bk = some entry → (bk,entry) ∈ log
  listed : ∀ key, ∀ bk ∈ s.kvIndex.records key, ∃ entry, (bk,entry) ∈ log ∧ entry.key = key

/-- Index and bucket still know every change. -/
structure KvStore.Complete (s : KvStore) (log : List (KvBucketKey × Entry)) : Prop where
  index : ∀ e ∈ log, e.1 ∈ s.kvIndex.records e.2.key
  kv : ∀ e ∈ log, s.backend.buckets.kv.find? e.1 = some e.2

/-! ### Listing revisions -/

namespace TreeIndex

theorem revisionsRange_eq (ti : TreeIndex) (key : Bytes) (endKey : Option Bytes) (startRev endRev : Int) :
    ti.revisionsRange key endKey startRev endRev =
      (ti.filter fun k _ => selects key endKey k).entries.flatMap fun e => getRevs e.2 startRev endRev := by
  rw [revisionsRange]
  by_cases empty : startRev > endRev
  · have none : ∀ ki, getRevs ki startRev endRev = [] := by
      intro ki
      refine List.filter_eq_nil_iff.mpr fun bk _ => ?_
      simp only [Bool.and_eq_true,decide_eq_true_eq]
      omega
    rw [if_pos empty]
    simp [none]
  · rw [if_neg empty]
    by_cases point : endKey = none ∧ key ≠ []
    · have one : ∀ k, selects key endKey k = true ↔ k = key := by simp [selects,point]
      rw [if_pos point,SortedMap.entries_filter_key _ one]
      cases ti.find? key <;> simp
    · have visited : (fun (k : Bytes) (_ : KeyIndex) => selects key endKey k) = fun k _ => visits key endKey k := by
        funext k _
        rw [selects,if_neg point]
      rw [if_neg point,unsafeVisit_eq,visited,List.flatMap_map]

theorem mem_revisionsRange {ti : TreeIndex} {key : Bytes} {endKey : Option Bytes} {startRev endRev : Int} {bk : KvBucketKey} :
    bk ∈ ti.revisionsRange key endKey startRev endRev ↔
      ∃ k, selects key endKey k = true ∧ bk ∈ ti.records k ∧ startRev < bk.rev.main ∧ bk.rev.main < endRev := by
  rw [revisionsRange_eq,List.mem_flatMap]
  simp only [getRevs,List.mem_filter,Bool.and_eq_true,decide_eq_true_eq]
  constructor
  · rintro ⟨e,member,inside,bounds⟩
    have found := SortedMap.mem_entries.mp (show (e.1,e.2) ∈ _ from member)
    rw [SortedMap.find_filter] at found
    obtain ⟨here,selected⟩ := Option.filter_eq_some_iff.mp found
    exact ⟨e.1,selected,by simpa [records,here] using inside,bounds⟩
  · rintro ⟨k,selected,inside,bounds⟩
    rw [records] at inside
    cases here : ti.find? k with
    | none => simp [here] at inside
    | some ki =>
      refine ⟨(k,ki),SortedMap.mem_entries.mpr ?_,by simpa [here] using inside,bounds⟩
      rw [SortedMap.find_filter,here]
      simp [selected]

theorem Valid.revisionsRange_ordered {ti : TreeIndex} (valid : ti.Valid) (key : Bytes) (endKey : Option Bytes) (startRev endRev : Int) :
    (ti.revisionsRange key endKey startRev endRev).Pairwise fun a b =>
      ∃ k k', a ∈ ti.records k ∧ b ∈ ti.records k' ∧ (k < k' ∨ k = k' ∧ a.rev < b.rev) := by
  have item : ∀ e ∈ (ti.filter fun k _ => selects key endKey k).entries, ti.find? e.1 = some e.2 := by
    intro e member
    have found := SortedMap.mem_entries.mp (show (e.1,e.2) ∈ _ from member)
    rw [SortedMap.find_filter] at found
    exact (Option.filter_eq_some_iff.mp found).1
  have inside : ∀ e ∈ (ti.filter fun k _ => selects key endKey k).entries, ∀ bk ∈ getRevs e.2 startRev endRev,
      bk ∈ ti.records e.1 := by
    intro e member bk listed
    simpa [records,item e member] using (List.mem_filter.mp listed).1
  rw [revisionsRange_eq,List.pairwise_flatMap]
  refine ⟨fun e member => ?_,?_⟩
  · have sorted := valid.records_sorted e.1
    rw [records,item e member] at sorted
    refine (sorted.filter _).imp_of_mem fun {a b} first second less => ?_
    exact ⟨e.1,e.1,inside e member a first,inside e member b second,Or.inr ⟨rfl,less⟩⟩
  · refine (SortedMap.sorted _).imp_of_mem fun {a b} first second less x left y right => ?_
    exact ⟨a.1,b.1,inside a first x left,inside b second y right,Or.inl less⟩

end TreeIndex

/-! ### Transactions -/

def Write.key : Write → Bytes
  | .put key _ _ | .delete key => key

def Write.Recorded : Write → KvBucketKey × Entry → Prop
  | .put key value _, e => e.1.tombstone = false ∧ e.2.key = key ∧ e.2.value = some (value.getD [])
  | .delete key, e => e.1.tombstone = true ∧ e.2.key = key ∧ e.2.value = some []

theorem WriteStep.recorded {next : Int} {n : Nat} {a b : Content} {w : Write} (step : WriteStep next n a w b) :
    ∃ bk entry, bk.rev = ⟨next,n⟩ ∧ a.index.Wrote b.index w.key bk ∧ b.kv = a.kv.insert bk entry ∧ w.Recorded (bk,entry) := by
  cases step with
  | put wrote => exact ⟨_,_,rfl,wrote,rfl,rfl,rfl,rfl⟩
  | delete alive wrote => exact ⟨_,_,rfl,wrote,rfl,rfl,rfl,rfl⟩

theorem Write.Recorded.named {w : Write} {e : KvBucketKey × Entry} (recorded : w.Recorded e) : e.2.key = w.key := by
  cases w <;> exact recorded.2.1

theorem Chain.appends {next : Int} {n : Nat} {a b : Content} {ws : List Write} (positive : 0 < next)
    (chain : Chain next n a ws b) (stamped : Stamped a.kv ⟨next,n⟩) :
    ∃ log, b.kv.entries = a.kv.entries ++ log ∧ List.Forall₂ Write.Recorded ws log ∧
      ∀ key, b.index.records key = a.index.records key ++ (log.filter (·.2.key = key)).map (·.1) := by
  induction chain with
  | nil => exact ⟨[],by simp,.nil,by simp⟩
  | @cons n a b c w ws step rest ih =>
    obtain ⟨log,entries,recorded,records⟩ := ih (step.stamped positive stamped)
    obtain ⟨bk,entry,rev,wrote,kv,here⟩ := step.recorded
    have behind : ∀ e ∈ a.kv.entries, e.1 < bk := by
      intro e member
      have present : (a.kv.find? e.1).isSome := by rw [SortedMap.mem_entries.mp member]; rfl
      refine KvBucketKey.lt_iff.mpr (Or.inl ?_)
      rw [rev]
      exact (stamped.early e.1 present).2.2
    refine ⟨(bk,entry) :: log,?_,.cons here recorded,fun k => ?_⟩
    · rw [entries,kv,SortedMap.entries_insert_of_lt behind,List.append_assoc]
      rfl
    · rw [records,List.filter_cons]
      have named : entry.key = w.key := here.named
      by_cases same : w.key = k
      · subst same
        simp [wrote.records,named]
      · rw [wrote.records_other (Ne.symm same)]
        simp [named,same]

/-- The records a transaction adds. -/
def KvStore.newRecords (s s' : KvStore) : List (KvBucketKey × Entry) :=
  s'.backend.buckets.kv.entries.filter (s.currentRev.main < ·.1.rev.main)

theorem KvStore.Orderly.main_le {s : KvStore} (orderly : s.Orderly) {bk : KvBucketKey}
    (present : (s.backend.buckets.kv.find? bk).isSome) : 0 < bk.rev.main ∧ bk.rev.main ≤ s.currentRev.main := by
  obtain ⟨main,sub,less⟩ := orderly.stamped.early bk present
  rcases Revision.lt_iff.mp less with below | ⟨-,below⟩ <;> simp only at below <;> omega

theorem KvStore.Appended.newRecords {s s' : KvStore} {new : List (KvBucketKey × Entry)} (orderly : s.Orderly)
    (appended : s.Appended s' new) : s.newRecords s' = new := by
  have old : s.backend.buckets.kv.entries.filter (s.currentRev.main < ·.1.rev.main) = [] := by
    refine List.filter_eq_nil_iff.mpr fun e member => ?_
    have present : (s.backend.buckets.kv.find? e.1).isSome := by rw [SortedMap.mem_entries.mp member]; rfl
    simpa using (orderly.main_le present).2
  have kept : new.filter (s.currentRev.main < ·.1.rev.main) = new :=
    List.filter_eq_self.mpr fun e member => by simp [appended.main e member]
  rw [KvStore.newRecords,appended.entries,List.filter_append,old,kept]
  rfl

/-- What a transaction passes to the observers of commits; nothing if it fails. -/
def KvStore.txnChanges (s : KvStore) (ops : List Op) : Option (List Entry) :=
  match Writer.runOps ops s.newWriter with
  | (w,none) => some w.changes
  | (_,some _) => none

/-- A committed transaction: its changes are the records it adds to index and bucket. -/
structure TxnDone (s : KvStore) (ops : List Op) (changes : List Entry) : Prop where
  announced : s.txnChanges ops = some changes
  appended : s.Appended (s.txn ops) (s.newRecords (s.txn ops))
  changes : (s.newRecords (s.txn ops)).map (·.2) = changes.map Entry.stored
  revs : (s.newRecords (s.txn ops)).Pairwise fun a b => a.1.rev < b.1.rev
  records : ∀ key, (s.txn ops).kvIndex.records key =
    s.kvIndex.records key ++ ((s.newRecords (s.txn ops)).filter (·.2.key = key)).map (·.1)

theorem KvStore.Orderly.txnDone {s : KvStore} (orderly : s.Orderly) (ops : List Op) : ∃ changes, TxnDone s ops changes := by
  obtain ⟨m,domain⟩ := s.content.exists_domain (s.currentRev.main + 1)
  obtain ⟨w,more,run,-⟩ := Writer.runOps_spec ops orderly.settled.fresh domain
  obtain ⟨new,journaled⟩ := (Writer.Journaled.new s).runOps orderly.stamped ops run
  have ended : s.txn ops = w.endTx := by rw [KvStore.txn,run]
  have appended : s.Appended (s.txn ops) new := by rw [ended]; exact journaled.endTx
  have positive : 0 < s.currentRev.main + 1 := by have := orderly.settled.nonneg; omega
  obtain ⟨log,entries,-,records⟩ := (orderly.settled.txn domain ops).chain.appends positive orderly.stamped
  have same : log = new := List.append_cancel_left (entries.symm.trans appended.entries)
  subst same
  refine ⟨w.changes,?_,?_,?_,?_,?_⟩
  · rw [txnChanges,run]
  all_goals rw [appended.newRecords orderly]
  · exact appended
  · exact journaled.changes
  · have revs : (log.map (·.1.rev)).Pairwise (· < ·) := by
      rw [journaled.revs,List.pairwise_map]
      refine List.Pairwise.imp (fun {i j} less => ?_) List.pairwise_lt_range
      exact Revision.lt_iff.mpr (Or.inr ⟨rfl,Int.ofNat_lt.mpr less⟩)
    exact List.pairwise_map.mp revs
  · exact records

namespace KvStore.Logged

variable {s s' : KvStore} {log : List (KvBucketKey × Entry)}

theorem empty : (KvStore.new Backend.empty).Logged [] :=
  ⟨.new,.nil,by simp,by simp,fun bk entry found => by simp [KvStore.new,Backend.empty,Buckets.empty] at found,
    fun key bk member => by simp [KvStore.new,TreeIndex.records] at member⟩

theorem eq_of_rev (logged : s.Logged log) {e e' : KvBucketKey × Entry} (first : e ∈ log) (second : e' ∈ log)
    (same : e.1.rev = e'.1.rev) : e = e' := by
  have distinct : (log.map (·.1.rev)).Nodup := List.pairwise_map.mpr (logged.sorted.imp fun less => less.ne)
  exact List.inj_on_of_nodup_map distinct first second same

theorem key_eq (logged : s.Logged log) {e : KvBucketKey × Entry} (member : e ∈ log) {key : Bytes}
    (record : e.1 ∈ s.kvIndex.records key) : e.2.key = key := by
  obtain ⟨entry,known,is⟩ := logged.listed key e.1 record
  rw [logged.eq_of_rev member known rfl]
  exact is

theorem txn (logged : s.Logged log) {ops : List Op} {changes : List Entry} (done : TxnDone s ops changes) :
    (s.txn ops).Logged (log ++ s.newRecords (s.txn ops)) where
  toOrderly := logged.toOrderly.txn ops
  sorted := by
    refine List.pairwise_append.mpr ⟨logged.sorted,done.revs,fun a old b new => Revision.lt_of_main_lt ?_⟩
    rw [done.appended.main b new]
    have := (logged.past a old).2
    omega
  dated e member := by
    rcases List.mem_append.mp member with old | new
    · exact logged.dated e old
    · rw [done.appended.dated e new,done.appended.main e new]
  past e member := by
    have current := done.appended.current
    have nonneg := logged.settled.nonneg
    rcases List.mem_append.mp member with old | new
    · have before := logged.past e old
      split at current <;> omega
    · have main := done.appended.main e new
      rw [if_neg (List.ne_nil_of_mem new)] at current
      omega
  known bk entry found := by
    have member := SortedMap.mem_entries.mpr found
    rw [done.appended.entries] at member
    rcases List.mem_append.mp member with old | new
    · exact List.mem_append_left _ (logged.known bk entry (SortedMap.mem_entries.mp old))
    · exact List.mem_append_right _ new
  listed key bk member := by
    rw [done.records] at member
    rcases List.mem_append.mp member with old | new
    · obtain ⟨entry,inside,named⟩ := logged.listed key bk old
      exact ⟨entry,List.mem_append_left _ inside,named⟩
    · obtain ⟨e,inside,rfl⟩ := List.mem_map.mp new
      obtain ⟨added,named⟩ := List.mem_filter.mp inside
      exact ⟨e.2,List.mem_append_right _ added,by simpa using named⟩

theorem stepped (logged : s.Logged log) {job : Job} {next : Option Job} (stepped : Job.Stepped job s s' next) :
    s'.Logged log := by
  refine ⟨stepped.orderly logged.toOrderly,logged.sorted,logged.dated,?_,?_,?_⟩
  · rw [stepped.currentRev]
    exact logged.past
  · cases stepped with
    | clone | indexed | failed | visit | store => exact logged.known
    | batch at_ pruned =>
      intro bk entry found
      rcases pruned bk with same | ⟨gone,-⟩
      · exact logged.known bk entry (same.symm.trans found)
      · exact absurd (gone.symm.trans found) (by simp)
  · cases stepped with
    | clone | indexed | failed | batch | store => exact logged.listed
    | visit at_ visited => exact fun key bk member => logged.listed key bk (visited.records_subset member)

theorem compact (logged : s.Logged log) (rev : Int) : (s.compact rev).1.Logged log := by
  have orderly := logged.toOrderly.compact rev
  rcases s.compact_eq rev with ⟨-,run⟩ | ⟨-,e,run⟩
  · rw [run] at orderly ⊢
    exact ⟨orderly,logged.sorted,logged.dated,logged.past,logged.known,logged.listed⟩
  · rw [run]
    exact logged

end KvStore.Logged

theorem KvStore.Complete.txn {s : KvStore} {log : List (KvBucketKey × Entry)} (complete : s.Complete log) {ops : List Op}
    {changes : List Entry} (done : TxnDone s ops changes) : (s.txn ops).Complete (log ++ s.newRecords (s.txn ops)) where
  index e member := by
    rw [done.records]
    rcases List.mem_append.mp member with old | new
    · exact List.mem_append_left _ (complete.index e old)
    · refine List.mem_append_right _ (List.mem_map_of_mem (List.mem_filter.mpr ⟨new,?_⟩))
      simp
  kv e member := by
    refine SortedMap.mem_entries.mp ?_
    rw [done.appended.entries]
    rcases List.mem_append.mp member with old | new
    · exact List.mem_append_left _ (SortedMap.mem_entries.mpr (complete.kv e old))
    · exact List.mem_append_right _ new

/-! ### The index against the bucket -/

theorem recordsIn_append {kv kv' : KvBucket} {log : List (KvBucketKey × Entry)} (entries : kv'.entries = kv.entries ++ log) (key : Bytes) :
    recordsIn kv' key = recordsIn kv key ++ (log.filter (·.2.key = key)).map (·.1) := by
  rw [recordsIn,recordsIn,entries,List.filter_append,List.map_append]

/-- The index lists for every key the records of the bucket, in their order. -/
structure KvStore.Indexed (s : KvStore) : Prop extends s.Orderly where
  records : ∀ key, s.kvIndex.records key = recordsIn s.backend.buckets.kv key

namespace KvStore.Indexed

variable {s : KvStore}

theorem txn (indexed : s.Indexed) (ops : List Op) : (s.txn ops).Indexed := by
  obtain ⟨changes,done⟩ := indexed.toOrderly.txnDone ops
  refine ⟨indexed.toOrderly.txn ops,fun key => ?_⟩
  rw [done.records,recordsIn_append done.appended.entries,indexed.records]

theorem writers (indexed : s.Indexed) (events : List WriterEvent) : (s.writers events).Indexed := by
  induction events generalizing s with
  | nil => exact indexed
  | cons event rest ih =>
    refine ih ?_
    cases event with
    | commit ops => exact indexed.txn ops
    | abort ops =>
      obtain ⟨ti,left,alike⟩ := ((Writer.Opened.new indexed.settled).runOps ops).abort
      rw [KvStore.writerStep,left]
      exact ⟨indexed.toOrderly.aborted alike,fun key => (alike.records key).trans (indexed.records key)⟩

theorem key_eq (indexed : s.Indexed) {key : Bytes} {bk : KvBucketKey} {entry : Entry} (listed : bk ∈ s.kvIndex.records key)
    (found : s.backend.buckets.kv.find? bk = some entry) : entry.key = key := by
  rw [indexed.records] at listed
  obtain ⟨entry',found',named⟩ := mem_recordsIn.mp listed
  rw [found] at found'
  cases found'
  exact named

end KvStore.Indexed

/-- Without compactions, `RevisionsRange` lists the records of the bucket that are of a key in the range and between the
    revisions, each once and with its mark, and those of one key by revision. -/
theorem revisions_range_lists_log (events : List WriterEvent) (key : Bytes) (endKey : Option Bytes) (startRev endRev : Int) :
    let s := (KvStore.new Backend.empty).writers events
    let listed := s.kvIndex.revisionsRange key endKey startRev endRev
    (∀ bk, bk ∈ listed ↔ ∃ entry, s.backend.buckets.kv.find? bk = some entry ∧ selects key endKey entry.key = true ∧
      startRev < bk.rev.main ∧ bk.rev.main < endRev) ∧
    listed.Nodup ∧
    listed.Pairwise fun a b => ∀ first second, s.backend.buckets.kv.find? a = some first → s.backend.buckets.kv.find? b = some second →
      first.key = second.key → a.rev < b.rev := by
  intro s listed
  have indexed : s.Indexed := KvStore.Indexed.writers ⟨.new,fun _ => rfl⟩ events
  have ordered := indexed.settled.before.valid.revisionsRange_ordered key endKey startRev endRev
  have member : ∀ bk, bk ∈ listed ↔ ∃ entry, s.backend.buckets.kv.find? bk = some entry ∧ selects key endKey entry.key = true ∧
      startRev < bk.rev.main ∧ bk.rev.main < endRev := by
    intro bk
    rw [mem_revisionsRange]
    constructor
    · rintro ⟨k,selected,inside,bounds⟩
      rw [indexed.records] at inside
      obtain ⟨entry,found,rfl⟩ := mem_recordsIn.mp inside
      exact ⟨entry,found,selected,bounds⟩
    · rintro ⟨entry,found,selected,bounds⟩
      refine ⟨entry.key,selected,?_,bounds⟩
      rw [indexed.records]
      exact mem_recordsIn.mpr ⟨entry,found,rfl⟩
  refine ⟨member,ordered.imp_of_mem ?_,ordered.imp_of_mem ?_⟩
  · rintro a b inA - ⟨k,k',listedA,listedB,less⟩ rfl
    obtain ⟨entry,found,-⟩ := (member a).mp inA
    have same : k = k' := (indexed.key_eq listedA found).symm.trans (indexed.key_eq listedB found)
    rcases less with less | ⟨-,less⟩
    · exact absurd same less.ne
    · exact absurd less (lt_irrefl _)
  · rintro a b - - ⟨k,k',listedA,listedB,less⟩ first second foundA foundB same
    rw [indexed.key_eq listedA foundA, indexed.key_eq listedB foundB] at same
    rcases less with less | ⟨-,less⟩
    · exact absurd same less.ne
    · exact less

/-! ### Records are written once -/

/-- Along every run of a replica, restarts included, a revision of the past names at most one record. -/
theorem revisions_name_records (opts : OtOptions) (nodeID : String) (events : List ReplicaEvent) :
    let s := ((Replica.new opts nodeID).run events).fsm.store
    (∀ bk, (s.backend.buckets.kv.find? bk).isSome → 0 < bk.rev.main ∧ bk.rev.main ≤ s.currentRev.main) ∧
      ∀ bk bk', (s.backend.buckets.kv.find? bk).isSome → (s.backend.buckets.kv.find? bk').isSome → bk.rev = bk'.rev → bk = bk' := by
  intro s
  have orderly : s.Orderly := Replica.run_orderly opts nodeID events
  exact ⟨fun _ => orderly.main_le,orderly.stamped.distinct⟩

/-- Every record of the bucket is as it was, gone, or of a later transaction. -/
def KvStore.WritesOnce (s s' : KvStore) : Prop := ∀ bk, s'.backend.buckets.kv.find? bk = s.backend.buckets.kv.find? bk ∨
  s'.backend.buckets.kv.find? bk = none ∨ s.backend.buckets.kv.find? bk = none ∧ s.currentRev.main < bk.rev.main

theorem Sys.step_writesOnce {s : Sys} (orderly : s.store.Orderly) (event : SysEvent) : (s.step event).store.Orderly ∧
    s.store.currentRev.main ≤ (s.step event).store.currentRev.main ∧ s.store.WritesOnce (s.step event).store := by
  cases event with
  | txn ops =>
    obtain ⟨changes,done⟩ := orderly.txnDone ops
    refine ⟨orderly.txn ops,?_,fun bk => ?_⟩
    · refine le_of_le_of_eq ?_ done.appended.current.symm
      split <;> omega
    cases found : (s.store.txn ops).backend.buckets.kv.find? bk with
    | none => exact Or.inr (Or.inl found)
    | some entry =>
      have member := SortedMap.mem_entries.mpr found
      rw [done.appended.entries] at member
      rcases List.mem_append.mp member with old | new
      · exact Or.inl (found.trans (SortedMap.mem_entries.mp old).symm)
      · have later : s.store.currentRev.main < bk.rev.main := (Int.lt_succ _).trans_eq (done.appended.main _ new).symm
        refine Or.inr (Or.inr ⟨Option.not_isSome_iff_eq_none.mp fun present => ?_,later⟩)
        exact later.not_ge (orderly.main_le present).2
  | compact rev =>
    have orderly' := orderly.compact rev
    simp only [Sys.step,Sys.compact]
    rcases s.store.compact_eq rev with ⟨-,run⟩ | ⟨-,e,run⟩ <;> rw [run] at orderly' ⊢ <;>
      exact ⟨orderly',le_rfl,fun _ => Or.inl rfl⟩
  | advance i =>
    rw [Sys.step,Sys.advance]
    split
    · exact ⟨orderly,le_rfl,fun _ => Or.inl rfl⟩
    next job at_ =>
      have stepped := job.step_cases orderly.settled.before.valid
      refine ⟨stepped.orderly orderly,(congrArg Revision.main stepped.currentRev).ge,?_⟩
      change s.store.WritesOnce (job.step s.store).1
      generalize job.step s.store = next at stepped ⊢
      obtain ⟨s',left⟩ := next
      cases stepped with
      | batch at_ pruned => exact fun bk => (pruned bk).imp_right fun gone => Or.inl gone.1
      | clone | indexed | failed | visit | store => exact fun _ => Or.inl rfl

theorem Sys.run_writesOnce {s : Sys} (orderly : s.store.Orderly) (events : List SysEvent) : (s.run events).store.Orderly ∧
    s.store.currentRev.main ≤ (s.run events).store.currentRev.main ∧ s.store.WritesOnce (s.run events).store := by
  induction events generalizing s with
  | nil => exact ⟨orderly,le_rfl,fun _ => Or.inl rfl⟩
  | cons event rest ih =>
    obtain ⟨orderly',le,once⟩ := step_writesOnce orderly event
    obtain ⟨final,le',once'⟩ := ih orderly'
    refine ⟨final,le.trans le',fun bk => ?_⟩
    rcases once' bk with same | gone | ⟨-,later⟩
    · exact (once bk).imp same.trans (Or.imp_left same.trans)
    · exact Or.inr (Or.inl gone)
    · have new := le.trans_lt later
      exact Or.inr (Or.inr ⟨Option.not_isSome_iff_eq_none.mp fun present => new.not_ge (orderly.main_le present).2,new⟩)

/-- From one point of a run to a later one no record is changed, none that is gone comes back, and the new ones are of later
    transactions. -/
theorem records_are_written_once (before after : List SysEvent) :
    (Sys.new.run before).store.WritesOnce (Sys.new.run (before ++ after)).store := by
  have start : (Sys.new.run before).store.Orderly := (Sys.run_writesOnce .new before).1
  rw [Sys.run_append]
  exact (Sys.run_writesOnce start after).2.2

end Kave
