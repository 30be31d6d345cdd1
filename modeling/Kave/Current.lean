import Kave.Abort

/-! The map that the current revision of a store shows while nothing is compacted, and what a command makes of it and of
    the key sets of the leases. -/

namespace Kave

open TreeIndex

def KvStore.liveEntries (s : KvStore) : List Entry := ((s.range [] none 0 0).toOption.map (·.entries)).getD []

/-- The entry of a key, if it is alive. -/
def KvStore.entryOf (s : KvStore) (key : Bytes) : Option Entry := s.liveEntries.find? (·.key = key)

/-! ### The newest map -/

theorem History.last_txn (h : History) (ops : List Op) :
    (h.txn ops).last = (KvMap.applyOps (h.current + 1) h.last ops).1 := by
  have result := KvMap.applyOps_eq (h.current + 1) h.last ops
  rw [txn,result]
  cases KvMap.opsWrites (h.current + 1) ops h.last with
  | nil => rfl
  | cons w rest => exact if_pos rfl

theorem Refines.of_shows {s s' : KvStore} {lo : Int} {h : History} (refines_ : Refines lo s h) (settled : s'.Settled)
    (current : s'.currentRev = s.currentRev) (shows_ : ∀ r m, s.content.Shows r m → s'.content.Shows r m) : Refines lo s' h where
  settled := settled
  current := by rw [current]; exact refines_.current
  reach := refines_.reach
  agree := fun r low high => shows_ r _ (refines_.agree r low high)

theorem nil_le_bytes (key : Bytes) : [] ≤ key := not_lt.mp (List.not_lt_nil key)

theorem KvStore.newWriter_get (s : KvStore) (key : Bytes) :
    s.newWriter.get key 0 = (s.newWriter.range key none 0 1).toOption.bind (·.entries.head?) := by
  unfold Writer.get
  cases s.newWriter.range key none 0 1 <;> rfl

/-- The current revision shows the map, and reads of it are not refused. -/
structure KvStore.Holds (s : KvStore) (m : KvMap) : Prop where
  settled : s.Settled
  shows_ : s.content.Shows s.currentRev.main m
  readable : s.compactedMainRev ≤ s.currentRev.main

theorem History.mem_entries {m : KvMap} {p : Bytes → Bool} {e : Entry} :
    e ∈ entries m p ↔ ∃ item, m.find? e.key = some item ∧ item.entry e.key = e ∧ p e.key = true := by
  rw [entries,List.mem_map]
  constructor
  · rintro ⟨⟨key,item⟩,member,rfl⟩
    have found := SortedMap.mem_entries.mp member
    rw [SortedMap.find_filter,Option.filter_eq_some_iff] at found
    exact ⟨item,found.1,rfl,found.2⟩
  · rintro ⟨item,found,same,chosen⟩
    refine ⟨(e.key,item),SortedMap.mem_entries.mpr ?_,same⟩
    rw [SortedMap.find_filter,Option.filter_eq_some_iff]
    exact ⟨found,chosen⟩

namespace KvStore.Holds

variable {s : KvStore} {m : KvMap}

theorem shows_next (holds : s.Holds m) : s.content.Shows (s.currentRev.main + 1) m := by
  intro key
  change shown _ (s.kvIndex.look key (s.currentRev.main + 1)) = _
  rw [holds.settled.look_now key (by omega)]
  exact holds.shows_ key

/-- A read of the store is a read of its map. -/
theorem range (holds : s.Holds m) (key : Bytes) (endKey : Option Bytes) (limit : Int) :
    s.range key endKey 0 limit = .ok (History.read m (reads key endKey) s.currentRev.main limit) := by
  have nonneg := holds.settled.nonneg
  have readable := holds.readable
  have asked : askedRev s.currentRev.main 0 = s.currentRev.main := if_pos le_rfl
  have shown : Content.Shows ⟨s.kvIndex,s.backend.buckets.kv⟩ (askedRev s.currentRev.main 0) m := by
    rw [asked]
    exact holds.shows_
  rw [KvStore.range,Content.Shows.doRange shown,asked,if_neg (by omega),if_neg (by omega)]

theorem newWriter_range (holds : s.Holds m) (key : Bytes) (endKey : Option Bytes) (limit : Int) :
    s.newWriter.range key endKey 0 limit = .ok (History.read m (reads key endKey) (s.currentRev.main + 1) limit) := by
  have nonneg := holds.settled.nonneg
  have readable := holds.readable
  have asked : askedRev (s.currentRev.main + 1) (s.currentRev.main + 1) = s.currentRev.main + 1 := if_neg (by omega)
  have shown : Content.Shows ⟨s.kvIndex,s.backend.buckets.kv⟩ (askedRev (s.currentRev.main + 1) (s.currentRev.main + 1)) m := by
    rw [asked]
    exact holds.shows_next
  change doRange s.kvIndex s.backend.buckets (s.currentRev.main + 1) s.compactedMainRev (s.currentRev.main + 1) _ _ _ = _
  rw [Content.Shows.doRange shown,asked,if_neg (by omega),if_neg (by omega)]

/-- The live entries are those of the map. -/
theorem mem_liveEntries (holds : s.Holds m) {e : Entry} :
    e ∈ s.liveEntries ↔ ∃ item, m.find? e.key = some item ∧ item.entry e.key = e := by
  have all : ∀ k, reads [] none k = true := by simp [reads,selects,visits,nil_le_bytes]
  rw [liveEntries,holds.range]
  change e ∈ History.entries m (reads [] none) ↔ _
  rw [History.mem_entries]
  simp [all]

theorem entryOf_eq (holds : s.Holds m) (key : Bytes) : s.entryOf key = (m.find? key).map (·.entry key) := by
  rw [entryOf]
  cases found : m.find? key with
  | none =>
    rw [Option.map_none,List.find?_eq_none]
    intro e member same
    obtain ⟨item,here,-⟩ := holds.mem_liveEntries.mp member
    rw [of_decide_eq_true same,found] at here
    cases here
  | some item =>
    have member : item.entry key ∈ s.liveEntries := holds.mem_liveEntries.mpr ⟨item,found,rfl⟩
    cases first : s.liveEntries.find? (·.key = key) with
    | none =>
      exact absurd (List.find?_eq_none.mp first _ member) (by simp [Item.entry])
    | some e =>
      obtain ⟨item',here,same⟩ := holds.mem_liveEntries.mp (List.mem_of_find?_eq_some first)
      have named : e.key = key := of_decide_eq_true (List.find?_some first :)
      rw [named,found] at here
      cases here
      rw [named] at same
      rw [← same,Option.map_some]

theorem get_of_live (holds : s.Holds m) {key : Bytes} {item : Item} (found : m.find? key = some item) :
    s.newWriter.get key 0 = some (item.entry key) := by
  rw [newWriter_get,holds.newWriter_range]
  have least : ((m.filter fun k _ => reads key none k).entries).head? = some (key,item) := by
    refine SortedMap.head_entries ?_ fun k present => ?_
    · rw [SortedMap.find_filter,found]
      by_cases empty : key = [] <;> simp [reads,selects,visits,empty,Option.filter]
    · rw [SortedMap.isSome_find_filter,Bool.and_eq_true] at present
      have read := present.2
      by_cases empty : key = []
      · rw [empty]
        exact nil_le_bytes k
      · simp only [reads,selects,empty,reduceCtorEq,and_false,if_false,ne_eq,not_false_eq_true,and_true,if_true,
          decide_eq_true_eq] at read
        exact read.ge
  have one : ∀ l : List Entry, (cut 1 l).head? = l.head? := by
    intro l
    cases l <;> rfl
  change (cut 1 (History.entries m (reads key none))).head? = _
  rw [one,History.entries,List.head?_map,least]
  rfl

theorem mem_listed (holds : s.Holds m) {cmd : DeleteRequest} {e : Entry} :
    e ∈ s.listed cmd ↔ cmd.prevEntries = true ∧
      ∃ item, m.find? e.key = some item ∧ item.entry e.key = e ∧ reads cmd.key cmd.endKey e.key = true := by
  have read : TxWriter.range s.newWriter cmd.key cmd.endKey 0 0 =
      .ok (History.read m (reads cmd.key cmd.endKey) (s.currentRev.main + 1) 0) := holds.newWriter_range _ _ _
  rw [listed,Engine.prevEntries]
  by_cases asked : cmd.prevEntries = true
  · rw [if_pos asked,read]
    change e ∈ History.entries m (reads cmd.key cmd.endKey) ↔ _
    rw [History.mem_entries]
    simp [asked]
  · rw [if_neg asked]
    simp [Except.toOption,asked]

end KvStore.Holds

/-- The current revision shows the map, and no revision is compacted. -/
structure KvStore.Current (s : KvStore) (m : KvMap) : Prop where
  history : ∃ h, Refines 0 s h ∧ h.last = m
  whole : s.compactedMainRev = 0

namespace KvStore.Current

variable {s s' : KvStore} {m : KvMap}

theorem new : (KvStore.new Backend.empty).Current SortedMap.empty := ⟨⟨History.empty,refines_empty,rfl⟩,rfl⟩

theorem settled (current : s.Current m) : s.Settled := by
  obtain ⟨h,refines_,-⟩ := current.history
  exact refines_.settled

theorem same (current : s.Current m) (same : s.SameKv s') : s'.Current m := by
  obtain ⟨h,refines_,last⟩ := current.history
  refine ⟨⟨h,refines_.of_shows ⟨?_,?_⟩ same.current fun r m shown => ?_,last⟩,?_⟩
  · rw [same.current]
    exact refines_.settled.nonneg
  · rw [same.content,same.current]
    exact refines_.settled.before
  · rwa [same.content]
  · rw [same.compacted,current.whole]

theorem aborted (current : s.Current m) {ti : TreeIndex} (alike : ti.Alike s.kvIndex) :
    KvStore.Current { s with kvIndex := ti } m := by
  obtain ⟨h,refines_,last⟩ := current.history
  refine ⟨⟨h,refines_.of_shows ?_ rfl fun r m shown key => ?_,last⟩,current.whole⟩
  · refine refines_.settled.of_content rfl (alike.valid refines_.settled.before.valid) fun key bk member => ?_
    rwa [← alike.records]
  · change Kave.shown s.backend.buckets.kv (ti.look key r) = _
    rw [alike.look]
    exact shown key

/-- A transaction of the store is one of the map. -/
theorem txn (current : s.Current m) (ops : List Op) :
    (s.txn ops).Current (KvMap.applyOps (s.currentRev.main + 1) m ops).1 := by
  obtain ⟨h,refines_,rfl⟩ := current.history
  refine ⟨⟨h.txn ops,refines_.txn ops,?_⟩,?_⟩
  · rw [h.last_txn,refines_.current]
  · rw [(refines_.settled.txn refines_.shows_next.domain ops).compacted,current.whole]

theorem holds (current : s.Current m) : s.Holds m where
  settled := current.settled
  shows_ := by
    obtain ⟨h,refines_,rfl⟩ := current.history
    rw [refines_.current]
    exact refines_.agree _ refines_.reach le_rfl
  readable := by
    rw [current.whole]
    exact current.settled.nonneg

end KvStore.Current

theorem reads_of_rangeSelects {key : Bytes} {endKey : Option Bytes} {k : Bytes} (selected : rangeSelects key endKey k = true) :
    reads key endKey k = true := by
  cases endKey with
  | none =>
    obtain rfl : k = key := by simpa [rangeSelects] using selected
    by_cases empty : k = [] <;> simp [reads,selects,visits,empty]
  | some stop =>
    by_cases all : key = [0] ∧ some stop = some [0]
    · simp [reads,all,selects,visits,nil_le_bytes]
    · rw [reads,if_neg all]
      simpa [selects,rangeSelects] using selected

/-! ### The last write of a key -/

/-- What a transaction does to the key: nothing, or the lease its last write leaves, if it leaves the key. -/
def Op.leaves (key : Bytes) (before : Option (Option Int64)) : Op → Option (Option Int64)
  | .put k _ leaseID => if k = key then some (some leaseID) else before
  | .deleteKey k => if k = key then some none else before
  | .deleteRange k endKey => if rangeSelects k endKey key then some none else before

def lastWrite (key : Bytes) (ops : List Op) : Option (Option Int64) := ops.foldl (Op.leaves key) none

theorem lastWrite_snoc (key : Bytes) (ops : List Op) (op : Op) : lastWrite key (ops ++ [op]) = op.leaves key (lastWrite key ops) := by
  rw [lastWrite,List.foldl_append]
  rfl

/-- What a transaction makes of a key is decided by the last write of the key. -/
theorem KvMap.find_applyOps (rev : Int) (m : KvMap) (ops : List Op) (key : Bytes) :
    match lastWrite key ops with
    | none => (applyOps rev m ops).1.find? key = m.find? key
    | some none => (applyOps rev m ops).1.find? key = none
    | some (some id) => ∃ item, (applyOps rev m ops).1.find? key = some item ∧ item.leaseID = id := by
  induction ops using List.reverseRecOn with
  | nil => rfl
  | append_singleton ops op ih =>
    have step : applyOps rev m (ops ++ [op]) = applyOp rev (applyOps rev m ops) op := by
      rw [applyOps,List.foldl_append]
      rfl
    rw [step,lastWrite_snoc]
    cases op with
    | put k value leaseID =>
      simp only [applyOp,Op.leaves,KvMap.put,SortedMap.find_insert]
      by_cases same : k = key
      · simp [same,putItem]
      · simpa [same,Ne.symm same] using ih
    | deleteKey k =>
      simp only [applyOp,Op.leaves,SortedMap.find_erase]
      by_cases same : k = key
      · simp [same]
      · simpa [same,Ne.symm same] using ih
    | deleteRange k endKey =>
      simp only [applyOp,Op.leaves,SortedMap.find_filter]
      cases selected : rangeSelects k endKey key with
      | true => simp
      | false =>
        have whole : ∀ o : Option Item, (o.filter fun _ => !false) = o := fun o => by cases o <;> rfl
        simp only [whole]
        simpa using ih

theorem KvMap.applyOps_deleteKeys_eq (rev : Int) (m : KvMap) (keys : List Bytes) :
    applyOps rev m (keys.map .deleteKey) = (keys.foldl SortedMap.erase m,keys.any fun key => (m.find? key).isSome) := by
  have general : ∀ (keys : List Bytes) (m : KvMap) (changed : Bool), (keys.map Op.deleteKey).foldl (applyOp rev) (m,changed) =
      (keys.foldl SortedMap.erase m,changed || keys.any fun key => (m.find? key).isSome) := by
    intro keys
    induction keys with
    | nil => exact fun m changed => by simp
    | cons key rest ih =>
      intro m changed
      rw [List.map_cons,List.foldl_cons,applyOp,ih,List.any_cons,List.foldl_cons]
      refine Prod.ext rfl ?_
      cases found : m.find? key with
      | some item => simp
      | none =>
        have same : m.erase key = m := by
          refine SortedMap.ext_find fun k => ?_
          rw [SortedMap.find_erase]
          split
          next here => rw [here,found]
          next => rfl
        simp [same]
  exact general keys m false

theorem KvMap.applyOps_deleteKeys (rev : Int) (m : KvMap) (keys : List Bytes) :
    (applyOps rev m (keys.map .deleteKey)).1 = keys.foldl SortedMap.erase m := congrArg Prod.fst (applyOps_deleteKeys_eq rev m keys)

theorem put_mem_of_lastWrite {key : Bytes} {ops : List Op} {id : Int64} (last : lastWrite key ops = some (some id)) :
    ∃ value, Op.put key value id ∈ ops := by
  induction ops using List.reverseRecOn with
  | nil => cases last
  | append_singleton ops op ih =>
    rw [lastWrite_snoc] at last
    have before : lastWrite key ops = some (some id) → ∃ value, Op.put key value id ∈ ops ++ [op] := by
      intro last
      obtain ⟨value,member⟩ := ih last
      exact ⟨value,List.mem_append_left _ member⟩
    cases op with
    | put k value leaseID =>
      rw [Op.leaves] at last
      split at last
      next same =>
        cases last
        exact ⟨value,by simp [same]⟩
      next => exact before last
    | deleteKey k =>
      rw [Op.leaves] at last
      split at last
      · cases last
      · exact before last
    | deleteRange k endKey =>
      rw [Op.leaves] at last
      split at last
      · cases last
      · exact before last

end Kave
