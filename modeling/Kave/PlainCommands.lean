import Kave.OwnReads

/-! The plain commands. A deletion finds its keys in another way than the read that lists them, and a command does more
    with flags and leases than the same operation inside a transaction. -/

namespace Kave

open TreeIndex

/-! ### Commands on a store that holds a map -/

namespace KvStore.Holds

variable {s : KvStore} {m : KvMap}

theorem alive (holds : s.Holds m) (key : Bytes) : s.alive key = (m.find? key).isSome := by
  have here := congrArg Option.isSome (holds.shows_ key)
  rw [shown,wanted,Option.isSome_map,Option.isSome_map] at here
  rw [KvStore.alive,unsafeGet_toOption]
  exact here

theorem txn (holds : s.Holds m) (ops : List Op) : (s.txn ops).Holds (KvMap.applyOps (s.currentRev.main + 1) m ops).1 := by
  have committed := holds.settled.txn holds.shows_next.domain ops
  have nonneg := holds.settled.nonneg
  have positive : 0 < s.currentRev.main + 1 := by omega
  have readable := holds.readable
  have shows_ := committed.chain.shows_now positive holds.settled.fresh.before holds.shows_next
  have current := committed.current
  refine ⟨committed.settled holds.settled,?_,?_⟩
  · rw [KvMap.applyOps_eq]
    have settled := committed.settled holds.settled
    intro key
    change shown _ ((s.txn ops).kvIndex.look key _) = _
    have later : (s.txn ops).currentRev.main ≤ s.currentRev.main + 1 := by
      rw [current]
      split <;> omega
    rw [← settled.look_now key later]
    exact shows_ key
  · rw [committed.compacted,current]
    split <;> omega

theorem get_eq (holds : s.Holds m) {key : Bytes} (nonempty : key ≠ []) :
    s.newWriter.get key 0 = (m.find? key).map (·.entry key) := by
  cases found : m.find? key with
  | some item => exact holds.get_of_live found
  | none =>
    have nothing : History.entries m (reads key none) = [] := by
      refine List.eq_nil_iff_forall_not_mem.mpr fun e member => ?_
      obtain ⟨item,there,-,read⟩ := History.mem_entries.mp member
      have same : e.key = key := by simpa [reads,selects,nonempty] using read
      rw [same,found] at there
      cases there
    rw [newWriter_get,holds.newWriter_range]
    change (cut 1 (History.entries m (reads key none))).head? = none
    rw [nothing]
    rfl

theorem listed_eq (holds : s.Holds m) (cmd : DeleteRequest) :
    Engine.prevEntries s.newWriter cmd = .ok (s.listed cmd) ∧
      s.listed cmd = if cmd.prevEntries then History.entries m (reads cmd.key cmd.endKey) else [] := by
  have read : TxWriter.range s.newWriter cmd.key cmd.endKey 0 0 =
      .ok (History.read m (reads cmd.key cmd.endKey) (s.currentRev.main + 1) 0) := holds.newWriter_range _ _ _
  rw [listed,Engine.prevEntries,read]
  cases cmd.prevEntries <;> exact ⟨rfl,rfl⟩

end KvStore.Holds

namespace Engine

variable {A : Type} [LeaseAttacher A] {s : KvStore} {a a' : A} {w : Writer}

theorem applyWrite_of_ok {cmd : KvRequest} {result : KvResult}
    (run : applyRequest s.newWriter a cmd = ((w,a'),.ok result)) :
    applyWrite s a cmd = ((s.txn (calls s.newWriter cmd),a'),.ok (result,headerRevision w)) := by
  have ended : applyWrite s a cmd = ((w.endTx,a'),.ok (result,headerRevision w)) := by
    rw [applyWrite,run]
  have same := applyWrite_eq_txn (congrArg Prod.snd ended)
  rw [ended] at same ⊢
  rw [← same]

theorem applyWrite_delete {m : KvMap} (holds : s.Holds m) (a : A) (cmd : DeleteRequest) :
    ∃ rev, applyWrite s a (.delete cmd) = ((s.txn [.deleteRange cmd.key cmd.endKey],detachAll a (s.listed cmd)),
      .ok (.delete ⟨(m.filter fun k _ => rangeSelects cmd.key cmd.endKey k).keys.length,s.listed cmd⟩,rev)) := by
  obtain ⟨w,deleted,extends_,-⟩ := s.newWriter.deleteRange_spec holds.settled.fresh holds.shows_next.domain cmd.key cmd.endKey
  have call : TxWriter.deleteRange s.newWriter cmd.key cmd.endKey = (w,none) := deleted
  have count : (TxWriter.changes w).length = (m.filter fun k _ => rangeSelects cmd.key cmd.endKey k).keys.length := by
    change w.changes.length = _
    rw [extends_.changes,List.length_append,List.length_map]
    exact Nat.zero_add _
  have run : applyRequest s.newWriter a (.delete cmd) = ((w,detachAll a (s.listed cmd)),
      .ok (.delete ⟨(m.filter fun k _ => rangeSelects cmd.key cmd.endKey k).keys.length,s.listed cmd⟩)) := by
    rw [applyRequest,applyDelete,(holds.listed_eq cmd).1]
    simp only [call,count]
    rfl
  exact ⟨_,applyWrite_of_ok run⟩

end Engine

/-! ### Deletions and reads -/

theorem reads_eq_rangeSelects {key : Bytes} {endKey : Option Bytes} (nonempty : key ≠ [])
    (ordinary : ¬(key = [0] ∧ endKey = some [0])) : reads key endKey = rangeSelects key endKey := by
  funext k
  rw [reads,if_neg ordinary,selects,rangeSelects]
  cases endKey <;> simp [nonempty]

/-- The pair of zero bytes reads everything and deletes nothing. -/
theorem zero_bytes_range (k : Bytes) : reads [0] (some [0]) k = true ∧ rangeSelects [0] (some [0]) k = false := by
  constructor
  · simp [reads,selects,visits,nil_le_bytes]
  · simp [rangeSelects,visits]

theorem LeaseManager.detached_iff {lm : LeaseManager} {entries : List Entry} {k : Bytes} :
    (∃ id, lm.attached id k = true ∧ (Engine.detachAll lm entries).attached id k = false) ↔
      ∃ e ∈ entries, e.key = k ∧ e.leaseID ≠ 0 ∧ lm.attached e.leaseID k = true := by
  simp only [attached_detachAll]
  constructor
  · rintro ⟨id,attached,gone⟩
    simp only [attached,Bool.true_and,Bool.not_eq_false',List.any_eq_true,decide_eq_true_eq] at gone
    obtain ⟨e,member,nonzero,rfl,rfl⟩ := gone
    exact ⟨e,member,rfl,nonzero,attached⟩
  · rintro ⟨e,member,rfl,nonzero,attached⟩
    refine ⟨e.leaseID,attached,?_⟩
    simp only [attached,Bool.true_and,Bool.not_eq_false',List.any_eq_true,decide_eq_true_eq]
    exact ⟨e,member,nonzero,rfl,rfl⟩

/-- What a deletion reports and does to the leases is about the entries that a read of its range returned before it. -/
structure DeletesSeen (f : Fsm) (cmd : DeleteRequest) (seen : List Entry) (after : KvStore) (lm : LeaseManager)
    (result : ResultDelete) : Prop where
  dead : ∀ k, f.store.alive k = true ∧ after.alive k = false ↔ ∃ e ∈ seen, e.key = k
  prevEntries : cmd.prevEntries = true → result.prevEntries = seen
  numDeleted : result.numDeleted = seen.length
  detached : ∀ k, (∃ id, f.lm.attached id k = true ∧ lm.attached id k = false) ↔
    ∃ e ∈ seen, e.key = k ∧ e.leaseID ≠ 0 ∧ f.lm.attached e.leaseID k = true

section
variable {f : Fsm} {m : KvMap} {cmd : DeleteRequest}

theorem KvStore.Holds.dead_iff {s : KvStore} (holds : s.Holds m) (key : Bytes) (endKey : Option Bytes) (k : Bytes) :
    s.alive k = true ∧ (s.txn [.deleteRange key endKey]).alive k = false ↔
      (m.find? k).isSome = true ∧ rangeSelects key endKey k = true := by
  have left : KvMap.applyOps (s.currentRev.main + 1) m [.deleteRange key endKey] =
      (m.filter fun k _ => !rangeSelects key endKey k,m.keys.any (rangeSelects key endKey)) := rfl
  rw [holds.alive,(holds.txn _).alive,left,SortedMap.isSome_find_filter]
  cases (m.find? k).isSome <;> simp

theorem deletesSeen_of_same (holds : f.store.Holds m) (same : ∀ k, (m.find? k).isSome = true → reads cmd.key cmd.endKey k =
      rangeSelects cmd.key cmd.endKey k)
    (lists : cmd.prevEntries = true ∨ ∀ e ∈ History.entries m (reads cmd.key cmd.endKey), e.leaseID ≠ 0 →
      f.lm.attached e.leaseID e.key = false) :
    DeletesSeen f cmd (History.entries m (reads cmd.key cmd.endKey)) (f.store.txn [.deleteRange cmd.key cmd.endKey])
      (Engine.detachAll f.lm (f.store.listed cmd))
      ⟨(m.filter fun k _ => rangeSelects cmd.key cmd.endKey k).keys.length,f.store.listed cmd⟩ where
  dead k := by
    rw [holds.dead_iff]
    constructor
    · rintro ⟨live,selected⟩
      obtain ⟨item,found⟩ := Option.isSome_iff_exists.mp live
      exact ⟨item.entry k,History.mem_entries.mpr ⟨item,found,rfl,reads_of_rangeSelects selected⟩,rfl⟩
    · rintro ⟨e,member,rfl⟩
      obtain ⟨item,found,-,read⟩ := History.mem_entries.mp member
      have live : (m.find? e.key).isSome = true := by rw [found]; rfl
      exact ⟨live,by rw [← same e.key live]; exact read⟩
  prevEntries asked := by rw [(holds.listed_eq cmd).2,if_pos asked]
  numDeleted := by
    have maps : (m.filter fun k _ => rangeSelects cmd.key cmd.endKey k).keys =
        (m.filter fun k _ => reads cmd.key cmd.endKey k).keys := by
      refine SortedMap.keys_eq fun k => ?_
      rw [SortedMap.isSome_find_filter,SortedMap.isSome_find_filter]
      cases live : (m.find? k).isSome with
      | false => rfl
      | true => rw [same k live]
    change (SortedMap.keys _).length = _
    rw [maps,SortedMap.keys,History.entries,List.length_map,List.length_map]
  detached k := by
    rw [LeaseManager.detached_iff,(holds.listed_eq cmd).2]
    cases asked : cmd.prevEntries with
    | true => rfl
    | false =>
      refine iff_of_false (by simp) ?_
      rintro ⟨e,member,rfl,nonzero,attached⟩
      have unattached := lists.resolve_left (by simp [asked])
      rw [unattached e member nonzero] at attached
      cases attached

end

/-- A key is put under a lease. -/
def attachedEvents : List ReplicaEvent :=
  [.apply (.plain 0) (.plain 1 (.lease (.grant 5 10))),.apply (.plain 0) (.plain 2 (.kv (.put (.plain [97] [1] 5))))]

/-- Both succeed or both fail, and leave the same entries, revision and key sets. -/
structure SameEffect (a b : (KvStore × LeaseManager) × Except WriteError (KvResult × Int)) : Prop where
  succeeds : a.2.toOption.isSome = b.2.toOption.isSome
  entries : ∀ key endKey rev limit, a.1.1.range key endKey rev limit = b.1.1.range key endKey rev limit
  current : a.1.1.currentRev = b.1.1.currentRev
  sets : a.1.2.SameKeySets b.1.2

/-- The transaction without a condition that has the one operation. -/
def TxnOp.alone (op : TxnOp) : KvRequest := .txn ⟨[],[op],[]⟩

namespace Fsm

/-- The flags and the leases of a put say nothing beyond the value and the lease that it carries. -/
def PutPlain (f : Fsm) (r : PutRequest) : Prop :=
  let prev := f.store.newWriter.get r.key 0
  (r.ignoreValue = true → ∃ e ∈ prev, e.value = some (r.value.getD [])) ∧ (r.ignoreLease = true → ∃ e ∈ prev, e.leaseID = r.leaseID) ∧
    (∀ e ∈ prev, e.leaseID ≠ 0 → e.leaseID ≠ r.leaseID → f.lm.attached e.leaseID r.key = false) ∧
    (r.leaseID ≠ 0 → (f.lm.find? r.leaseID).isSome = true → f.lm.attached r.leaseID r.key = true)

instance (f : Fsm) (r : PutRequest) : Decidable (f.PutPlain r) :=
  inferInstanceAs (Decidable ((r.ignoreValue = true → ∃ e ∈ f.store.newWriter.get r.key 0, e.value = some (r.value.getD [])) ∧
    (r.ignoreLease = true → ∃ e ∈ f.store.newWriter.get r.key 0, e.leaseID = r.leaseID) ∧
    (∀ e ∈ f.store.newWriter.get r.key 0, e.leaseID ≠ 0 → e.leaseID ≠ r.leaseID → f.lm.attached e.leaseID r.key = false) ∧
    (r.leaseID ≠ 0 → (f.lm.find? r.leaseID).isSome = true → f.lm.attached r.leaseID r.key = true)))

/-- The deletion lists no entry that is in the key set of its lease. -/
def DeletePlain (f : Fsm) (r : DeleteRequest) : Prop :=
  ∀ e ∈ f.store.listed r, e.leaseID ≠ 0 → f.lm.attached e.leaseID e.key = false

end Fsm

namespace Engine

variable {s : KvStore} {m : KvMap} {lm : LeaseManager}

theorem applyWrite_put_alone (holds : s.Holds m) (lm : LeaseManager) {r : PutRequest} (check : r.check = .ok ()) :
    ∃ result, applyWrite s lm (TxnOp.alone (.put (some r))) = ((s.txn [.put r.key r.value r.leaseID],lm),.ok result) := by
  obtain ⟨w,put,-⟩ := s.newWriter.put_spec holds.settled.fresh r.key r.value r.leaseID
  have call : TxWriter.put s.newWriter r.key r.value r.leaseID = (w,none) := put
  have passes : TxnOp.check (.put (some r)) = .ok (.put r) := by rw [TxnOp.check,check]; rfl
  have run : ∃ result, applyRequest s.newWriter lm (TxnOp.alone (.put (some r))) = ((w,lm),.ok result) := by
    simp only [TxnOp.alone,applyRequest,applyTxn,evalCondition,List.all_nil,if_true,applyTxnOps,passes,applyTxnOp,call]
    exact ⟨_,rfl⟩
  obtain ⟨result,run⟩ := run
  exact ⟨_,applyWrite_of_ok run⟩

theorem applyWrite_delete_alone (holds : s.Holds m) (lm : LeaseManager) {r : DeleteRequest} (check : r.check = .ok ()) :
    ∃ result, applyWrite s lm (TxnOp.alone (.delete (some r))) = ((s.txn [.deleteRange r.key r.endKey],lm),.ok result) := by
  obtain ⟨w,deleted,-⟩ := s.newWriter.deleteRange_spec holds.settled.fresh holds.shows_next.domain r.key r.endKey
  have call : TxWriter.deleteRange s.newWriter r.key r.endKey = (w,none) := deleted
  have passes : TxnOp.check (.delete (some r)) = .ok (.delete r) := by rw [TxnOp.check,check]; rfl
  have run : ∃ result, applyRequest s.newWriter lm (TxnOp.alone (.delete (some r))) = ((w,lm),.ok result) := by
    simp only [TxnOp.alone,applyRequest,applyTxn,evalCondition,List.all_nil,if_true,applyTxnOps,passes,applyTxnOp,
      (holds.listed_eq r).1,call]
    exact ⟨_,rfl⟩
  obtain ⟨result,run⟩ := run
  exact ⟨_,applyWrite_of_ok run⟩

theorem applyWrite_put (holds : s.Holds m) (lm : LeaseManager) (r : PutRequest) :
    let prev := s.newWriter.get r.key 0
    (prev = none ∧ (r.ignoreLease = true ∨ r.ignoreValue = true) ∧ (applyWrite s lm (.put r)).2 = .error .keyNotFound) ∨
    ¬(prev = none ∧ (r.ignoreLease = true ∨ r.ignoreValue = true)) ∧
      ∃ result, applyWrite s lm (.put r) = ((s.txn [.put r.key (if r.ignoreValue then prev.bind (·.value) else r.value)
        (storedLease prev r)],putLeases lm prev r),.ok result) := by
  intro prev
  by_cases missing : prev = none ∧ (r.ignoreLease = true ∨ r.ignoreValue = true)
  · refine Or.inl ⟨missing.1,missing.2,?_⟩
    have get : TxWriter.get s.newWriter r.key 0 = none := missing.1
    simp only [applyWrite,applyRequest,applyPut,get,missing.2,and_self,if_true]
    rfl
  · refine Or.inr ⟨missing,?_⟩
    obtain ⟨w,put,-⟩ := s.newWriter.put_spec holds.settled.fresh r.key
      (if r.ignoreValue then prev.bind (·.value) else r.value) (storedLease prev r)
    have call : TxWriter.put s.newWriter r.key (if r.ignoreValue then prev.bind (·.value) else r.value) (storedLease prev r) =
      (w,none) := put
    have get : TxWriter.get s.newWriter r.key 0 = prev := rfl
    have run : ∃ result, applyRequest s.newWriter lm (.put r) = ((w,putLeases lm prev r),.ok result) := by
      rw [storedLease] at call
      simp only [applyRequest,applyPut,get,missing,if_false,call]
      exact ⟨_,rfl⟩
    obtain ⟨result,run⟩ := run
    exact ⟨_,applyWrite_of_ok run⟩

end Engine

theorem KvStore.txn_put_congr (s : KvStore) (key : Bytes) {value value' : Option Bytes} (same : value.getD [] = value'.getD [])
    (leaseID : Int64) : s.txn [.put key value leaseID] = s.txn [.put key value' leaseID] := by
  have stored : ∀ next found, (Writer.putEntry next found key value leaseID).stored =
      (Writer.putEntry next found key value' leaseID).stored := by
    intro next found
    simp only [Entry.stored,Writer.putEntry,same]
  unfold KvStore.txn Writer.runOps Writer.runOp Writer.put
  simp only
  cases s.newWriter.store.kvIndex.put key _ with
  | error e => rfl
  | ok ti =>
    simp only [Writer.runOps,Writer.endTx,KvStore.newWriter,Backend.commit,List.nil_append,List.cons_append,
      Buckets.applyBatch_cons,Buckets.apply,stored,ne_eq,reduceCtorEq,not_false_eq_true,if_true]

theorem KvStore.Holds.find_eq {s s' : KvStore} {m m' : KvMap} (holds : s.Holds m) (holds' : s'.Holds m')
    {key : Bytes} (same : s.range key none 0 0 = s'.range key none 0 0) {item item' : Item} (found : m.find? key = some item)
    (found' : m'.find? key = some item') (nonempty : key ≠ []) : item.entry key = item'.entry key := by
  rw [holds.range,holds'.range] at same
  have entries : History.entries m (reads key none) = History.entries m' (reads key none) :=
    congrArg RangeResult.entries (Except.ok.inj same)
  have read : reads key none key = true := by simp [reads,selects,nonempty]
  have member : item.entry key ∈ History.entries m (reads key none) := History.mem_entries.mpr ⟨item,found,rfl,read⟩
  rw [entries] at member
  obtain ⟨other,there,is,-⟩ := History.mem_entries.mp member
  obtain rfl : other = item' := Option.some.inj ((show m'.find? key = some other from there).symm.trans found')
  exact is.symm

theorem LeaseManager.putLeases_same_iff {lm : LeaseManager} {prev : Option Entry} {r : PutRequest}
    (stored : Engine.storedLease prev r = r.leaseID) :
    (Engine.putLeases lm prev r).SameKeySets lm ↔
      (∀ e ∈ prev, e.leaseID ≠ 0 → e.leaseID ≠ r.leaseID → lm.attached e.leaseID r.key = false) ∧
      (r.leaseID ≠ 0 → (lm.find? r.leaseID).isSome = true → lm.attached r.leaseID r.key = true) := by
  rw [sameKeySets_iff fun id => (Engine.isSome_find_putLeases lm prev r id).symm]
  have sets := Engine.attached_putLeases lm prev r
  rw [stored] at sets
  constructor
  · intro same
    refine ⟨?_,fun nonzero granted => ?_⟩
    · rintro e rfl nonzero other
      rw [same,Bool.eq_false_iff,ne_eq,sets]
      rintro (⟨-,-,is,-⟩ | ⟨-,kept⟩)
      · exact other is
      · exact kept ⟨nonzero,other,rfl,rfl⟩
    · rw [same,sets]
      exact Or.inl ⟨nonzero,granted,rfl,rfl⟩
  · rintro ⟨detached,attached⟩ id key
    rw [Bool.eq_iff_iff,sets]
    constructor
    · intro here
      refine Or.inr ⟨here,?_⟩
      rintro ⟨nonzero,other,rfl,rfl⟩
      cases prev with
      | none => exact nonzero rfl
      | some e =>
        have free := detached e rfl nonzero other
        rw [show lm.attached e.leaseID r.key = true from here] at free
        cases free
    · rintro (⟨nonzero,granted,rfl,rfl⟩ | ⟨here,-⟩)
      · exact attached nonzero granted
      · exact here

theorem put_plain_iff {f : Fsm} {m : KvMap} (holds : f.store.Holds m) {r : PutRequest} (nonempty : r.key ≠ [])
    (present : ¬(f.store.newWriter.get r.key 0 = none ∧ (r.ignoreLease = true ∨ r.ignoreValue = true)))
    {result alone : KvResult × Int} :
    let prev := f.store.newWriter.get r.key 0
    SameEffect ((f.store.txn [.put r.key (if r.ignoreValue then prev.bind (·.value) else r.value) (Engine.storedLease prev r)],
        Engine.putLeases f.lm prev r),.ok result) ((f.store.txn [.put r.key r.value r.leaseID],f.lm),.ok alone) ↔
      f.PutPlain r := by
  intro prev
  have written : ∀ value leaseID, (KvMap.applyOps (f.store.currentRev.main + 1) m [.put r.key value leaseID]).1.find? r.key =
      some (KvMap.putItem (f.store.currentRev.main + 1) (m.find? r.key) value leaseID) := by
    intro value leaseID
    exact (SortedMap.find_insert _ _ _ _).trans (if_pos rfl)
  have there : (r.ignoreLease = true ∨ r.ignoreValue = true) → ∃ e, prev = some e :=
    fun flags => Option.ne_none_iff_exists'.mp fun none => present ⟨none,flags⟩
  constructor
  · intro same
    have item := (holds.txn _).find_eq (holds.txn _) (same.entries r.key none 0 0) (written _ _) (written _ _) nonempty
    have value : (if r.ignoreValue then prev.bind (·.value) else r.value).getD [] = r.value.getD [] :=
      Option.some.inj (congrArg Entry.value item)
    have lease : Engine.storedLease prev r = r.leaseID := congrArg Entry.leaseID item
    refine ⟨fun flag => ?_,fun flag => ?_,(LeaseManager.putLeases_same_iff lease).mp same.sets⟩
    · obtain ⟨e,is⟩ := there (Or.inr flag)
      have live := holds.get_eq nonempty
      rw [show f.store.newWriter.get r.key 0 = some e from is,eq_comm,Option.map_eq_some_iff] at live
      obtain ⟨item,-,rfl⟩ := live
      rw [if_pos flag,is] at value
      exact ⟨_,is,congrArg some value⟩
    · obtain ⟨e,is⟩ := there (Or.inl flag)
      refine ⟨e,is,?_⟩
      rw [Engine.storedLease,if_pos flag,is] at lease
      exact lease
  · rintro ⟨value,lease,sets⟩
    have stored : Engine.storedLease prev r = r.leaseID := by
      rw [Engine.storedLease]
      split
      next flag =>
        obtain ⟨e,is,same⟩ := lease flag
        rw [show prev = some e from is]
        exact same
      next => rfl
    have bytes : (if r.ignoreValue then prev.bind (·.value) else r.value).getD [] = r.value.getD [] := by
      split
      next flag =>
        obtain ⟨e,is,same⟩ := value flag
        rw [show prev = some e from is]
        change e.value.getD [] = _
        rw [same]
        rfl
      next => rfl
    rw [stored,f.store.txn_put_congr r.key bytes]
    exact ⟨rfl,fun _ _ _ _ => rfl,rfl,(LeaseManager.putLeases_same_iff stored).mpr sets⟩

end Kave
