import Kave.Store

/-! What the store is for: a history of maps, one for every transaction that changed something. Nothing here
    knows of revisions inside a transaction, generations or records. -/

namespace Kave

/-- A live key of the abstract map. -/
structure Item where
  value : Bytes
  leaseID : Int64
  createRev : Int
  modRev : Int
  version : Int
deriving DecidableEq, Repr

/-- The entry a read returns for a live key. -/
def Item.entry (key : Bytes) (item : Item) : Entry :=
  ⟨key,some item.value,item.createRev,item.modRev,item.version,item.leaseID⟩

abbrev KvMap := SortedMap Bytes Item

/-- One elementary change of a transaction. -/
inductive Write
  | put (key : Bytes) (value : Option Bytes) (leaseID : Int64)
  | delete (key : Bytes)

namespace KvMap

/-- The item of a key put in transaction `rev`: a put of a live key continues its life. -/
def putItem (rev : Int) (old : Option Item) (value : Option Bytes) (leaseID : Int64) : Item where
  value := value.getD []
  leaseID := leaseID
  createRev := (old.map (·.createRev)).getD rev
  modRev := rev
  version := (old.map (·.version)).getD 0 + 1

def put (rev : Int) (m : KvMap) (key : Bytes) (value : Option Bytes) (leaseID : Int64) : KvMap :=
  m.insert key (putItem rev (m.find? key) value leaseID)

/-- The map after one call of a transaction, and whether the transaction has changed something by then. -/
def applyOp (rev : Int) (state : KvMap × Bool) : Op → KvMap × Bool
  | .put key value leaseID => (put rev state.1 key value leaseID,true)
  | .deleteKey key => (state.1.erase key,state.2 || (state.1.find? key).isSome)
  | .deleteRange key endKey =>
    (state.1.filter fun k _ => !TreeIndex.rangeSelects key endKey k,
      state.2 || state.1.keys.any (TreeIndex.rangeSelects key endKey))

def applyOps (rev : Int) (m : KvMap) (ops : List Op) : KvMap × Bool := ops.foldl (applyOp rev) (m,false)

/-- The map after one elementary change. -/
def write (rev : Int) (m : KvMap) : Write → KvMap
  | .put key value leaseID => put rev m key value leaseID
  | .delete key => m.erase key

def writes (rev : Int) (m : KvMap) (ws : List Write) : KvMap := ws.foldl (write rev) m

/-- The elementary changes of one call: a deleted range is the deletion of its live keys in key order. -/
def opWrites {α : Type} (live : SortedMap Bytes α) : Op → List Write
  | .put key value leaseID => [.put key value leaseID]
  | .deleteKey key => ((live.filter fun k _ => TreeIndex.rangeSelects key none k).keys).map .delete
  | .deleteRange key endKey => ((live.filter fun k _ => TreeIndex.rangeSelects key endKey k).keys).map .delete

/-- The elementary changes of a transaction. -/
def opsWrites (rev : Int) : List Op → KvMap → List Write
  | [], _ => []
  | op :: rest, m => opWrites m op ++ opsWrites rev rest (writes rev m (opWrites m op))

theorem writes_delete (rev : Int) (m : KvMap) (keys : List Bytes) :
    writes rev m (keys.map .delete) = keys.foldl SortedMap.erase m := by
  rw [writes,List.foldl_map]
  rfl

theorem writes_filter (rev : Int) (m : KvMap) (p : Bytes → Bool) :
    writes rev m (((m.filter fun k _ => p k).keys).map .delete) = m.filter fun k _ => !p k := by
  rw [writes_delete]
  refine SortedMap.ext_find fun k => ?_
  simp only [SortedMap.find_foldl_erase,SortedMap.mem_keys,SortedMap.find_filter]
  cases m.find? k with
  | none => simp
  | some item => cases p k <;> simp [Option.filter]

/-- The elementary changes of a call have its effect, and there are none exactly if it changes nothing. -/
theorem applyOp_eq (rev : Int) (m : KvMap) (changed : Bool) (op : Op) :
    applyOp rev (m,changed) op = (writes rev m (opWrites m op),changed || !(opWrites m op).isEmpty) := by
  have any : ∀ (p : Bytes → Bool), (!(((m.filter fun k _ => p k).keys).map Write.delete).isEmpty) = m.keys.any p := by
    intro p
    rw [Bool.eq_iff_iff,List.any_eq_true]
    simp only [List.isEmpty_map,Bool.not_eq_true',List.isEmpty_eq_false_iff_exists_mem,SortedMap.mem_keys,
      SortedMap.find_filter,Option.isSome_iff_exists,Option.filter_eq_some_iff]
    constructor
    · rintro ⟨k,v,found,chosen⟩
      exact ⟨k,⟨v,found⟩,chosen⟩
    · rintro ⟨k,⟨v,found⟩,chosen⟩
      exact ⟨k,v,found,chosen⟩
  cases op with
  | put => simp [applyOp,opWrites,writes,write]
  | deleteKey key =>
    rw [applyOp,opWrites,writes_filter,any]
    refine Prod.ext (SortedMap.ext_find fun k => ?_) ?_
    · rw [SortedMap.find_erase,SortedMap.find_filter]
      cases m.find? k <;> by_cases same : k = key <;> simp [TreeIndex.rangeSelects,Option.filter,same]
    · simp only
      congr 1
      rw [Bool.eq_iff_iff,List.any_eq_true]
      simp [TreeIndex.rangeSelects,SortedMap.mem_keys]
  | deleteRange key endKey => rw [applyOp,opWrites,writes_filter,any]

theorem applyOps_eq (rev : Int) (m : KvMap) (ops : List Op) :
    applyOps rev m ops = (writes rev m (opsWrites rev ops m),!(opsWrites rev ops m).isEmpty) := by
  have general : ∀ (ops : List Op) (m : KvMap) (changed : Bool), ops.foldl (applyOp rev) (m,changed) =
      (writes rev m (opsWrites rev ops m),changed || !(opsWrites rev ops m).isEmpty) := by
    intro ops
    induction ops with
    | nil => intro m changed; simp [opsWrites,writes]
    | cons op rest ih =>
      intro m changed
      rw [List.foldl_cons,applyOp_eq,ih,opsWrites]
      refine Prod.ext ?_ ?_
      · simp [writes,List.foldl_append]
      · cases opWrites m op <;> simp
  simpa [applyOps] using general ops m false

end KvMap

/-- The maps of all revisions up to the current one. -/
structure History where
  current : Int
  snap : Int → KvMap

namespace History

def empty : History := ⟨0,fun _ => SortedMap.empty⟩

def last (h : History) : KvMap := h.snap h.current

/-- A transaction that changes something adds a map; one that changes nothing leaves no trace. -/
def txn (h : History) (ops : List Op) : History :=
  match KvMap.applyOps (h.current + 1) h.last ops with
  | (m,true) => ⟨h.current + 1,fun r => if r = h.current + 1 then m else h.snap r⟩
  | (_,false) => h

def txns (h : History) (txns : List (List Op)) : History := txns.foldl txn h

@[simp] theorem txns_append (h : History) (a b : List (List Op)) : h.txns (a ++ b) = (h.txns a).txns b :=
  List.foldl_append

/-- The transactions of a sequence that change something, the only ones a revision counts. -/
def effective : History → List (List Op) → List (List Op)
  | _, [] => []
  | h, ops :: rest =>
    if (KvMap.applyOps (h.current + 1) h.last ops).2 then ops :: effective (h.txn ops) rest
    else effective (h.txn ops) rest

theorem effective_append (h : History) (a b : List (List Op)) :
    effective h (a ++ b) = effective h a ++ effective (h.txns a) b := by
  induction a generalizing h with
  | nil => rfl
  | cons ops rest ih =>
    simp only [List.cons_append,effective,ih]
    split <;> rfl

private theorem txn_of_unchanged {h : History} {ops : List Op}
    (same : (KvMap.applyOps (h.current + 1) h.last ops).2 = false) : h.txn ops = h := by
  rw [txn]
  split
  next changed => simp [changed] at same
  next => rfl

private theorem txn_of_changed {h : History} {ops : List Op}
    (changed : (KvMap.applyOps (h.current + 1) h.last ops).2 = true) :
    (h.txn ops).current = h.current + 1 ∧ ∀ r, r ≤ h.current → (h.txn ops).snap r = h.snap r := by
  rw [txn]
  split
  next => exact ⟨rfl,fun r le => if_neg (by omega)⟩
  next same => simp [same] at changed

/-- The map of revision `r` is what the first `r` transactions that change something leave, starting from
    nothing. -/
theorem snap_eq (sequence : List (List Op)) :
    (empty.txns sequence).current = (effective empty sequence).length ∧
    empty.txns (effective empty sequence) = empty.txns sequence ∧
    ∀ r, 0 ≤ r → r ≤ (empty.txns sequence).current →
      (empty.txns sequence).snap r = (empty.txns ((effective empty sequence).take r.toNat)).last := by
  induction sequence using List.reverseRecOn with
  | nil => exact ⟨rfl,rfl,fun r _ _ => by simp [effective,txns,last,empty]⟩
  | append_singleton before ops ih =>
    obtain ⟨current,replay,snaps⟩ := ih
    rw [effective_append,txns_append]
    generalize H : empty.txns before = h at current replay snaps ⊢
    have single : h.txns [ops] = h.txn ops := rfl
    cases changes : (KvMap.applyOps (h.current + 1) h.last ops).2 with
    | false =>
      have none : effective h [ops] = [] := by simp [effective,changes]
      rw [none,List.append_nil,single,txn_of_unchanged changes]
      exact ⟨current,replay,snaps⟩
    | true =>
      have one : effective h [ops] = [ops] := by simp [effective,changes]
      obtain ⟨next,old⟩ := txn_of_changed changes
      rw [one,single,txns_append,replay]
      refine ⟨by simp [next,current],rfl,fun r low high => ?_⟩
      rw [next] at high
      by_cases now : r = h.current + 1
      · have all : r.toNat = (effective empty before ++ [ops]).length := by simp [now,current]
        rw [all,List.take_length,txns_append,replay,single,last,next,now]
      · have len : r.toNat ≤ (effective empty before).length := by omega
        rw [List.take_append_of_le_length len,← snaps r low (by omega)]
        exact old r (by omega)

/-- The entries of a read at one revision, in key order. -/
def entries (m : KvMap) (p : Bytes → Bool) : List Entry :=
  (m.filter fun k _ => p k).entries.map fun e => e.2.entry e.1

/-- The answer to a read of the map: its entries cut to the limit, their full number, and the highest mod
    revision among those returned (the revision asked for, if there are none). -/
def read (m : KvMap) (p : Bytes → Bool) (r limit : Int) : RangeResult :=
  let got := TreeIndex.cut limit (entries m p)
  ⟨got,(entries m p).length,if got = [] then r else lastRevOf got⟩

end History

end Kave
