import Kave.Compaction
import Kave.Engine
import Kave.Heap

/-! Leases: the lease map, the heap of deadlines, the records behind them, and the commands on them. Times are nanoseconds
    and a time to live is in seconds. -/

namespace Kave

structure Lease where
  id : Int64
  ttl : Int
  remainingTTL : Int
  expiry : Int
  keySet : SortedMap Bytes Unit

def maxTTL : Int := 7889232

/-- `time.Second` -/
def timeSecond : Int := 1000000000

/-- What the clock shows when a lease is granted again. -/
abbrev Readings := Int64 → Int

inductive LeaseError
  /-- `lease error: lease ID cannot be zero` -/
  | idZero
  /-- `lease error: lease ID conflict` -/
  | idConflict
  /-- `lease error: lease not found` -/
  | notFound
  /-- `lease error: TTL cannot be negative` -/
  | invalidTTL
  /-- A failing deletion of an attached key. -/
  | delete (cause : KvError)
deriving DecidableEq, Repr

/-- `EncodeLeaseBucketKey`: records are in the order of the unsigned ids. -/
def leaseBucketKey (id : Int64) : UInt64 := id.toUInt64

def decodeLeaseBucketKey (key : UInt64) : Int64 := key.toInt64

namespace Lease

/-- `newLease` -/
def new (now : Int) (id : Int64) (ttl : Int) : Lease := ⟨id,ttl,ttl,now + ttl * timeSecond,SortedMap.empty⟩

/-- `EncodeLease` -/
def record (l : Lease) : LeaseRecord := ⟨l.id,l.ttl,l.remainingTTL⟩

def attachKey (l : Lease) (key : Bytes) : Lease := { l with keySet := l.keySet.insert key () }

def detachKey (l : Lease) (key : Bytes) : Lease := { l with keySet := l.keySet.erase key }

def bare (l : Lease) : Lease := { l with keySet := SortedMap.empty }

end Lease

/-- An item of the heap. `ref` tells items apart, since the map of items holds pointers to them. -/
structure HeapItem where
  ref : Nat
  lease : Int64
  expiry : Int
  index : Nat
deriving DecidableEq, Repr

namespace HeapItem

def less (a b : HeapItem) : Bool := a.expiry < b.expiry

/-- What `Swap` and `Push` of the heap write to an item. -/
def place (i : Nat) (item : HeapItem) : HeapItem := { item with index := i }

end HeapItem

/-- What a run of the code depends on besides its inputs: the clock when a command is applied, the time until the second
    clock reading of `KeepAlive`, and the order in which a key set is iterated. -/
structure Env where
  now : Int
  elapsed : Nat
  order : List Bytes → List Bytes
  perm : ∀ keys, (order keys).Perm keys

/-- The lease map, in which every lease is under its own id, and the heap with the map into it. `allocated` counts the
    items made so far. -/
structure LeaseManager where
  leaseMap : SortedMap UInt64 Lease
  named : ∀ key l, leaseMap.find? key = some l → leaseBucketKey l.id = key
  heap : List HeapItem
  heapMap : SortedMap UInt64 Nat
  allocated : Nat

namespace LeaseManager

def new : LeaseManager where
  leaseMap := SortedMap.empty
  named := by
    intro key l found
    simp at found
  heap := []
  heapMap := SortedMap.empty
  allocated := 0

def find? (lm : LeaseManager) (id : Int64) : Option Lease := lm.leaseMap.find? (leaseBucketKey id)

/-- The lease under its id: `unsafeSaveToLeaseMap`, or a change of the lease the map points to. -/
def save (lm : LeaseManager) (l : Lease) : LeaseManager where
  heap := lm.heap
  heapMap := lm.heapMap
  allocated := lm.allocated
  leaseMap := lm.leaseMap.insert (leaseBucketKey l.id) l
  named := by
    intro key l' found
    rw [SortedMap.find_insert] at found
    split at found
    next same => cases found; exact same.symm
    next => exact lm.named key l' found

/-- `unsafeRemoveFromLeaseMap` -/
def remove (lm : LeaseManager) (id : Int64) : LeaseManager where
  heap := lm.heap
  heapMap := lm.heapMap
  allocated := lm.allocated
  leaseMap := lm.leaseMap.erase (leaseBucketKey id)
  named := by
    intro key l found
    rw [SortedMap.find_erase] at found
    split at found
    next => cases found
    next => exact lm.named key l found

/-- `unsafePushToHeap` -/
def pushToHeap (lm : LeaseManager) (l : Lease) : LeaseManager :=
  { lm with
    heap := Heap.push HeapItem.less HeapItem.place lm.heap ⟨lm.allocated,l.id,l.expiry,0⟩
    heapMap := lm.heapMap.insert (leaseBucketKey l.id) lm.allocated
    allocated := lm.allocated + 1 }

/-- The item the map of items points to. -/
def heapItem? (lm : LeaseManager) (id : Int64) : Option HeapItem :=
  (lm.heapMap.find? (leaseBucketKey id)).bind fun ref => lm.heap.find? (·.ref = ref)

/-- `unsafeRemoveFromHeap` -/
def removeFromHeap (lm : LeaseManager) (id : Int64) : LeaseManager :=
  match lm.heapItem? id with
  | none => lm
  | some item =>
    { lm with
      heap := Heap.remove HeapItem.less HeapItem.place lm.heap item.index
      heapMap := lm.heapMap.erase (leaseBucketKey id) }

/-- `unsafeUpdateHeap`: the item is changed where it is, then moved. -/
def updateHeap (lm : LeaseManager) (id : Int64) (t : Int) : LeaseManager :=
  match lm.heapItem? id with
  | none => lm
  | some item =>
    let heap := lm.heap.map fun x => if x.ref = item.ref then { x with expiry := t } else x
    { lm with heap := Heap.fix HeapItem.less HeapItem.place heap item.index }

/-- `unsafePersistToBackend`: a commit of its own. -/
def persist (s : KvStore) (l : Lease) : KvStore :=
  { s with backend := s.backend.commit [.putLease (leaseBucketKey l.id) l.record] }

/-- The removal of lease records: one commit for all of them. -/
def removeFromBackend (s : KvStore) (ids : List Int64) : KvStore :=
  { s with backend := s.backend.commit (ids.map fun id => .deleteLease (leaseBucketKey id)) }

def attachKey (lm : LeaseManager) (id : Int64) (key : Bytes) : LeaseManager :=
  match lm.find? id with
  | none => lm
  | some l => lm.save (l.attachKey key)

def detachKey (lm : LeaseManager) (id : Int64) (key : Bytes) : LeaseManager :=
  match lm.find? id with
  | none => lm
  | some l => lm.save (l.detachKey key)

instance : LeaseAttacher LeaseManager := ⟨attachKey,detachKey⟩

def attached (lm : LeaseManager) (id : Int64) (key : Bytes) : Bool :=
  (lm.find? id).any fun l => (l.keySet.find? key).isSome

/-- A lease with a new id: saved, pushed to the heap and persisted. -/
def addLease (now : Int) (lm : LeaseManager) (s : KvStore) (id : Int64) (ttl : Int) :
    (LeaseManager × KvStore) × Except LeaseError Lease :=
  let lease := Lease.new now id (min ttl maxTTL)
  match lm.find? id with
  | some _ => ((lm,s),.error .idConflict)
  | none => (((lm.save lease).pushToHeap lease,persist s lease),.ok lease)

def grant (env : Env) (lm : LeaseManager) (s : KvStore) (id : Int64) (ttl : Int) :
    (LeaseManager × KvStore) × Except LeaseError Lease :=
  if id = 0 then ((lm,s),.error .idZero)
  else if ttl ≤ 0 then ((lm,s),.error .invalidTTL)
  else addLease env.now lm s id ttl

/-- `Revoke`: the attached keys are deleted in a transaction of their own, then the record of the lease. -/
def revoke (env : Env) (lm : LeaseManager) (s : KvStore) (id : Int64) :
    (LeaseManager × KvStore) × Except LeaseError (Bool × Bool) :=
  match lm.find? id with
  | none => ((lm,s),.error .notFound)
  | some lease =>
    let toDelete := env.order lease.keySet.keys
    let lm := lm.save { lease with keySet := SortedMap.empty }
    if toDelete = [] then (((lm.remove id).removeFromHeap id,removeFromBackend s [id]),.ok (true,true))
    else
      match Writer.runOps (toDelete.map .deleteKey) s.newWriter with
      | (w,some e) => ((lm,w.abort),.error (.delete e))
      | (w,none) => (((lm.remove id).removeFromHeap id,removeFromBackend w.endTx [id]),.ok (true,true))

/-- `KeepAlive`: the remaining time is counted from the second clock reading, in whole seconds. -/
def keepAlive (env : Env) (lm : LeaseManager) (s : KvStore) (id : Int64) : (LeaseManager × KvStore) × Except LeaseError Int :=
  if id = 0 then ((lm,s),.error .idZero)
  else
    match lm.find? id with
    | none => ((lm,s),.error .notFound)
    | some lease =>
      let newExpiry := env.now + lease.ttl * timeSecond
      let remTTL := (newExpiry - (env.now + env.elapsed)).tdiv timeSecond
      let lease := { lease with remainingTTL := remTTL, expiry := newExpiry }
      (((lm.save lease).updateHeap id newExpiry,persist s lease),.ok remTTL)

def lookup (lm : LeaseManager) (id : Int64) : Except LeaseError Lease :=
  match lm.find? id with
  | none => .error .notFound
  | some lease => .ok lease

def applyCheckpoint (lm : LeaseManager) (s : KvStore) : List Checkpoint → LeaseManager × KvStore
  | [] => (lm,s)
  | ck :: rest =>
    match lm.find? ck.leaseID with
    | none => applyCheckpoint lm s rest
    | some lease =>
      if ck.remainingTTL ≤ 0 then applyCheckpoint lm s rest
      else
        let lease := { lease with remainingTTL := ck.remainingTTL }
        applyCheckpoint (lm.save lease) (persist s lease) rest

/-- The loop of `DrainExpiredLeases`, with the ids of the leases it returns. -/
def drainLoop (now : Int) : Nat → LeaseManager → LeaseManager × List Int64
  | 0, lm => (lm,[])
  | fuel + 1, lm =>
    match lm.heap.head? with
    | none => (lm,[])
    | some min =>
      if min.expiry < now then
        match Heap.pop HeapItem.less HeapItem.place lm.heap with
        | (none,_) => (lm,[])
        | (some item,heap) =>
          let run := drainLoop now fuel { lm with heap := heap, heapMap := lm.heapMap.erase (leaseBucketKey item.lease) }
          (run.1,item.lease :: run.2)
      else (lm,[])

def drainExpiredLeases (now : Int) (lm : LeaseManager) : LeaseManager × List Int64 := drainLoop now lm.heap.length lm

/-- The first loop of `ApplyExpired`: the leases leave the map and not the heap, their keys and number are collected. -/
def collectExpired (env : Env) : List Int64 → LeaseManager → List Bytes → Nat → LeaseManager × List Bytes × Nat
  | [], lm, keys, count => (lm,keys,count)
  | id :: rest, lm, keys, count =>
    match lm.find? id with
    | none => collectExpired env rest lm keys count
    | some l => collectExpired env rest (lm.remove id) (keys ++ env.order l.keySet.keys) (count + 1)

structure ResultLeaseExpire where
  removedLeaseCount : Nat
  removedKeyCount : Nat
deriving DecidableEq, Repr

def applyExpired (env : Env) (lm : LeaseManager) (s : KvStore) (ids : List Int64) :
    (LeaseManager × KvStore) × Except LeaseError ResultLeaseExpire :=
  let (lm,attachedKeys,leaseCount) := collectExpired env ids lm [] 0
  match Writer.runOps (attachedKeys.map .deleteKey) s.newWriter with
  | (w,some e) => ((lm,w.abort),.error (.delete e))
  | (w,none) => ((lm,removeFromBackend w.endTx ids),.ok ⟨leaseCount,attachedKeys.length⟩)

/-! ### Restore -/

def maxBatchSize : Nat := 1

/-- The callback of the scan over the lease records: whether it stopped at a full batch, the batch, and the last record
    visited before that. -/
def scanLeases {V : Type} (decode : V → Option LeaseRecord) :
    List (UInt64 × V) → List (Int64 × Int) → Int64 → Bool × List (Int64 × Int) × Int64
  | [], batch, last => (false,batch,last)
  | (key,v) :: rest, batch, last =>
    if batch.length = maxBatchSize then (true,batch,last)
    else
      match decode v with
      | none => scanLeases decode rest batch (decodeLeaseBucketKey key)
      | some l =>
        if l.remainingTTL ≤ 0 then scanLeases decode rest batch (decodeLeaseBucketKey key)
        else scanLeases decode rest (batch ++ [(l.id,l.remainingTTL)]) (decodeLeaseBucketKey key)

/-- The loop over the pages of lease records, with nothing for a loop that has not ended yet. Every page but the last re-grants a
    record and goes on behind it, so the fuel only has to exceed the records. -/
def leasePages {S V : Type} (decode : V → Option LeaseRecord) (bucket : S → SortedMap UInt64 V) (regrant : S → Int64 × Int → S) :
    Nat → UInt64 → Int64 → S → Option S
  | 0, _, _, _ => none
  | fuel + 1, start, last, state =>
    let (exceeded,batch,last) := scanLeases decode ((bucket state).ascend start fun _ => true) [] last
    let state := batch.foldl regrant state
    if ¬ exceeded ∨ last = Int64.maxValue then some state
    else
      let start := if batch ≠ [] ∨ last ≠ Int64.minValue then leaseBucketKey (last + 1) else start
      leasePages decode bucket regrant fuel start last state

/-- `unsafeRegrant`: the remaining time becomes the granted one; an error is only logged. -/
def regrant (now : Readings) (state : LeaseManager × KvStore) (l : Int64 × Int) : LeaseManager × KvStore :=
  if l.2 ≤ 0 ∨ l.1 = 0 then state else (addLease (now l.1) state.1 state.2 l.1 l.2).1

/-- The pages of the records of the store. -/
def regrantPages (now : Readings) (fuel : Nat) (start : UInt64) (last : Int64) (state : LeaseManager × KvStore) :
    LeaseManager × KvStore :=
  (leasePages some (·.2.backend.buckets.lease) (regrant now) fuel start last state).getD state

/-- The callback of the scan over the key records, on the one record a page has room for. -/
def reattach (lm : LeaseManager) (bk : KvBucketKey) (entry : Entry) : LeaseManager :=
  if bk.tombstone then lm
  else if entry.leaseID ≠ 0 then lm.attachKey entry.leaseID entry.key
  else lm

/-- `nextFullRevisionOverflowing` below the largest revisions. -/
def nextFullRevision (r : Revision) : Revision := ⟨r.main,r.sub + 1⟩

/-- The loop over the pages of key records: a page is one record, and it is the last if no other follows. -/
def reattachPages (kv : KvBucket) : Nat → KvBucketKey → LeaseManager → LeaseManager
  | 0, _, lm => lm
  | fuel + 1, start, lm =>
    match kv.ascend start fun _ => true with
    | [] => lm
    | (bk,entry) :: rest =>
      let lm := reattach lm bk entry
      if rest = [] then lm
      else reattachPages kv fuel (KvBucketKey.encodeRevisionAsBucketKey (nextFullRevision bk.rev)) lm

/-- `Restore` of the manager, which never fails. -/
def restore (now : Readings) (s : KvStore) : LeaseManager × KvStore :=
  let (lm,s) := regrantPages now (s.backend.buckets.lease.entries.length + 1) 0 Int64.minValue (LeaseManager.new,s)
  let kv := s.backend.buckets.kv
  (reattachPages kv (kv.entries.length + 1) (KvBucketKey.encodeRevisionAsBucketKey Revision.zero) lm,s)

/-- What every re-grant keeps, the pages keep. -/
theorem leasePages_invariant {S V : Type} {decode : V → Option LeaseRecord} {bucket : S → SortedMap UInt64 V}
    {regrant : S → Int64 × Int → S} {P : S → Prop} (keeps : ∀ state l, P state → P (regrant state l)) (fuel : Nat) (start : UInt64)
    (last : Int64) {state : S} (holds : P state) : ∀ out ∈ leasePages decode bucket regrant fuel start last state, P out := by
  have batch : ∀ (batch : List (Int64 × Int)) (state : S), P state → P (batch.foldl regrant state) :=
    fun batch state holds => List.foldlRecOn batch regrant holds fun state holds l _ => keeps state l holds
  induction fuel generalizing start last state with
  | zero => simp [leasePages]
  | succ fuel ih =>
    rw [leasePages]
    simp only
    split
    · rintro _ ⟨⟩
      exact batch _ _ holds
    · exact ih _ _ (batch _ _ holds)

theorem regrantPages_invariant {now : Readings} {P : LeaseManager × KvStore → Prop} (keeps : ∀ state l, P state → P (regrant now state l))
    (fuel : Nat) (start : UInt64) (last : Int64) {state : LeaseManager × KvStore} (holds : P state) :
    P (regrantPages now fuel start last state) := by
  rw [regrantPages]
  cases ran : leasePages some (·.2.backend.buckets.lease) (regrant now) fuel start last state with
  | none => exact holds
  | some out => exact leasePages_invariant keeps fuel start last holds out ran

/-! ### Lookups -/

theorem removeFromBackend_buckets (s : KvStore) (ids : List Int64) : (removeFromBackend s ids).backend.buckets =
    { s.backend.buckets with lease := (ids.map leaseBucketKey).foldl SortedMap.erase s.backend.buckets.lease } := by
  have buckets : ∀ (ids : List Int64) (b : Buckets), b.applyBatch (ids.map fun id => .deleteLease (leaseBucketKey id)) =
      { b with lease := (ids.map leaseBucketKey).foldl SortedMap.erase b.lease } := by
    intro ids
    induction ids with
    | nil => exact fun b => rfl
    | cons id rest ih => exact fun b => ih (b.apply (.deleteLease (leaseBucketKey id)))
  exact buckets ids s.backend.buckets

theorem leaseBucketKey_inj {a b : Int64} : leaseBucketKey a = leaseBucketKey b ↔ a = b := by
  constructor
  · intro same
    have back := congrArg UInt64.toInt64 same
    rwa [leaseBucketKey, leaseBucketKey, Int64.toInt64_toUInt64, Int64.toInt64_toUInt64] at back
  · rintro rfl
    rfl

theorem id_of_find {lm : LeaseManager} {id : Int64} {l : Lease} (found : lm.find? id = some l) : l.id = id :=
  leaseBucketKey_inj.mp (lm.named _ l found)

@[simp] theorem find_new (id : Int64) : LeaseManager.new.find? id = none := rfl

theorem find_save (lm : LeaseManager) (l : Lease) (id : Int64) :
    (lm.save l).find? id = if id = l.id then some l else lm.find? id := by
  change (lm.leaseMap.insert (leaseBucketKey l.id) l).find? (leaseBucketKey id) = _
  rw [SortedMap.find_insert]
  simp only [leaseBucketKey_inj]
  rfl

theorem find_remove (lm : LeaseManager) (id id' : Int64) : (lm.remove id).find? id' = if id' = id then none else lm.find? id' := by
  change (lm.leaseMap.erase (leaseBucketKey id)).find? (leaseBucketKey id') = _
  rw [SortedMap.find_erase]
  simp only [leaseBucketKey_inj]
  rfl

@[simp] theorem find_pushToHeap (lm : LeaseManager) (l : Lease) (id : Int64) : (lm.pushToHeap l).find? id = lm.find? id := rfl

@[simp] theorem find_removeFromHeap (lm : LeaseManager) (id id' : Int64) : (lm.removeFromHeap id).find? id' = lm.find? id' := by
  rw [removeFromHeap]
  split <;> rfl

@[simp] theorem find_updateHeap (lm : LeaseManager) (id : Int64) (t : Int) (id' : Int64) :
    (lm.updateHeap id t).find? id' = lm.find? id' := by
  rw [updateHeap]
  split <;> rfl

private theorem find_change (lm : LeaseManager) (f : Lease → Lease) (named : ∀ l, (f l).id = l.id) (id id' : Int64) :
    (match lm.find? id with | none => lm | some l => lm.save (f l)).find? id' =
      if id' = id then (lm.find? id).map f else lm.find? id' := by
  cases found : lm.find? id with
  | none =>
    by_cases same : id' = id
    · rw [if_pos same,same]
      exact found
    · rw [if_neg same]
  | some l =>
    simp only
    rw [find_save,named,id_of_find found]
    rfl

theorem find_attachKey (lm : LeaseManager) (id : Int64) (key : Bytes) (id' : Int64) :
    (lm.attachKey id key).find? id' = if id' = id then (lm.find? id).map (·.attachKey key) else lm.find? id' :=
  lm.find_change (·.attachKey key) (fun _ => rfl) id id'

theorem find_detachKey (lm : LeaseManager) (id : Int64) (key : Bytes) (id' : Int64) :
    (lm.detachKey id key).find? id' = if id' = id then (lm.find? id).map (·.detachKey key) else lm.find? id' :=
  lm.find_change (·.detachKey key) (fun _ => rfl) id id'

theorem isSome_find_attachKey (lm : LeaseManager) (id : Int64) (key : Bytes) (id' : Int64) :
    ((lm.attachKey id key).find? id').isSome = (lm.find? id').isSome := by
  rw [find_attachKey]
  split
  next same => rw [same,Option.isSome_map]
  next => rfl

theorem isSome_find_detachKey (lm : LeaseManager) (id : Int64) (key : Bytes) (id' : Int64) :
    ((lm.detachKey id key).find? id').isSome = (lm.find? id').isSome := by
  rw [find_detachKey]
  split
  next same => rw [same,Option.isSome_map]
  next => rfl

theorem attached_attachKey (lm : LeaseManager) (id : Int64) (key : Bytes) (id' : Int64) (key' : Bytes) :
    (lm.attachKey id key).attached id' key' =
      ((lm.find? id).isSome && decide (id' = id ∧ key' = key) || lm.attached id' key') := by
  rw [attached,attached,find_attachKey]
  by_cases same : id' = id
  · subst same
    cases lm.find? id' with
    | none => simp
    | some l => by_cases here : key' = key <;> simp [Lease.attachKey,here]
  · simp [same]

theorem attached_detachKey (lm : LeaseManager) (id : Int64) (key : Bytes) (id' : Int64) (key' : Bytes) :
    (lm.detachKey id key).attached id' key' = (lm.attached id' key' && !decide (id' = id ∧ key' = key)) := by
  rw [attached,attached,find_detachKey]
  by_cases same : id' = id
  · subst same
    cases lm.find? id' with
    | none => simp
    | some l => by_cases here : key' = key <;> simp [Lease.detachKey,here]
  · simp [same]

/-- Only the listed entries are detached, each from its own lease. -/
theorem attached_detachAll (entries : List Entry) (lm : LeaseManager) (id : Int64) (key : Bytes) :
    (Engine.detachAll lm entries).attached id key =
      (lm.attached id key && !entries.any fun e => e.leaseID ≠ 0 ∧ id = e.leaseID ∧ key = e.key) := by
  unfold Engine.detachAll
  induction entries generalizing lm with
  | nil => simp
  | cons e rest ih =>
    rw [List.foldl_cons,ih]
    by_cases none : e.leaseID = 0
    · simp [none]
    · rw [if_pos none]
      change ((lm.detachKey e.leaseID e.key).attached id key && _) = _
      rw [attached_detachKey,List.any_cons,Bool.not_or,← Bool.and_assoc]
      simp [none]

theorem isSome_find_detachAll (entries : List Entry) (lm : LeaseManager) (id : Int64) :
    ((Engine.detachAll lm entries).find? id).isSome = (lm.find? id).isSome := by
  unfold Engine.detachAll
  induction entries generalizing lm with
  | nil => rfl
  | cons e rest ih =>
    rw [List.foldl_cons,ih]
    split
    · exact isSome_find_detachKey _ _ _ _
    · rfl

/-- The managers differ in nothing but the key sets of the leases. -/
structure SameLeases (lm lm' : LeaseManager) : Prop where
  leases : ∀ id, (lm'.find? id).map Lease.bare = (lm.find? id).map Lease.bare
  heap : lm'.heap = lm.heap
  heapMap : lm'.heapMap = lm.heapMap
  allocated : lm'.allocated = lm.allocated

namespace SameLeases

theorem refl (lm : LeaseManager) : lm.SameLeases lm := ⟨fun _ => rfl,rfl,rfl,rfl⟩

theorem trans {a b c : LeaseManager} (first : a.SameLeases b) (second : b.SameLeases c) : a.SameLeases c where
  leases id := (second.leases id).trans (first.leases id)
  heap := second.heap.trans first.heap
  heapMap := second.heapMap.trans first.heapMap
  allocated := second.allocated.trans first.allocated

private theorem of_find {lm lm' : LeaseManager} {f : Lease → Lease} (bare : ∀ l, (f l).bare = l.bare) {id : Int64}
    (find : ∀ id', lm'.find? id' = if id' = id then (lm.find? id).map f else lm.find? id') (heap : lm'.heap = lm.heap)
    (heapMap : lm'.heapMap = lm.heapMap) (allocated : lm'.allocated = lm.allocated) : lm.SameLeases lm' := by
  refine ⟨fun id' => ?_,heap,heapMap,allocated⟩
  rw [find]
  split
  next same =>
    rw [same,Option.map_map]
    exact congrArg (fun g => (lm.find? id).map g) (funext bare)
  next => rfl

theorem attachKey (lm : LeaseManager) (id : Int64) (key : Bytes) : lm.SameLeases (lm.attachKey id key) := by
  refine of_find (f := (·.attachKey key)) (fun _ => rfl) (lm.find_attachKey id key) ?_ ?_ ?_
  all_goals
    unfold LeaseManager.attachKey
    split <;> rfl

theorem detachKey (lm : LeaseManager) (id : Int64) (key : Bytes) : lm.SameLeases (lm.detachKey id key) := by
  refine of_find (f := (·.detachKey key)) (fun _ => rfl) (lm.find_detachKey id key) ?_ ?_ ?_
  all_goals
    unfold LeaseManager.detachKey
    split <;> rfl

end SameLeases

end LeaseManager

end Kave
