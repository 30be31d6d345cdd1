import Kave.Revision

/-! The buckets of the storage backend and the batches that change them. A bucket holds decoded records, since every
    record is written and read through the same codec. -/

namespace Kave

/-- A version of a key as the store keeps it; a tombstone has no value. -/
structure Entry where
  key : Bytes
  value : Option Bytes
  createRev : Int
  modRev : Int
  version : Int
  leaseID : Int64
deriving DecidableEq, Repr

/-- What `DecodeEntry` gives back of an encoded entry: a nil value comes back empty. -/
def Entry.stored (e : Entry) : Entry := { e with value := some (e.value.getD []) }

@[simp] theorem Entry.stored_key (e : Entry) : e.stored.key = e.key := rfl

abbrev KvBucket := SortedMap KvBucketKey Entry

/-- The named keys of the meta bucket; `none` is a missing key. -/
structure MetaBucket where
  raftApplyIndex : Option Nat
  raftTerm : Option Nat
  currentRevision : Option Int
  scheduledCompactedRev : Option Int
  finishedCompactedRev : Option Int
deriving DecidableEq, Repr

/-- An encoded lease. -/
structure LeaseRecord where
  id : Int64
  ttl : Int
  remainingTTL : Int
deriving DecidableEq, Repr

/-- The named keys of the OT bucket. -/
structure OtBucket where
  blob : Option Bytes
  clusterKey : Option Bytes
deriving DecidableEq, Repr

/-- The whole durable state. Lease records are keyed by the unsigned image of their id. -/
structure Buckets where
  kv : KvBucket
  metadata : MetaBucket
  lease : SortedMap UInt64 LeaseRecord
  ot : OtBucket

def Buckets.empty : Buckets := ⟨SortedMap.empty,⟨none,none,none,none,none⟩,SortedMap.empty,⟨none,none⟩⟩

/-- One operation collected by a write transaction. -/
inductive BatchOp
  | putKv (key : KvBucketKey) (entry : Entry)
  | deleteKv (key : KvBucketKey)
  | putRaftApplyIndex (index : Nat)
  | putRaftTerm (term : Nat)
  | putCurrentRevision (main : Int)
  | putScheduledCompactedRev (main : Int)
  | putFinishedCompactedRev (main : Int)
  | putLease (key : UInt64) (record : LeaseRecord)
  | deleteLease (key : UInt64)
  | putOtBlob (blob : Bytes)
  | putOtClusterKey (key : Bytes)

def Buckets.apply (b : Buckets) : BatchOp → Buckets
  | .putKv key entry => { b with kv := b.kv.insert key entry.stored }
  | .deleteKv key => { b with kv := b.kv.erase key }
  | .putRaftApplyIndex index => { b with metadata := { b.metadata with raftApplyIndex := some index } }
  | .putRaftTerm term => { b with metadata := { b.metadata with raftTerm := some term } }
  | .putCurrentRevision main => { b with metadata := { b.metadata with currentRevision := some main } }
  | .putScheduledCompactedRev main => { b with metadata := { b.metadata with scheduledCompactedRev := some main } }
  | .putFinishedCompactedRev main => { b with metadata := { b.metadata with finishedCompactedRev := some main } }
  | .putLease key record => { b with lease := b.lease.insert key record }
  | .deleteLease key => { b with lease := b.lease.erase key }
  | .putOtBlob blob => { b with ot := { b.ot with blob := some blob } }
  | .putOtClusterKey key => { b with ot := { b.ot with clusterKey := some key } }

/-- The effect of a whole batch, in the order it was collected. -/
def Buckets.applyBatch (b : Buckets) (ops : List BatchOp) : Buckets := ops.foldl Buckets.apply b

@[simp] theorem Buckets.applyBatch_nil (b : Buckets) : b.applyBatch [] = b := rfl

@[simp] theorem Buckets.applyBatch_append (b : Buckets) (ops more : List BatchOp) :
    b.applyBatch (ops ++ more) = (b.applyBatch ops).applyBatch more := List.foldl_append

@[simp] theorem Buckets.applyBatch_cons (b : Buckets) (op : BatchOp) (more : List BatchOp) :
    b.applyBatch (op :: more) = (b.apply op).applyBatch more := rfl

/-- The backend: its buckets, and the durable state after every commit, newest first, which is what a crash
    can leave behind. No operation reads that history. -/
structure Backend where
  buckets : Buckets
  commits : List Buckets

def Backend.empty : Backend := ⟨Buckets.empty,[]⟩

/-- A committed batch takes effect as a whole. -/
def Backend.commit (b : Backend) (ops : List BatchOp) : Backend :=
  ⟨b.buckets.applyBatch ops,b.buckets.applyBatch ops :: b.commits⟩

@[simp] theorem Backend.commit_buckets (b : Backend) (ops : List BatchOp) :
    (b.commit ops).buckets = b.buckets.applyBatch ops := rfl

end Kave
