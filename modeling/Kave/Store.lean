import Kave.TreeIndex
import Kave.Backend

/-! The multi-version store: its state, reading a range at a revision, and the write transaction. Locks only
    serialise the operations and are left out. -/

namespace Kave

/-- The errors of reads, writes and compaction requests. -/
inductive KvError
  /-- `future revision requested` -/
  | futureRevision
  /-- `ErrCompacted` -/
  | compacted
  /-- An error of the index, inside the messages of the writer. -/
  | index (cause : IndexError)
  /-- `compaction error: compaction target revision cannot be negative` -/
  | compactNegative
  /-- `compaction error: compaction target revision cannot be higher than current revision` -/
  | compactFuture
  /-- `compaction error: revision has been compacted away` -/
  | compactCompacted
deriving DecidableEq, Repr

structure KvStore where
  backend : Backend
  kvIndex : TreeIndex
  currentRev : Revision
  compactedMainRev : Int
  raftTerm : Nat
  applyIndex : Nat
  keyCount : Int

/-- A store over a backend, before `Restore`. -/
def KvStore.new (backend : Backend) : KvStore := ⟨backend,SortedMap.empty,Revision.zero,0,0,0,0⟩

/-- The entries of a read, the full number of live keys, and the highest revision met. -/
structure RangeResult where
  entries : List Entry
  count : Nat
  lastRev : Int
deriving DecidableEq, Repr

/-- `lastRev` of the entries of a read. -/
def lastRevOf (entries : List Entry) : Int :=
  entries.foldl (fun last e => if e.modRev > last then e.modRev else last) 0

/-- The second half of `doRange`: the revisions from the index, then their records. A missing record is only
    logged. -/
def fetchRange (kvIndex : TreeIndex) (readTx : Buckets) (targetRev : Int) (key : Bytes) (endKey : Option Bytes)
    (limit : Int) : RangeResult :=
  let (revpairs,total) := kvIndex.revisions key endKey targetRev limit
  if revpairs = [] then ⟨[],total,targetRev⟩
  else
    let lim := if limit ≤ 0 ∨ limit > revpairs.length then revpairs.length else limit.toNat
    let entries := (revpairs.take lim).filterMap fun rp =>
      readTx.kv.find? (KvBucketKey.encodeRevisionAsBucketKey rp)
    ⟨entries,total,lastRevOf entries⟩

def doRange (kvIndex : TreeIndex) (readTx : Buckets) (currRev compactedRev targetRev : Int) (key : Bytes)
    (endKey : Option Bytes) (limit : Int) : Except KvError RangeResult :=
  -- key and end both one zero byte fetch everything
  let fetchAll := key = [0] ∧ endKey = some [0]
  let key := if fetchAll then [] else key
  let endKey := if fetchAll then none else endKey
  if targetRev > currRev then .error .futureRevision
  else
    let targetRev := if targetRev ≤ 0 then currRev else targetRev
    if targetRev < compactedRev then .error .compacted
    else .ok (fetchRange kvIndex readTx targetRev key endKey limit)

namespace KvStore

def range (s : KvStore) (key : Bytes) (endKey : Option Bytes) (rev limit : Int) : Except KvError RangeResult :=
  doRange s.kvIndex s.backend.buckets s.currentRev.main s.compactedMainRev rev key endKey limit

def get (s : KvStore) (key : Bytes) (rev : Int) : Option Entry :=
  match s.range key none rev 1 with
  | .error _ => none
  | .ok result => result.entries.head?

end KvStore

/-- An open write transaction. The index of the store is changed in place, the backend at the end. -/
structure Writer where
  store : KvStore
  writeTx : List BatchOp
  startRev : Revision
  changes : List Entry
  newKeys : Int
  deletedKeys : Int

def KvStore.newWriter (s : KvStore) : Writer := ⟨s,[],s.currentRev,[],0,0⟩

namespace Writer

/-- Reads inside the transaction fetch records from the committed buckets. -/
def range (w : Writer) (key : Bytes) (endKey : Option Bytes) (targetRev limit : Int) : Except KvError RangeResult :=
  let targetMain := if targetRev ≤ 0 then w.startRev.main + 1 else targetRev
  let currentMain := if targetRev ≤ 0 then w.startRev.main + 1 else w.store.currentRev.main
  doRange w.store.kvIndex w.store.backend.buckets currentMain w.store.compactedMainRev targetMain key endKey limit

/-- The last change of the key in this transaction decides, unless a revision is asked for. -/
def get (w : Writer) (key : Bytes) (rev : Int) : Option Entry :=
  let changed := if rev ≤ 0 then w.changes.reverse.find? (·.key = key) else none
  match changed with
  | some entry => if entry.value.isNone then none else some entry
  | none =>
    match w.range key none rev 1 with
    | .error _ => none
    | .ok result => result.entries.head?

/-- The entry a put writes, from what the index answers for the key. -/
def putEntry (nextRev : Int) (found : Option (Revision × Revision × Int)) (key : Bytes) (value : Option Bytes)
    (leaseID : Int64) : Entry where
  key := key
  value := value
  createRev := (found.map (·.1.main)).getD nextRev
  modRev := nextRev
  version := (found.map (·.2.2)).getD 0 + 1
  leaseID := leaseID

def put (w : Writer) (key : Bytes) (value : Option Bytes) (leaseID : Int64) : Writer × Option KvError :=
  let nextRev := w.startRev.main + 1
  let found := (w.store.kvIndex.unsafeGet key nextRev).toOption
  let idxRev : Revision := ⟨nextRev,w.changes.length⟩
  let entry := putEntry nextRev found key value leaseID
  let w := { w with
    newKeys := if found.isSome then w.newKeys else w.newKeys + 1
    writeTx := w.writeTx ++ [BatchOp.putKv (KvBucketKey.encodeRevisionAsBucketKey idxRev) entry] }
  match w.store.kvIndex.put key idxRev with
  | .error e => (w,some (.index e))
  | .ok kvIndex => ({ w with store := { w.store with kvIndex := kvIndex }, changes := w.changes ++ [entry] },none)

def tombstoneEntry (nextRev : Int) (key : Bytes) : Entry := ⟨key,none,0,nextRev,0,0⟩

def deleteKey (w : Writer) (key : Bytes) : Writer × Option KvError :=
  let nextRev := w.startRev.main + 1
  let bk := KvBucketKey.newKvBucketKey nextRev w.changes.length true
  let entry := tombstoneEntry nextRev key
  let w := { w with
    deletedKeys := w.deletedKeys + 1
    writeTx := w.writeTx ++ [BatchOp.putKv bk entry] }
  match w.store.kvIndex.tombstone key bk.rev with
  | .error e => (w,some (.index e))
  | .ok kvIndex => ({ w with store := { w.store with kvIndex := kvIndex }, changes := w.changes ++ [entry] },none)

/-- The loop over the keys of a deleted range; the first error ends it. -/
def deleteKeys : List Bytes → Writer → Writer × Option KvError
  | [], w => (w,none)
  | key :: rest, w =>
    match w.deleteKey key with
    | (w,some e) => (w,some e)
    | (w,none) => deleteKeys rest w

def deleteRange (w : Writer) (key : Bytes) (endKey : Option Bytes) : Writer × Option KvError :=
  let startRev := if w.changes.length > 0 then w.startRev.main + 1 else w.startRev.main
  deleteKeys ((w.store.kvIndex.range key endKey startRev).map (·.1)) w

/-- Takes the changes back out of the index, newest first. -/
def dropChanges (nextRev : Int) (changes : List Entry) (ti : TreeIndex) : TreeIndex :=
  changes.zipIdx.reverse.foldl (fun ti (entry,i) => ti.dropRevision entry.key ⟨nextRev,i⟩) ti

def abort (w : Writer) : KvStore :=
  { w.store with kvIndex := dropChanges (w.startRev.main + 1) w.changes w.store.kvIndex }

/-- `End` with a commit that succeeds. -/
def endTx (w : Writer) : KvStore :=
  let s := w.store
  let hasChanges := w.changes ≠ []
  let currentRev : Revision := if hasChanges then ⟨s.currentRev.main + 1,0⟩ else s.currentRev
  let metaOps := if hasChanges then
      [.putCurrentRevision currentRev.main] ++
        if s.applyIndex > 0 then [.putRaftApplyIndex s.applyIndex,.putRaftTerm s.raftTerm] else []
    else []
  { s with
    currentRev := currentRev
    backend := s.backend.commit (w.writeTx ++ metaOps)
    keyCount := s.keyCount + (w.newKeys - w.deletedKeys) }

end Writer

/-- One call a transaction makes on its writer. -/
inductive Op
  | put (key : Bytes) (value : Option Bytes) (leaseID : Int64)
  | deleteKey (key : Bytes)
  | deleteRange (key : Bytes) (endKey : Option Bytes)
deriving DecidableEq, Repr

namespace Writer

/-- `DeleteKey` is `DeleteRange` without an end. -/
def runOp (w : Writer) : Op → Writer × Option KvError
  | .put key value leaseID => w.put key value leaseID
  | .deleteKey key => w.deleteRange key none
  | .deleteRange key endKey => w.deleteRange key endKey

def runOps : List Op → Writer → Writer × Option KvError
  | [], w => (w,none)
  | op :: rest, w =>
    match w.runOp op with
    | (w,some e) => (w,some e)
    | (w,none) => runOps rest w

theorem deleteKeys_invariant {P : Writer × Option KvError → Prop} (deleteKey : ∀ w key, P (w,none) → P (w.deleteKey key))
    (keys : List Bytes) {w : Writer} (start : P (w,none)) : P (deleteKeys keys w) := by
  induction keys generalizing w with
  | nil => exact start
  | cons key rest ih =>
    have one := deleteKey w key start
    rw [deleteKeys]
    generalize w.deleteKey key = run at one ⊢
    rcases run with ⟨w₁,_ | e⟩
    · exact ih one
    · exact one

/-- What single writes keep, whether they fail or not, the calls of a transaction keep. -/
theorem runOps_invariant {P : Writer × Option KvError → Prop}
    (put : ∀ w key value leaseID, P (w,none) → P (w.put key value leaseID))
    (deleteKey : ∀ w key, P (w,none) → P (w.deleteKey key)) (ops : List Op) {w : Writer} (start : P (w,none)) : P (runOps ops w) := by
  induction ops generalizing w with
  | nil => exact start
  | cons op rest ih =>
    have one : P (w.runOp op) := by
      cases op with
      | put key value leaseID => exact put w key value leaseID start
      | deleteKey key => exact deleteKeys_invariant deleteKey _ start
      | deleteRange key endKey => exact deleteKeys_invariant deleteKey _ start
    rw [runOps]
    generalize w.runOp op = run at one ⊢
    rcases run with ⟨w₁,_ | e⟩
    · exact ih one
    · exact one

end Writer

/-- A transaction: committed if all of its calls succeed, aborted otherwise. -/
def KvStore.txn (s : KvStore) (ops : List Op) : KvStore :=
  match Writer.runOps ops s.newWriter with
  | (w,none) => w.endTx
  | (w,some _) => w.abort

end Kave
