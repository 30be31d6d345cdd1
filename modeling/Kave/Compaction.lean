import Kave.Store

/-! Compaction of the store and its recovery from the buckets. `Compact` only checks and schedules; the work is
    done by a goroutine, of which `doCompact` here is the run without interruption. -/

namespace Kave

/-- A compaction the store has started: `doCompact` called with these arguments. -/
structure Compaction where
  targetRev : Int
  compactedRev : Int
deriving DecidableEq, Repr

def maxCompactionBatchSize : Nat := 100

/-- The callback of the scan over the visited keys: whether it stopped at a full batch, the batch, and the last
    revision visited before that. -/
def scanBatch (retain : List Revision) :
    List KvBucketKey → List KvBucketKey → Revision → Bool × List KvBucketKey × Revision
  | [], batch, last => (false,batch,last)
  | bk :: rest, batch, last =>
    if batch.length = maxCompactionBatchSize then (true,batch,last)
    else scanBatch retain rest (if bk.rev ∈ retain then batch else batch ++ [bk]) bk.rev

def nextMainRevOverflowing (r : Revision) (delta : Int) : Revision := ⟨r.main + delta,r.sub⟩

namespace KvStore

/-- `Compact`: the checks, the persisted schedule, and the goroutine to start. -/
def compact (s : KvStore) (rev : Int) : KvStore × Except KvError Compaction :=
  if rev < 0 then (s,.error .compactNegative)
  else if rev > s.currentRev.main then (s,.error .compactFuture)
  else if rev ≤ s.compactedMainRev then (s,.error .compactCompacted)
  else ({ s with backend := s.backend.commit [.putScheduledCompactedRev rev] },.ok ⟨rev,s.compactedMainRev⟩)

/-- One write transaction of the delete loop: whether the loop is `done` with it, and the last revision visited. -/
def deleteBatch (s : KvStore) (targetRev : Int) (retain : List Revision) (start : KvBucketKey) (done : Bool) :
    KvStore × Bool × Revision :=
  let endExcluded := KvBucketKey.encodeRevisionAsBucketKey ⟨targetRev + 1,0⟩
  let visited := (s.backend.buckets.kv.ascend start fun bk => bk < endExcluded).map (·.1)
  let (full,batch,lastRevVisited) := scanBatch retain visited [] Revision.zero
  let done := done || !full || batch.length < maxCompactionBatchSize
  let finished := if done then [.putFinishedCompactedRev targetRev] else []
  ({ s with backend := s.backend.commit (batch.map .deleteKv ++ finished) },done,lastRevVisited)

/-- A batch, and where the next one starts unless this was the last. -/
def compactBatch (s : KvStore) (targetRev : Int) (retain : List Revision) (start : KvBucketKey) :
    KvStore × Option KvBucketKey :=
  let (s,done,lastRevVisited) := s.deleteBatch targetRev retain start false
  (s,if done then none else some (KvBucketKey.encodeRevisionAsBucketKey (nextMainRevOverflowing lastRevVisited 1)))

/-- The delete loop; every pass but the last removes a full batch, so the fuel only has to exceed the records. Behind a
    revision without a `next` one the loop is done, but it only looks at this after another batch. -/
def batchLoop (next : Revision → Option Revision) (targetRev : Int) (retain : List Revision) :
    Nat → KvBucketKey → Bool → KvStore → Option KvStore
  | 0, _, _, _ => none
  | fuel + 1, start, done, s =>
    match s.deleteBatch targetRev retain start done with
    | (s,true,_) => some s
    | (s,false,lastRevVisited) =>
      match next lastRevVisited with
      | some nextRev => batchLoop next targetRev retain fuel (KvBucketKey.encodeRevisionAsBucketKey nextRev) false s
      | none => batchLoop next targetRev retain fuel start true s

/-- The loop below the largest revisions, where there is always a next one. -/
def compactBatches (targetRev : Int) (retain : List Revision) (fuel : Nat) (start : KvBucketKey) (s : KvStore) : KvStore :=
  (batchLoop (fun r => some (nextMainRevOverflowing r 1)) targetRev retain fuel start false s).getD s

def doCompact (s : KvStore) (c : Compaction) : KvStore :=
  match s.kvIndex.compact c.targetRev with
  | (kvIndex,.error _) => { s with kvIndex := kvIndex }
  | (kvIndex,.ok retain) =>
    let start := KvBucketKey.encodeRevisionAsBucketKey ⟨c.compactedRev,0⟩
    let s := compactBatches c.targetRev retain (s.backend.buckets.kv.entries.length + 1) start
      { s with kvIndex := kvIndex }
    { s with compactedMainRev := c.targetRev }

/-- A compaction request whose goroutine runs to its end before anything else happens. -/
def compactToEnd (s : KvStore) (rev : Int) : KvStore :=
  match s.compact rev with
  | (s,.error _) => s
  | (s,.ok c) => s.doCompact c

/-- The callback of the scan in `Restore`; an error of the index is only logged. -/
def restoreEntry (ti : TreeIndex) (bk : KvBucketKey) (entry : Entry) : TreeIndex :=
  (if bk.tombstone then ti.tombstone entry.key bk.rev else ti.put entry.key bk.rev).toOption.getD ti

def restoreIndex (kv : KvBucket) : TreeIndex :=
  kv.entries.foldl (fun ti e => restoreEntry ti e.1 e.2) SortedMap.empty

/-- `Restore`, which never fails, and the compaction it resumes. -/
def restore (s : KvStore) : KvStore × Option Compaction :=
  let b := s.backend.buckets
  let lastRev := (b.kv.entries.getLast?.map (·.1.rev)).getD Revision.zero
  let finishedCompactedRev := b.metadata.finishedCompactedRev.getD 0
  let scheduledCompactedRev := b.metadata.scheduledCompactedRev.getD 0
  let interrupted := scheduledCompactedRev > finishedCompactedRev
  ({ s with
      kvIndex := restoreIndex b.kv
      raftTerm := b.metadata.raftTerm.getD 0
      applyIndex := b.metadata.raftApplyIndex.getD 0
      currentRev := lastRev
      compactedMainRev := if interrupted then scheduledCompactedRev else finishedCompactedRev
      keyCount := b.kv.entries.length },
    if interrupted then some ⟨scheduledCompactedRev,finishedCompactedRev⟩ else none)

end KvStore

end Kave
