import Kave.Lease
import Kave.Ot

/-! The replicated state machine: one log entry at a time, over the store, the leases and the transfer. -/

namespace Kave

structure Log where
  index : Nat
  term : Nat
  /-- The decoded command, unless the bytes of the entry do not decode. -/
  data : Option Command
deriving DecidableEq, Repr

/-- A command in the first term. -/
def Log.plain (index : Nat) (request : Request) : Log := ⟨index,1,some (.full request)⟩

inductive ApplyError
  /-- The bytes of the entry are not those of a command. -/
  | decode
  | payload (cause : InvalidCommandPayloadError)
  | write (cause : WriteError)
  | lease (cause : LeaseError)
  | ot (cause : OtError)
deriving DecidableEq, Repr

/-- The one field of the result that is set. -/
inductive Answer
  | empty
  | kv (result : KvResult)
  | leaseGrant (ttl : Int) (leaseID : Int64)
  | leaseRevoke (found revoked : Bool)
  | leaseKeepAlive (ttl : Int) (leaseID : Int64)
  | leaseLookup (leaseID : Int64) (originalTTL remainingTTL : Int)
  /-- The channel of a started compaction, or why it was refused. -/
  | compaction (outcome : Except KvError Unit)
  | otWriteAll
deriving DecidableEq, Repr

structure Header where
  revision : Int
  raftTerm : Nat
  raftIndex : Nat
  nodeID : String
deriving DecidableEq, Repr

structure Result where
  header : Header
  error : Option ApplyError
  answer : Answer
deriving DecidableEq, Repr

def Result.empty : Result := ⟨⟨0,0,0,""⟩,none,.empty⟩

namespace KvStore

def updateInmemRaftMeta (s : KvStore) (logIndex term : Nat) : KvStore := { s with applyIndex := logIndex, raftTerm := term }

/-- `PersistRaftMeta`: a commit of its own. -/
def persistRaftMeta (s : KvStore) : KvStore :=
  { s with backend := s.backend.commit [.putRaftApplyIndex s.applyIndex,.putRaftTerm s.raftTerm] }

end KvStore

structure Fsm where
  store : KvStore
  lm : LeaseManager
  om : OTManager
  nodeID : String

namespace Fsm

/-- A node that starts on an empty backend. -/
def new (opts : OtOptions) (nodeID : String) : Fsm := ⟨KvStore.new Backend.empty,LeaseManager.new,OTManager.new opts,nodeID⟩

/-- What the switch of `Apply` leaves: the new state, the goroutine of an accepted compaction, and the result with the
    revision of its header. -/
abbrev Outcome := Fsm × Option Compaction × Except ApplyError (Answer × Int)

def applyKv (f : Fsm) (cmd : KvRequest) : Outcome :=
  let run := Engine.applyWrite f.store f.lm cmd
  ({ f with store := run.1.1, lm := run.1.2 },none,(run.2.mapError .write).map fun r => (.kv r.1,r.2))

/-- The state and the result of a lease command. -/
def ofLease {α : Type} (f : Fsm) (answer : α → Answer) (run : (LeaseManager × KvStore) × Except LeaseError α) : Outcome :=
  ({ f with lm := run.1.1, store := run.1.2 },none,(run.2.mapError .lease).map fun a => (answer a,0))

/-- The result of an expiry is only filled in on an error, when there is none. -/
def applyLease (f : Fsm) (env : Env) : LeaseRequest → Outcome
  | .grant id ttl => f.ofLease (fun l => .leaseGrant l.ttl l.id) (LeaseManager.grant env f.lm f.store id ttl)
  | .revoke id => f.ofLease (fun r => .leaseRevoke r.1 r.2) (LeaseManager.revoke env f.lm f.store id)
  | .keepAlive id => f.ofLease (fun ttl => .leaseKeepAlive ttl id) (LeaseManager.keepAlive env f.lm f.store id)
  | .lookup id => f.ofLease (fun l => .leaseLookup l.id l.ttl l.remainingTTL) ((f.lm,f.store),f.lm.lookup id)
  | .checkpoint checkpoints => f.ofLease (fun () => .empty) (f.lm.applyCheckpoint f.store checkpoints,.ok ())
  | .expire ids => f.ofLease (fun _ => .empty) (LeaseManager.applyExpired env f.lm f.store ids)

def applyCompaction (f : Fsm) (targetRev : Int) : Outcome :=
  let run := f.store.compact targetRev
  ({ f with store := run.1 },run.2.toOption,.ok (.compaction (run.2.map fun _ => ()),0))

def applyOT (f : Fsm) : OtRequest → Outcome
  | .writeAll blob =>
    let run := f.om.applyWriteAll f.store blob
    ({ f with store := run.1 },none,(run.2.mapError .ot).map fun _ => (.otWriteAll,0))
  | .generateClusterKey key =>
    let run := f.om.applyGenerateClusterKey f.store key
    ({ f with om := run.1.1, store := run.1.2 },none,(run.2.mapError .ot).map fun _ => (.empty,0))

/-- The switch of `Apply`. -/
def dispatch (f : Fsm) (env : Env) : Request → Outcome
  | .kv cmd => f.applyKv cmd
  | .lease cmd => f.applyLease env cmd
  | .compaction targetRev => f.applyCompaction targetRev
  | .ot cmd => f.applyOT cmd

/-- `Apply`, with the goroutine it starts. -/
def apply (f : Fsm) (env : Env) (log : Log) : Fsm × Option Compaction × Result :=
  if log.index ≤ f.store.applyIndex then (f,none,Result.empty)
  else
    match log.data with
    | none => (f,none,{ Result.empty with error := some .decode })
    | some cmd =>
      match cmd.check with
      | .error e => (f,none,{ Result.empty with error := some (.payload e) })
      | .ok request =>
        match dispatch { f with store := f.store.updateInmemRaftMeta log.index log.term } env request with
        | (f,started,.error e) => (f,started,⟨⟨0,log.term,log.index,f.nodeID⟩,some e,.empty⟩)
        | (f,started,.ok (answer,revision)) =>
          ({ f with store := f.store.persistRaftMeta },started,⟨⟨revision,log.term,log.index,f.nodeID⟩,none,answer⟩)

end Fsm

end Kave
