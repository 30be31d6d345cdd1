import Kave.Store

/-! The commands of the log, the checks of their requests, the comparisons of a transaction and the results. Requests keep
    the fields that are read while a command is applied. -/

namespace Kave

structure PutRequest where
  key : Bytes
  value : Option Bytes
  leaseID : Int64
  prevEntry : Bool
  ignoreValue : Bool
  ignoreLease : Bool
deriving DecidableEq, Repr

/-- A put without flags. -/
def PutRequest.plain (key value : Bytes) (leaseID : Int64) : PutRequest := ⟨key,some value,leaseID,false,false,false⟩

structure DeleteRequest where
  key : Bytes
  endKey : Option Bytes
  prevEntries : Bool
deriving DecidableEq, Repr

structure RangeRequest where
  key : Bytes
  endKey : Option Bytes
  limit : Int
  revision : Int
  isPrefix : Bool
deriving DecidableEq, Repr

inductive RequestError
  /-- `key is required` -/
  | keyRequired
  /-- `value is required` -/
  | valueRequired
  /-- `lease id cannot be negative` -/
  | negativeLease
  /-- `limit cannot be negative` -/
  | negativeLimit
  /-- `revision cannot be negative` -/
  | negativeRevision
deriving DecidableEq, Repr

def PutRequest.check (r : PutRequest) : Except RequestError Unit :=
  if r.key = [] then .error .keyRequired
  else if r.value.getD [] = [] ∧ ¬ r.ignoreValue then .error .valueRequired
  else if r.leaseID < 0 ∧ ¬ r.ignoreLease then .error .negativeLease
  else .ok ()

def DeleteRequest.check (r : DeleteRequest) : Except RequestError Unit :=
  if r.key = [] then .error .keyRequired else .ok ()

def RangeRequest.check (r : RangeRequest) : Except RequestError Unit :=
  if r.key = [] ∧ ¬ r.isPrefix then .error .keyRequired
  else if r.limit < 0 then .error .negativeLimit
  else if r.revision < 0 then .error .negativeRevision
  else .ok ()

/-- The loop of `PrefixEnd`, over the prefix from its last byte on. -/
def prefixEndLoop : Bytes → Option Bytes
  | [] => none
  | b :: rest => if b < 0xFF then some ((b + 1) :: rest).reverse else prefixEndLoop rest

def prefixEnd (p : Bytes) : Option Bytes := prefixEndLoop p.reverse

/-! ### Comparisons -/

/-- An operator of a comparison; the type of the source is a text, of which any other value is `unknown`. -/
inductive ComparisonOperator
  | equal
  | greaterThan
  | greaterEqual
  | lessThan
  | lessEqual
  | notEqual
  | unknown
deriving DecidableEq, Repr

inductive CompareTargetField
  | value
  | createRev
  | mod
  | version
  | unknown
deriving DecidableEq, Repr

/-- The values of both sides; a nil value compares as an empty one. -/
structure CompareTargetUnion where
  value : Bytes
  createRevision : Int
  modRevision : Int
  version : Int
deriving DecidableEq, Repr

structure Comparison where
  key : Bytes
  operator : ComparisonOperator
  targetField : CompareTargetField
  targetValue : CompareTargetUnion
deriving DecidableEq, Repr

namespace Comparison

def eq (field : CompareTargetField) (a b : CompareTargetUnion) : Bool :=
  match field with
  | .value => a.value = b.value
  | .createRev => a.createRevision = b.createRevision
  | .mod => a.modRevision = b.modRevision
  | .version => a.version = b.version
  | .unknown => false

def gt (field : CompareTargetField) (a b : CompareTargetUnion) : Bool :=
  match field with
  | .value => b.value < a.value
  | .createRev => a.createRevision > b.createRevision
  | .mod => a.modRevision > b.modRevision
  | .version => a.version > b.version
  | .unknown => false

def lt (field : CompareTargetField) (a b : CompareTargetUnion) : Bool :=
  match field with
  | .value => a.value < b.value
  | .createRev => a.createRevision < b.createRevision
  | .mod => a.modRevision < b.modRevision
  | .version => a.version < b.version
  | .unknown => false

def evalOperator (op : ComparisonOperator) (field : CompareTargetField) (a b : CompareTargetUnion) : Bool :=
  match op with
  | .equal => eq field a b
  | .greaterThan => gt field a b
  | .greaterEqual => gt field a b || eq field a b
  | .lessThan => lt field a b
  | .lessEqual => lt field a b || eq field a b
  | .notEqual => !eq field a b
  | .unknown => false

/-- The side that is read from the entry; a missing entry compares as one with zero fields. -/
def target (field : CompareTargetField) (entry : Option Entry) : CompareTargetUnion :=
  match field with
  | .version => ⟨[],0,0,(entry.map (·.version)).getD 0⟩
  | .createRev => ⟨[],(entry.map (·.createRev)).getD 0,0,0⟩
  | .mod => ⟨[],0,(entry.map (·.modRev)).getD 0,0⟩
  | .value => ⟨(entry.bind (·.value)).getD [],0,0,0⟩
  | .unknown => ⟨[],0,0,0⟩

def eval (c : Comparison) (entry : Option Entry) : Bool :=
  evalOperator c.operator c.targetField (target c.targetField entry) c.targetValue

end Comparison

/-! ### Transactions -/

/-- An operation of a transaction with the request its type names, which may be missing; a type that is none of the three
    is `unknown`. -/
inductive TxnOp
  | put (request : Option PutRequest)
  | delete (request : Option DeleteRequest)
  | range (request : Option RangeRequest)
  | unknown
deriving DecidableEq, Repr

inductive TxnOpError
  /-- `txn_put: put request is required` -/
  | putRequired
  /-- `txn_put: …` -/
  | txnPut (cause : RequestError)
  /-- `txn_delete: delete request is required` -/
  | deleteRequired
  /-- `txn_delete: …` -/
  | txnDelete (cause : RequestError)
  /-- `txn_range: range request is required` -/
  | rangeRequired
  /-- `txn_range: …` -/
  | txnRange (cause : RequestError)
  /-- `invalid txn_operation type: …` -/
  | invalidType
deriving DecidableEq, Repr

/-- `Check`, and the request it has found in place. -/
inductive CheckedOp
  | put (request : PutRequest)
  | delete (request : DeleteRequest)
  | range (request : RangeRequest)
deriving DecidableEq, Repr

def TxnOp.check : TxnOp → Except TxnOpError CheckedOp
  | .put none => .error .putRequired
  | .put (some r) => (r.check.mapError .txnPut).map fun _ => .put r
  | .delete none => .error .deleteRequired
  | .delete (some r) => (r.check.mapError .txnDelete).map fun _ => .delete r
  | .range none => .error .rangeRequired
  | .range (some r) => (r.check.mapError .txnRange).map fun _ => .range r
  | .unknown => .error .invalidType

structure TxnRequest where
  comparisons : List Comparison
  success : List TxnOp
  failure : List TxnOp
deriving DecidableEq, Repr

/-! ### Results -/

structure ResultPut where
  prevEntry : Option Entry
deriving DecidableEq, Repr

structure ResultDelete where
  numDeleted : Nat
  prevEntries : List Entry
deriving DecidableEq, Repr

structure ResultRange where
  entries : List Entry
  count : Nat
deriving DecidableEq, Repr

inductive TxnOpResult
  | put (result : ResultPut)
  | delete (result : ResultDelete)
  | range (result : ResultRange)
deriving DecidableEq, Repr

structure ResultTxn where
  success : Bool
  results : List TxnOpResult
deriving DecidableEq, Repr

/-! ### Commands -/

structure Checkpoint where
  leaseID : Int64
  remainingTTL : Int
deriving DecidableEq, Repr

inductive KvRequest
  | put (cmd : PutRequest)
  | delete (cmd : DeleteRequest)
  | txn (cmd : TxnRequest)
deriving DecidableEq, Repr

inductive LeaseRequest
  | grant (leaseID : Int64) (ttl : Int)
  | revoke (leaseID : Int64)
  | keepAlive (leaseID : Int64)
  | lookup (leaseID : Int64)
  | checkpoint (checkpoints : List Checkpoint)
  | expire (expiredIDs : List Int64)
deriving DecidableEq, Repr

inductive OtRequest
  | writeAll (blob : Option Bytes)
  | generateClusterKey (key : Bytes)
deriving DecidableEq, Repr

/-- A command whose payload is in place, grouped as `Apply` handles them. -/
inductive Request
  | kv (cmd : KvRequest)
  | lease (cmd : LeaseRequest)
  | compaction (targetRev : Int)
  | ot (cmd : OtRequest)
deriving DecidableEq, Repr

inductive CmdKind
  | put
  | delete
  | txn
  | leaseGrant
  | leaseRevoke
  | leaseKeepAlive
  | leaseLookup
  | leaseCheckpoint
  | leaseExpire
  | compaction
  | otWriteAll
  | otGenerateClusterKey
deriving DecidableEq, Repr

/-- A decoded command: the payload of its kind, if it has one. Payloads of other kinds are never looked at. -/
inductive Command
  | missing (kind : CmdKind)
  | full (request : Request)
deriving DecidableEq, Repr

/-- `command error: invalid or nil payload or command kind …` -/
structure InvalidCommandPayloadError where
  kind : CmdKind
deriving DecidableEq, Repr

/-- `Check`, and the payload it has found in place. -/
def Command.check : Command → Except InvalidCommandPayloadError Request
  | .missing kind => .error ⟨kind⟩
  | .full request => .ok request

end Kave
