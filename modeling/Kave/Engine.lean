import Kave.Command

/-! Applying put, delete and txn commands. The engine knows writers and lease attachments through interfaces only, so it
    runs over the writer of the store and over the abstract map alike. -/

namespace Kave

/-- The interface `Writer`. -/
class TxWriter (W : Type) where
  get : W → Bytes → Int → Option Entry
  range : W → Bytes → Option Bytes → Int → Int → Except KvError RangeResult
  put : W → Bytes → Option Bytes → Int64 → W × Option KvError
  deleteRange : W → Bytes → Option Bytes → W × Option KvError
  /-- The main part of `StartRevision`. -/
  startMain : W → Int
  /-- The changes of `UnsafeExpectedChanges`. -/
  changes : W → List Entry

class LeaseAttacher (A : Type) where
  attachKey : A → Int64 → Bytes → A
  detachKey : A → Int64 → Bytes → A

instance : TxWriter Writer where
  get := Writer.get
  range := Writer.range
  put := Writer.put
  deleteRange := Writer.deleteRange
  startMain w := w.startRev.main
  changes := Writer.changes

inductive TxnError
  /-- `invalid operation: …` -/
  | invalidOperation (cause : TxnOpError)
  /-- `error during PUT op: …` -/
  | put (cause : KvError)
  /-- `error during prev entries retrieval on DELETE op: …` -/
  | prevEntries (cause : KvError)
  /-- `error during DELETE op: …` -/
  | delete (cause : KvError)
  /-- `error during RANGE op: …` -/
  | range (cause : KvError)
deriving DecidableEq, Repr

inductive WriteError
  /-- `ErrKeyNotFound` -/
  | keyNotFound
  /-- `applyPut failed: …` -/
  | applyPut (cause : KvError)
  /-- `applyDelete failed: …` -/
  | applyDelete (cause : KvError)
  /-- `applyTxn failed: …` -/
  | applyTxn (cause : TxnError)
deriving DecidableEq, Repr

namespace Engine

section

variable {W A : Type} [TxWriter W] [LeaseAttacher A]

open TxWriter LeaseAttacher

def applyPut (w : W) (a : A) (cmd : PutRequest) : (W × A) × Except WriteError ResultPut :=
  let prev := get w cmd.key 0
  if prev = none ∧ (cmd.ignoreLease ∨ cmd.ignoreValue) then ((w,a),.error .keyNotFound)
  else
    let value := if cmd.ignoreValue then prev.bind (·.value) else cmd.value
    let leaseID := if cmd.ignoreLease then (prev.map (·.leaseID)).getD 0 else cmd.leaseID
    match put w cmd.key value leaseID with
    | (w,some e) => ((w,a),.error (.applyPut e))
    | (w,none) =>
      let prevLease := (prev.map (·.leaseID)).getD 0
      let a := if prevLease ≠ 0 ∧ prevLease ≠ leaseID then detachKey a prevLease cmd.key else a
      -- the lease of the command is attached, also if the entry keeps another one
      let a := if leaseID ≠ 0 then attachKey a cmd.leaseID cmd.key else a
      ((w,a),.ok ⟨if cmd.prevEntry then prev else none⟩)

/-- The entries before a deletion, if they are asked for. -/
def prevEntries (w : W) (cmd : DeleteRequest) : Except KvError (List Entry) :=
  if cmd.prevEntries then (range w cmd.key cmd.endKey 0 0).map (·.entries) else .ok []

def detachAll (a : A) (entries : List Entry) : A :=
  entries.foldl (fun a e => if e.leaseID ≠ 0 then detachKey a e.leaseID e.key else a) a

def applyDelete (w : W) (a : A) (cmd : DeleteRequest) : (W × A) × Except WriteError ResultDelete :=
  match prevEntries w cmd with
  | .error e => ((w,a),.error (.applyDelete e))
  | .ok prevs =>
    match deleteRange w cmd.key cmd.endKey with
    | (w,some e) => ((w,a),.error (.applyDelete e))
    | (w,none) => ((w,detachAll a prevs),.ok ⟨(changes w).length,prevs⟩)

def evalCondition (w : W) (cmps : List Comparison) : Bool := cmps.all fun cmp => cmp.eval (get w cmp.key 0)

/-- One operation that has passed its check. The number of deletions is that of all changes so far. -/
def applyTxnOp (w : W) : CheckedOp → W × Except TxnError TxnOpResult
  | .put request =>
    let prev := if request.prevEntry then get w request.key 0 else none
    match put w request.key request.value request.leaseID with
    | (w,some e) => (w,.error (.put e))
    | (w,none) => (w,.ok (.put ⟨prev⟩))
  | .delete request =>
    match prevEntries w request with
    | .error e => (w,.error (.prevEntries e))
    | .ok prevs =>
      match deleteRange w request.key request.endKey with
      | (w,some e) => (w,.error (.delete e))
      | (w,none) => (w,.ok (.delete ⟨(changes w).length,prevs⟩))
  | .range request =>
    let endKey := if request.isPrefix then prefixEnd request.key else request.endKey
    match range w request.key endKey request.revision request.limit with
    | .error e => (w,.error (.range e))
    | .ok result => (w,.ok (.range ⟨result.entries,result.count⟩))

def applyTxnOps : List TxnOp → W → W × Except TxnError (List TxnOpResult)
  | [], w => (w,.ok [])
  | op :: rest, w =>
    match op.check with
    | .error e => (w,.error (.invalidOperation e))
    | .ok op =>
      match applyTxnOp w op with
      | (w,.error e) => (w,.error e)
      | (w,.ok result) =>
        match applyTxnOps rest w with
        | (w,.error e) => (w,.error e)
        | (w,.ok results) => (w,.ok (result :: results))

def applyTxn (w : W) (cmd : TxnRequest) : W × Except WriteError ResultTxn :=
  let cond := evalCondition w cmd.comparisons
  match applyTxnOps (if cond then cmd.success else cmd.failure) w with
  | (w,.error e) => (w,.error (.applyTxn e))
  | (w,.ok results) => (w,.ok ⟨cond,results⟩)

end

end Engine

inductive KvResult
  | put (result : ResultPut)
  | delete (result : ResultDelete)
  | txn (result : ResultTxn)
deriving DecidableEq, Repr

namespace Engine

variable {W A : Type} [TxWriter W] [LeaseAttacher A]

/-- The part of `ApplyWrite` before `End` or `Abort`. -/
def applyRequest (w : W) (a : A) : KvRequest → (W × A) × Except WriteError KvResult
  | .put cmd => (applyPut w a cmd).map id (·.map .put)
  | .delete cmd => (applyDelete w a cmd).map id (·.map .delete)
  | .txn cmd => (applyTxn w cmd).map (·,a) (·.map .txn)

def headerRevision (w : W) : Int :=
  if TxWriter.changes w ≠ [] then TxWriter.startMain w + 1 else TxWriter.startMain w

/-- `ApplyWrite`: the result comes with the revision of its header. -/
def applyWrite (s : KvStore) (a : A) (cmd : KvRequest) : (KvStore × A) × Except WriteError (KvResult × Int) :=
  match applyRequest s.newWriter a cmd with
  | ((w,a),.error e) => ((w.abort,a),.error e)
  | ((w,a),.ok result) => ((w.endTx,a),.ok (result,headerRevision w))

end Engine

end Kave
