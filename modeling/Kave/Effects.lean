import Kave.Concurrent
import Kave.Fsm
import Kave.Layers
import Kave.Simulation
import Kave.Undo

/-! What an entry of the log does to the store, whatever its command is: it commits a transaction, takes one back, or
    leaves index and records alone. -/

namespace Kave

open TreeIndex

/-! ### The engine -/

/-- A transaction on the store `s` that is still open, as the chain of its writes. -/
def Writer.Chained (s : KvStore) (w : Writer) : Prop :=
  ∃ more ws, s.newWriter.Extends w more ∧ ws.length = more.length ∧ Chain (s.currentRev.main + 1) 0 s.content ws w.content

namespace Writer.Chained

variable {s : KvStore} {w : Writer}

theorem new (s : KvStore) : s.newWriter.Chained s := ⟨[],[],Writer.Extends.refl _,rfl,Chain.nil _ _⟩

theorem fresh (chained : w.Chained s) (settled : s.Settled) : w.Fresh := by
  obtain ⟨more,ws,extends_,count,chain⟩ := chained
  exact settled.fresh.next extends_ count chain

private theorem append {w' : Writer} {more' : List Entry} {ws' : List Write} (chained : w.Chained s)
    (extends_ : w.Extends w' more') (count : ws'.length = more'.length)
    (chain : Chain (w.startRev.main + 1) w.changes.length w.content ws' w'.content) : w'.Chained s := by
  obtain ⟨more,ws,before,length,written⟩ := chained
  have position : w.changes.length = 0 + ws.length := by
    rw [before.changes,List.length_append,length]
    rfl
  rw [before.startRev,position] at chain
  refine ⟨more ++ more',ws ++ ws',before.trans extends_,?_,written.append chain⟩
  rw [List.length_append,List.length_append,length,count]

theorem put (chained : w.Chained s) (settled : s.Settled) (key : Bytes) (value : Option Bytes) (leaseID : Int64) :
    (w.put key value leaseID).1.Chained s := by
  obtain ⟨w',run,extends_,step⟩ := w.put_spec (chained.fresh settled) key value leaseID
  rw [run]
  exact chained.append extends_ rfl (.cons step (.nil _ _))

theorem deleteRange (chained : w.Chained s) (settled : s.Settled) (key : Bytes) (endKey : Option Bytes) :
    (w.deleteRange key endKey).1.Chained s := by
  obtain ⟨m,domain⟩ := w.content.exists_domain (w.startRev.main + 1)
  obtain ⟨w',run,extends_,chain⟩ := w.deleteRange_spec (chained.fresh settled) domain key endKey
  rw [run]
  exact chained.append extends_ (by simp) chain

theorem endTx (chained : w.Chained s) : ∃ ws, Committed s w.endTx ws := by
  obtain ⟨more,ws,extends_,count,chain⟩ := chained
  exact ⟨ws,Writer.endTx_spec extends_ count chain⟩

end Writer.Chained

/-- The call on the writer that an operation of a transaction makes. -/
def TxnOp.call? : TxnOp → Option Op
  | .put (some r) => some (.put r.key r.value r.leaseID)
  | .delete (some r) => some (.deleteRange r.key r.endKey)
  | _ => none

theorem TxnOp.check_cases {op : TxnOp} {checked : CheckedOp} (passes : op.check = .ok checked) :
    (∃ r, op = .put (some r) ∧ checked = .put r) ∨ (∃ r, op = .delete (some r) ∧ checked = .delete r) ∨
      ∃ r, op = .range (some r) ∧ checked = .range r := by
  match op with
  | .unknown | .put none | .delete none | .range none => cases passes
  | .put (some r) =>
    cases run : r.check with
    | error e => simp [TxnOp.check,run,Except.mapError,Except.map] at passes
    | ok u => exact Or.inl ⟨r,rfl,by simpa [TxnOp.check,run,Except.mapError,Except.map] using passes.symm⟩
  | .delete (some r) =>
    cases run : r.check with
    | error e => simp [TxnOp.check,run,Except.mapError,Except.map] at passes
    | ok u => exact Or.inr (Or.inl ⟨r,rfl,by simpa [TxnOp.check,run,Except.mapError,Except.map] using passes.symm⟩)
  | .range (some r) =>
    cases run : r.check with
    | error e => simp [TxnOp.check,run,Except.mapError,Except.map] at passes
    | ok u => exact Or.inr (Or.inr ⟨r,rfl,by simpa [TxnOp.check,run,Except.mapError,Except.map] using passes.symm⟩)

theorem Writer.runOps_append {ops : List Op} {w w' : Writer} (run : runOps ops w = (w',none)) (more : List Op) :
    runOps (ops ++ more) w = runOps more w' := by
  induction ops generalizing w with
  | nil =>
    cases run
    rfl
  | cons op rest ih =>
    rw [List.cons_append,runOps]
    rw [runOps] at run
    generalize w.runOp op = first at run ⊢
    obtain ⟨w₁,e⟩ := first
    cases e with
    | some e => cases run
    | none => exact ih run

namespace Engine

section

variable {W : Type} [TxWriter W]

/-- The operations of a transaction that its comparisons choose. -/
def branch (w : W) (cmd : TxnRequest) : List TxnOp :=
  if evalCondition w cmd.comparisons then cmd.success else cmd.failure

/-- The calls on the writer that change something, if none of the operations fails. -/
def calls (w : W) : KvRequest → List Op
  | .put cmd =>
    let prev := TxWriter.get w cmd.key 0
    [.put cmd.key (if cmd.ignoreValue then prev.bind (·.value) else cmd.value)
      (if cmd.ignoreLease then (prev.map (·.leaseID)).getD 0 else cmd.leaseID)]
  | .delete cmd => [.deleteRange cmd.key cmd.endKey]
  | .txn cmd => (branch w cmd).filterMap TxnOp.call?

theorem applyTxnOps_cons {op : TxnOp} {rest : List TxnOp} {w w' : W} {results : List TxnOpResult}
    (run : applyTxnOps (op :: rest) w = (w',.ok results)) :
    ∃ checked w₁ result later, op.check = .ok checked ∧ applyTxnOp w checked = (w₁,.ok result) ∧
      applyTxnOps rest w₁ = (w',.ok later) ∧ results = result :: later := by
  rw [applyTxnOps] at run
  cases check : op.check with
  | error e => simp [check] at run
  | ok checked =>
    rcases first : applyTxnOp w checked with ⟨w₁,e | result⟩
    · simp [check,first] at run
    · rcases others : applyTxnOps rest w₁ with ⟨w₂,e | later⟩
      · simp [check,first,others] at run
      · simp only [check,first,others,Prod.mk.injEq,Except.ok.injEq] at run
        exact ⟨checked,w₁,result,later,rfl,first,by rw [← run.1]; exact others,run.2.symm⟩

end

theorem applyTxnOp_call {op : TxnOp} {checked : CheckedOp} (passes : op.check = .ok checked) {w w' : Writer}
    {result : TxnOpResult} (run : applyTxnOp w checked = (w',.ok result)) :
    Writer.runOps op.call?.toList w = (w',none) := by
  rcases TxnOp.check_cases passes with ⟨r,rfl,rfl⟩ | ⟨r,rfl,rfl⟩ | ⟨r,rfl,rfl⟩
  · change Writer.runOps [.put r.key r.value r.leaseID] w = _
    rw [Writer.runOps,Writer.runOp,show w.put r.key r.value r.leaseID = TxWriter.put w r.key r.value r.leaseID from rfl]
    unfold applyTxnOp at run
    simp only at run
    generalize TxWriter.put w r.key r.value r.leaseID = call at run ⊢
    obtain ⟨w₁,e⟩ := call
    cases e with
    | some e => simp at run
    | none =>
      obtain rfl : w₁ = w' := congrArg Prod.fst run
      rfl
  · change Writer.runOps [.deleteRange r.key r.endKey] w = _
    rw [Writer.runOps,Writer.runOp,show w.deleteRange r.key r.endKey = TxWriter.deleteRange w r.key r.endKey from rfl]
    unfold applyTxnOp at run
    cases prevs : prevEntries w r with
    | error e => simp [prevs] at run
    | ok entries =>
      simp only [prevs] at run
      generalize TxWriter.deleteRange w r.key r.endKey = call at run ⊢
      obtain ⟨w₁,e⟩ := call
      cases e with
      | some e => simp at run
      | none =>
        obtain rfl : w₁ = w' := congrArg Prod.fst run
        rfl
  · change (w,none) = _
    unfold applyTxnOp at run
    simp only at run
    split at run
    · simp at run
    · obtain rfl : w = w' := congrArg Prod.fst run
      rfl

theorem applyTxnOps_calls {ops : List TxnOp} {w w' : Writer} {results : List TxnOpResult}
    (run : applyTxnOps ops w = (w',.ok results)) : Writer.runOps (ops.filterMap TxnOp.call?) w = (w',none) := by
  induction ops generalizing w results with
  | nil =>
    cases run
    rfl
  | cons op rest ih =>
    obtain ⟨checked,w₁,result,later,passes,first,second,-⟩ := applyTxnOps_cons run
    have split : (op :: rest).filterMap TxnOp.call? = op.call?.toList ++ rest.filterMap TxnOp.call? := by
      rw [List.filterMap_cons]
      cases op.call? <;> rfl
    rw [split,Writer.runOps_append (applyTxnOp_call passes first)]
    exact ih second

variable {A : Type} [LeaseAttacher A]

theorem applyRequest_txn_ran {w w' : Writer} {a a' : A} {cmd : TxnRequest} {result : KvResult}
    (run : applyRequest w a (.txn cmd) = ((w',a'),.ok result)) :
    ∃ results, applyTxnOps (branch w cmd) w = (w',.ok results) := by
  have chosen : (if evalCondition w cmd.comparisons then cmd.success else cmd.failure) = branch w cmd := rfl
  unfold applyRequest applyTxn at run
  simp only [chosen] at run
  cases ops : applyTxnOps (branch w cmd) w with
  | mk w₁ outcome =>
    rw [ops] at run
    cases outcome with
    | error e => simp [Except.map] at run
    | ok results =>
      obtain rfl : w₁ = w' := congrArg (fun p => p.1.1) run
      exact ⟨results,rfl⟩

theorem applyRequest_delete_ok {w w' : Writer} {a a' : A} {cmd : DeleteRequest} {result : KvResult}
    (run : applyRequest w a (.delete cmd) = ((w',a'),.ok result)) :
    ∃ entries, prevEntries w cmd = .ok entries ∧ w.deleteRange cmd.key cmd.endKey = (w',none) ∧ a' = detachAll a entries := by
  unfold applyRequest applyDelete at run
  cases prevs : prevEntries w cmd with
  | error e => simp [prevs,Except.map] at run
  | ok entries =>
    simp only [prevs] at run
    rcases call : TxWriter.deleteRange w cmd.key cmd.endKey with ⟨w₁,_ | e⟩
    · rw [call] at run
      obtain rfl : w₁ = w' := congrArg (fun p => p.1.1) run
      exact ⟨entries,rfl,call,(congrArg (fun p => p.1.2) run).symm⟩
    · simp [call,Except.map] at run

/-- A request that succeeds makes exactly these calls. -/
theorem applyRequest_calls {w w' : Writer} {a a' : A} {cmd : KvRequest} {result : KvResult}
    (run : applyRequest w a cmd = ((w',a'),.ok result)) : Writer.runOps (calls w cmd) w = (w',none) := by
  cases cmd with
  | put cmd =>
    have call : ∀ value leaseID, w.put cmd.key value leaseID = TxWriter.put w cmd.key value leaseID := fun _ _ => rfl
    rw [calls,Writer.runOps,Writer.runOp,call]
    unfold applyRequest applyPut at run
    simp only at run
    split at run
    · cases run
    · generalize TxWriter.put w cmd.key _ _ = call at run ⊢
      obtain ⟨w₁,e⟩ := call
      cases e with
      | some e => simp [Except.map] at run
      | none =>
        obtain rfl : w₁ = w' := congrArg (fun p => p.1.1) run
        rfl
  | delete cmd =>
    obtain ⟨entries,-,call,-⟩ := applyRequest_delete_ok run
    rw [calls,Writer.runOps,Writer.runOp,call]
    rfl
  | txn cmd =>
    obtain ⟨results,ops⟩ := applyRequest_txn_ran run
    exact applyTxnOps_calls ops

/-- A command that succeeds leaves the store that the transaction of its calls leaves. -/
theorem applyWrite_eq_txn {s : KvStore} {a : A} {cmd : KvRequest} {result : KvResult × Int}
    (run : (applyWrite s a cmd).2 = .ok result) : (applyWrite s a cmd).1.1 = s.txn (calls s.newWriter cmd) := by
  unfold applyWrite at run ⊢
  cases request : applyRequest s.newWriter a cmd with
  | mk state outcome =>
    obtain ⟨w,a'⟩ := state
    rw [request] at run
    cases outcome with
    | error e => cases run
    | ok result =>
      simp only
      rw [KvStore.txn,applyRequest_calls request]

theorem applyRequest_writer {s : KvStore} (settled : s.Settled) (a : A) (cmd : KvRequest) :
    (applyRequest s.newWriter a cmd).1.1.Opened s ∧ (applyRequest s.newWriter a cmd).1.1.Chained s := by
  refine (applyRequest_invariant (P := fun w : Writer => w.Opened s ∧ w.Chained s) (Q := fun _ : A => True) ?_ ?_
    (fun _ _ _ _ => trivial) (fun _ _ _ _ => trivial) ⟨.new settled,.new s⟩ trivial cmd).1
  · rintro w key value leaseID ⟨opened,chained⟩
    exact ⟨opened.put key value leaseID,chained.put settled key value leaseID⟩
  · rintro w key endKey ⟨opened,chained⟩
    exact ⟨opened.deleteRange key endKey,chained.deleteRange settled key endKey⟩

/-- A command fails and leaves an index that answers alike and the rest as it was, or commits its writes. -/
theorem applyWrite_cases {s : KvStore} (settled : s.Settled) (a : A) (cmd : KvRequest) :
    (∃ e ti, (applyWrite s a cmd).2 = .error e ∧ (applyWrite s a cmd).1.1 = { s with kvIndex := ti } ∧ ti.Alike s.kvIndex) ∨
    ∃ r ws, (applyWrite s a cmd).2 = .ok r ∧ Committed s (applyWrite s a cmd).1.1 ws := by
  obtain ⟨opened,chained⟩ := applyRequest_writer settled a cmd
  unfold applyWrite
  generalize applyRequest s.newWriter a cmd = run at opened chained ⊢
  obtain ⟨⟨w,a'⟩,outcome⟩ := run
  cases outcome with
  | error e =>
    obtain ⟨ti,left,alike⟩ := opened.abort
    exact Or.inl ⟨e,ti,rfl,left,alike⟩
  | ok result =>
    obtain ⟨ws,committed⟩ := chained.endTx
    exact Or.inr ⟨_,ws,rfl,committed⟩

/-- A command of the store changes no lease but in its key set. -/
theorem applyWrite_sameLeases (s : KvStore) (lm : LeaseManager) (cmd : KvRequest) :
    lm.SameLeases (applyWrite s lm cmd).1.2 := by
  have kept := (applyRequest_invariant (P := fun _ : Writer => True) (Q := fun lm' => lm.SameLeases lm')
    (fun _ _ _ _ _ => trivial) (fun _ _ _ _ => trivial) (fun lm' id key same => same.trans (.attachKey lm' id key))
    (fun lm' id key same => same.trans (.detachKey lm' id key)) (w := s.newWriter) trivial (.refl lm) cmd).2
  unfold applyWrite
  generalize applyRequest s.newWriter lm cmd = run at kept ⊢
  obtain ⟨⟨w,lm'⟩,outcome⟩ := run
  cases outcome <;> exact kept

end Engine

/-! ### The rest of the state -/

/-- The stores have the same index, records and revisions; what else is in the buckets may differ. -/
structure KvStore.SameKv (s s' : KvStore) : Prop where
  content : s'.content = s.content
  current : s'.currentRev = s.currentRev
  compacted : s'.compactedMainRev = s.compactedMainRev
  keyCount : s'.keyCount = s.keyCount
  scheduled : s'.backend.buckets.metadata.scheduledCompactedRev = s.backend.buckets.metadata.scheduledCompactedRev
  finished : s'.backend.buckets.metadata.finishedCompactedRev = s.backend.buckets.metadata.finishedCompactedRev

namespace KvStore.SameKv

theorem refl (s : KvStore) : s.SameKv s := ⟨rfl,rfl,rfl,rfl,rfl,rfl⟩

theorem trans {s s' s'' : KvStore} (first : s.SameKv s') (second : s'.SameKv s'') : s.SameKv s'' where
  content := second.content.trans first.content
  current := second.current.trans first.current
  compacted := second.compacted.trans first.compacted
  keyCount := second.keyCount.trans first.keyCount
  scheduled := second.scheduled.trans first.scheduled
  finished := second.finished.trans first.finished

theorem updateInmemRaftMeta (s : KvStore) (logIndex term : Nat) : s.SameKv (s.updateInmemRaftMeta logIndex term) :=
  ⟨rfl,rfl,rfl,rfl,rfl,rfl⟩

theorem persistRaftMeta (s : KvStore) : s.SameKv s.persistRaftMeta := ⟨rfl,rfl,rfl,rfl,rfl,rfl⟩

theorem persist (s : KvStore) (l : Lease) : s.SameKv (LeaseManager.persist s l) := ⟨rfl,rfl,rfl,rfl,rfl,rfl⟩

theorem removeFromBackend (s : KvStore) (ids : List Int64) : s.SameKv (LeaseManager.removeFromBackend s ids) := by
  have buckets := LeaseManager.removeFromBackend_buckets s ids
  refine ⟨?_,rfl,rfl,rfl,?_,?_⟩
  · exact congrArg (fun b => Content.mk s.kvIndex b.kv) buckets
  · exact congrArg (fun b => b.metadata.scheduledCompactedRev) buckets
  · exact congrArg (fun b => b.metadata.finishedCompactedRev) buckets

theorem putBlob (s : KvStore) (blob : Bytes) : s.SameKv (OTManager.putBlob s blob) := ⟨rfl,rfl,rfl,rfl,rfl,rfl⟩

end KvStore.SameKv

/-! What persisting leases keeps, the lease commands that do nothing else to the store keep. -/

section

variable {P : KvStore → Prop} (persist : ∀ s l, P s → P (LeaseManager.persist s l)) {s : KvStore} (start : P s)
include persist start

theorem LeaseManager.addLease_store (now : Int) (lm : LeaseManager) (id : Int64) (ttl : Int) : P (addLease now lm s id ttl).1.2 := by
  unfold addLease
  simp only
  split
  · exact start
  · exact persist s _ start

theorem LeaseManager.grant_store (env : Env) (lm : LeaseManager) (id : Int64) (ttl : Int) : P (grant env lm s id ttl).1.2 := by
  unfold grant
  split
  · exact start
  · split
    · exact start
    · exact addLease_store persist start _ _ _ _

theorem LeaseManager.keepAlive_store (env : Env) (lm : LeaseManager) (id : Int64) : P (keepAlive env lm s id).1.2 := by
  unfold keepAlive
  split
  · exact start
  · split
    · exact start
    · exact persist s _ start

theorem LeaseManager.applyCheckpoint_store (checkpoints : List Checkpoint) (lm : LeaseManager) :
    P (lm.applyCheckpoint s checkpoints).2 := by
  induction checkpoints generalizing lm s with
  | nil => exact start
  | cons ck rest ih =>
    rw [applyCheckpoint]
    split
    · exact ih start lm
    · split
      · exact ih start lm
      · exact ih (persist s _ start) _

theorem LeaseManager.restore_store (now : Readings) : P (restore now s).2 := by
  refine regrantPages_invariant (P := fun state => P state.2) (fun state l kept => ?_)
    (s.backend.buckets.lease.entries.length + 1) 0 Int64.minValue start
  unfold regrant
  split
  · exact kept
  · exact addLease_store persist kept _ _ _ _

end

namespace KvStore.SameKv

theorem persist_trans {s : KvStore} : ∀ s' l, s.SameKv s' → s.SameKv (LeaseManager.persist s' l) :=
  fun s' l same => same.trans (persist s' l)

theorem restoreLeases (now : Readings) (s : KvStore) : s.SameKv (LeaseManager.restore now s).2 :=
  LeaseManager.restore_store persist_trans (refl s) now

theorem applyWriteAll (om : OTManager) (s : KvStore) (blob : Option Bytes) : s.SameKv (om.applyWriteAll s blob).1 := by
  unfold OTManager.applyWriteAll
  split
  · exact refl s
  · split
    · exact refl s
    · exact putBlob s _

theorem applyGenerateClusterKey (om : OTManager) (s : KvStore) (key : Bytes) :
    s.SameKv (om.applyGenerateClusterKey s key).1.2 := by
  unfold OTManager.applyGenerateClusterKey
  split
  · split <;> exact refl s
  · simp only
    split <;> exact ⟨rfl,rfl,rfl,rfl,rfl,rfl⟩

theorem restoreOt (om : OTManager) (s : KvStore) : s.SameKv (om.restore s).1.2 := by
  unfold OTManager.restore
  split
  · exact refl s
  · simp only
    split
    · exact refl s
    · exact putBlob s _

end KvStore.SameKv

/-! ### Leases -/

theorem KvStore.Settled.deleteKeys {s : KvStore} (settled : s.Settled) (keys : List Bytes) :
    ∃ w, Writer.runOps (keys.map .deleteKey) s.newWriter = (w,none) ∧ w.endTx = s.txn (keys.map .deleteKey) := by
  obtain ⟨m,domain⟩ := s.content.exists_domain (s.currentRev.main + 1)
  obtain ⟨w,more,run,-⟩ := Writer.runOps_spec (keys.map .deleteKey) settled.fresh domain
  refine ⟨w,run,?_⟩
  rw [KvStore.txn,run]

namespace LeaseManager

/-- The revocation without its error paths, which a settled store does not take. -/
theorem revoke_eq {s : KvStore} (settled : s.Settled) (env : Env) (lm : LeaseManager) (id : Int64) :
    revoke env lm s id =
      match lm.find? id with
      | none => ((lm,s),.error .notFound)
      | some lease =>
        let keys := env.order lease.keySet.keys
        let lm := lm.save { lease with keySet := SortedMap.empty }
        (((lm.remove id).removeFromHeap id,
          removeFromBackend (if keys = [] then s else s.txn (keys.map .deleteKey)) [id]),.ok (true,true)) := by
  unfold revoke
  cases lm.find? id with
  | none => rfl
  | some lease =>
    simp only
    split
    · rfl
    · obtain ⟨w,run,ended⟩ := settled.deleteKeys (env.order lease.keySet.keys)
      rw [run,← ended]

/-- The expiry without its error paths. -/
theorem applyExpired_eq {s : KvStore} (settled : s.Settled) (env : Env) (lm : LeaseManager) (ids : List Int64) :
    applyExpired env lm s ids =
      let collected := collectExpired env ids lm [] 0
      ((collected.1,removeFromBackend (s.txn (collected.2.1.map .deleteKey)) ids),
        .ok ⟨collected.2.2,collected.2.1.length⟩) := by
  unfold applyExpired
  simp only
  obtain ⟨w,run,ended⟩ := settled.deleteKeys (collectExpired env ids lm [] 0).2.1
  rw [run,← ended]

end LeaseManager

/-! ### Every entry keeps the store orderly -/

/-- Index and bucket know of nothing beyond the current revision. -/
structure KvStore.Orderly (s : KvStore) : Prop where
  settled : s.Settled
  stamped : Stamped s.backend.buckets.kv ⟨s.currentRev.main + 1,0⟩

namespace KvStore.Orderly

variable {s s' : KvStore}

theorem new : (KvStore.new Backend.empty).Orderly where
  settled := ⟨le_rfl,valid_empty,fun key bk member => by simp [KvStore.content,KvStore.new,TreeIndex.records] at member⟩
  stamped := by
    constructor
    · intro bk present
      simp [KvStore.new,Backend.empty,Buckets.empty] at present
    · intro bk bk' present
      simp [KvStore.new,Backend.empty,Buckets.empty] at present

theorem same (orderly : s.Orderly) (same : s.SameKv s') : s'.Orderly := by
  have kv : s'.backend.buckets.kv = s.backend.buckets.kv := congrArg Content.kv same.content
  refine ⟨⟨?_,?_⟩,?_⟩
  · rw [same.current]
    exact orderly.settled.nonneg
  · rw [same.content,same.current]
    exact orderly.settled.before
  · rw [kv,same.current]
    exact orderly.stamped

theorem committed (orderly : s.Orderly) {ws : List Write} (committed : Committed s s' ws) : s'.Orderly := by
  refine ⟨committed.settled orderly.settled,?_⟩
  have positive : 0 < s.currentRev.main + 1 := by have := orderly.settled.nonneg; omega
  have stamped := committed.chain.stamped positive orderly.stamped
  refine stamped.mono (Revision.le_iff.mpr ?_)
  rw [committed.current]
  by_cases none : ws = []
  · subst none
    exact Or.inr ⟨rfl,le_rfl⟩
  · rw [if_neg none]
    exact Or.inl (by simp)

theorem aborted (orderly : s.Orderly) {ti : TreeIndex} (alike : ti.Alike s.kvIndex) :
    KvStore.Orderly { s with kvIndex := ti } := by
  refine ⟨orderly.settled.of_content rfl (alike.valid orderly.settled.before.valid) ?_,orderly.stamped⟩
  intro key bk member
  rwa [← alike.records]

theorem txn (orderly : s.Orderly) (ops : List Op) : (s.txn ops).Orderly := by
  obtain ⟨ws,committed⟩ := orderly.settled.committed ops
  exact orderly.committed committed

theorem applyWrite {A : Type} [LeaseAttacher A] (orderly : s.Orderly) (a : A) (cmd : KvRequest) :
    (Engine.applyWrite s a cmd).1.1.Orderly := by
  rcases Engine.applyWrite_cases orderly.settled a cmd with ⟨e,ti,-,left,alike⟩ | ⟨r,ws,-,committed⟩
  · rw [left]
    exact orderly.aborted alike
  · exact orderly.committed committed

theorem revoke (orderly : s.Orderly) (env : Env) (lm : LeaseManager) (id : Int64) :
    (LeaseManager.revoke env lm s id).1.2.Orderly := by
  rw [LeaseManager.revoke_eq orderly.settled]
  cases lm.find? id with
  | none => exact orderly
  | some lease =>
    simp only
    refine KvStore.Orderly.same ?_ (KvStore.SameKv.removeFromBackend _ _)
    split
    · exact orderly
    · exact orderly.txn _

theorem applyExpired (orderly : s.Orderly) (env : Env) (lm : LeaseManager) (ids : List Int64) :
    (LeaseManager.applyExpired env lm s ids).1.2.Orderly := by
  rw [LeaseManager.applyExpired_eq orderly.settled]
  exact (orderly.txn _).same (KvStore.SameKv.removeFromBackend _ _)

theorem compact (orderly : s.Orderly) (rev : Int) : (s.compact rev).1.Orderly := by
  unfold KvStore.compact
  split
  · exact orderly
  · split
    · exact orderly
    · split
      · exact orderly
      · exact ⟨orderly.settled.of_content rfl orderly.settled.before.valid fun key bk member => member,orderly.stamped⟩

end KvStore.Orderly

theorem Fsm.dispatch_orderly {f : Fsm} (orderly : f.store.Orderly) (env : Env) (request : Request) :
    (f.dispatch env request).1.store.Orderly := by
  cases request with
  | kv cmd => exact orderly.applyWrite f.lm cmd
  | compaction targetRev => exact orderly.compact targetRev
  | ot cmd =>
    cases cmd with
    | writeAll blob => exact orderly.same (KvStore.SameKv.applyWriteAll _ _ _)
    | generateClusterKey key => exact orderly.same (KvStore.SameKv.applyGenerateClusterKey _ _ _)
  | lease cmd =>
    cases cmd with
    | grant id ttl => exact orderly.same (LeaseManager.grant_store KvStore.SameKv.persist_trans (.refl _) env f.lm id ttl)
    | revoke id => exact orderly.revoke env f.lm id
    | keepAlive id => exact orderly.same (LeaseManager.keepAlive_store KvStore.SameKv.persist_trans (.refl _) env f.lm id)
    | lookup id => exact orderly
    | checkpoint checkpoints => exact orderly.same (LeaseManager.applyCheckpoint_store KvStore.SameKv.persist_trans (.refl _) checkpoints f.lm)
    | expire ids => exact orderly.applyExpired env f.lm ids

theorem Fsm.dispatch_applyIndex {f : Fsm} (settled : f.store.Settled) (env : Env) (request : Request) :
    (f.dispatch env request).1.store.applyIndex = f.store.applyIndex := by
  have persist : ∀ s l, KvStore.applyIndex s = f.store.applyIndex → (LeaseManager.persist s l).applyIndex = f.store.applyIndex :=
    fun _ _ same => same
  have txn : ∀ ops, (f.store.txn ops).applyIndex = f.store.applyIndex := by
    intro ops
    obtain ⟨ws,committed⟩ := settled.committed ops
    exact committed.applyIndex
  cases request with
  | kv cmd =>
    change (Engine.applyWrite f.store f.lm cmd).1.1.applyIndex = _
    rcases Engine.applyWrite_cases settled f.lm cmd with ⟨e,ti,-,left,-⟩ | ⟨r,ws,-,committed⟩
    · rw [left]
    · exact committed.applyIndex
  | compaction targetRev =>
    change (f.store.compact targetRev).1.applyIndex = _
    rcases f.store.compact_eq targetRev with ⟨-,run⟩ | ⟨-,e,run⟩ <;> rw [run]
  | ot cmd =>
    cases cmd with
    | writeAll blob =>
      change (f.om.applyWriteAll f.store blob).1.applyIndex = _
      unfold OTManager.applyWriteAll
      split
      · rfl
      · split <;> rfl
    | generateClusterKey key =>
      change (f.om.applyGenerateClusterKey f.store key).1.2.applyIndex = _
      unfold OTManager.applyGenerateClusterKey
      split <;> split <;> rfl
  | lease cmd =>
    cases cmd with
    | grant id ttl => exact LeaseManager.grant_store (P := fun s => s.applyIndex = f.store.applyIndex) persist rfl env f.lm id ttl
    | revoke id =>
      change (LeaseManager.revoke env f.lm f.store id).1.2.applyIndex = _
      rw [LeaseManager.revoke_eq settled]
      cases f.lm.find? id with
      | none => rfl
      | some lease =>
        change KvStore.applyIndex (if _ then _ else _) = _
        split
        · rfl
        · exact txn _
    | keepAlive id => exact LeaseManager.keepAlive_store (P := fun s => s.applyIndex = f.store.applyIndex) persist rfl env f.lm id
    | lookup id => rfl
    | checkpoint checkpoints =>
      exact LeaseManager.applyCheckpoint_store (P := fun s => s.applyIndex = f.store.applyIndex) persist rfl checkpoints f.lm
    | expire ids =>
      change (LeaseManager.applyExpired env f.lm f.store ids).1.2.applyIndex = _
      rw [LeaseManager.applyExpired_eq settled]
      exact txn _

/-- An entry is skipped, or its command is applied under the new index. -/
theorem Fsm.apply_cases (f : Fsm) (env : Env) (log : Log) :
    (f.apply env log).1 = f ∧ (f.apply env log).2.1 = none ∨
    ∃ request, log.data = some (.full request) ∧ f.store.applyIndex < log.index ∧
      ∃ g started outcome, dispatch { f with store := f.store.updateInmemRaftMeta log.index log.term } env request =
          (g,started,outcome) ∧ (f.apply env log).2.1 = started ∧
        ((∃ e, outcome = .error e ∧ (f.apply env log).1 = g) ∨
          ∃ r, outcome = .ok r ∧ (f.apply env log).1 = { g with store := g.store.persistRaftMeta }) := by
  unfold Fsm.apply
  by_cases old : log.index ≤ f.store.applyIndex
  · rw [if_pos old]
    exact Or.inl ⟨rfl,rfl⟩
  · rw [if_neg old]
    cases decoded : log.data with
    | none => exact Or.inl ⟨rfl,rfl⟩
    | some cmd =>
      cases cmd with
      | missing kind => exact Or.inl ⟨rfl,rfl⟩
      | full request =>
        refine Or.inr ⟨request,rfl,not_le.mp old,?_⟩
        simp only [Command.check]
        generalize dispatch _ env request = run
        obtain ⟨g,started,outcome⟩ := run
        refine ⟨g,started,outcome,rfl,?_⟩
        cases outcome with
        | error e => exact ⟨rfl,Or.inl ⟨e,rfl,rfl⟩⟩
        | ok r => exact ⟨rfl,Or.inr ⟨r,rfl,rfl⟩⟩

/-- No entry puts anything beyond the current revision. -/
theorem Fsm.apply_orderly {f : Fsm} (orderly : f.store.Orderly) (env : Env) (log : Log) :
    (f.apply env log).1.store.Orderly := by
  rcases f.apply_cases env log with ⟨same,-⟩ | ⟨request,-,-,g,started,outcome,run,-,ended⟩
  · rw [same]
    exact orderly
  · have after := dispatch_orderly (f := { f with store := f.store.updateInmemRaftMeta log.index log.term })
      (orderly.same (KvStore.SameKv.updateInmemRaftMeta _ _ _)) env request
    rw [run] at after
    rcases ended with ⟨e,-,same⟩ | ⟨r,-,same⟩
    · rw [same]
      exact after
    · rw [same]
      exact after.same (KvStore.SameKv.persistRaftMeta _)

end Kave
