import Kave.Current
import Kave.RemovalOrder

/-! The keys attached to the leases: what a command other than a compaction does to them and to the map of the current
    revision, and what follows for whole logs. -/

namespace Kave

open TreeIndex

namespace LeaseManager

/-- All pairs of a lease and a key of its key set. -/
def attachments (lm : LeaseManager) : List (Int64 × Bytes) :=
  lm.leaseMap.entries.flatMap fun e => e.2.keySet.keys.map fun key => (e.2.id,key)

variable {lm : LeaseManager} {key : Bytes}

theorem mem_attachments {id : Int64} : (id,key) ∈ lm.attachments ↔ lm.attached id key = true := by
  rw [attachments,List.mem_flatMap,attached,Option.any_eq_true]
  constructor
  · rintro ⟨⟨name,l⟩,member,inside⟩
    obtain ⟨key',present,same⟩ := List.mem_map.mp inside
    obtain ⟨rfl,rfl⟩ := Prod.mk.inj same
    have found := SortedMap.mem_entries.mp member
    refine ⟨l,?_,SortedMap.mem_keys.mp present⟩
    rw [find?,lm.named name l found]
    exact found
  · rintro ⟨l,found,present⟩
    refine ⟨(leaseBucketKey id,l),SortedMap.mem_entries.mpr found,List.mem_map.mpr ⟨key,SortedMap.mem_keys.mpr present,?_⟩⟩
    rw [id_of_find found]

theorem isSome_of_attached {id : Int64} (attached : lm.attached id key = true) :
    (lm.find? id).isSome = true := by
  rw [LeaseManager.attached] at attached
  cases found : lm.find? id with
  | none => rw [found] at attached; cases attached
  | some l => rfl

theorem attached_of_removed {lm lm' : LeaseManager} {ids : List Int64}
    (removed : ∀ id, lm'.find? id = if id ∈ ids then none else lm.find? id) (id : Int64) (key : Bytes) :
    lm'.attached id key = (decide (id ∉ ids) && lm.attached id key) := by
  rw [attached,attached,removed]
  by_cases gone : id ∈ ids <;> simp [gone]

theorem find_collectExpired (env : Env) (ids : List Int64) (lm : LeaseManager) (keys : List Bytes) (count : Nat) (id : Int64) :
    (collectExpired env ids lm keys count).1.find? id = if id ∈ ids then none else lm.find? id := by
  induction ids generalizing lm keys count with
  | nil => rfl
  | cons first rest ih =>
    rw [collectExpired]
    cases found : lm.find? first with
    | none =>
      simp only [ih,List.mem_cons]
      by_cases same : id = first
      · simp [same,found]
      · simp [same]
    | some l =>
      simp only [ih,List.mem_cons,find_remove]
      by_cases same : id = first <;> simp [same]

theorem mem_expiredKeys {env : Env} {ids : List Int64} :
    key ∈ expiredKeys env ids lm ↔ ∃ id ∈ ids, lm.attached id key = true := by
  induction ids generalizing lm with
  | nil => simp [expiredKeys]
  | cons first rest ih =>
    rw [expiredKeys,List.exists_mem_cons_iff]
    cases found : lm.find? first with
    | none =>
      have none : lm.attached first key = false := by rw [attached,found]; rfl
      simp [ih,none]
    | some l =>
      have here : key ∈ env.order l.keySet.keys ↔ lm.attached first key = true := by
        rw [(env.perm _).mem_iff,SortedMap.mem_keys,attached,found]
        rfl
      simp only [List.mem_append,here,ih]
      refine or_congr_right' fun free => exists_congr fun id => and_congr_right fun _ => ?_
      rw [attached,attached,find_remove]
      by_cases same : id = first
      · rw [if_pos same,same,Option.any_none]
        rw [attached] at free
        simpa using free
      · rw [if_neg same]

end LeaseManager

/-! ### The engine and the attachments -/

namespace Engine

def storedLease (prev : Option Entry) (cmd : PutRequest) : Int64 :=
  if cmd.ignoreLease then (prev.map (·.leaseID)).getD 0 else cmd.leaseID

/-- The key sets after a put. -/
def putLeases (lm : LeaseManager) (prev : Option Entry) (cmd : PutRequest) : LeaseManager :=
  let prevLease := (prev.map (·.leaseID)).getD 0
  let lm := if prevLease ≠ 0 ∧ prevLease ≠ storedLease prev cmd then lm.detachKey prevLease cmd.key else lm
  if storedLease prev cmd ≠ 0 then lm.attachKey cmd.leaseID cmd.key else lm

theorem isSome_find_putLeases (lm : LeaseManager) (prev : Option Entry) (cmd : PutRequest) (id : Int64) :
    ((putLeases lm prev cmd).find? id).isSome = (lm.find? id).isSome := by
  unfold putLeases
  simp only
  split
  · rw [LeaseManager.isSome_find_attachKey]
    split
    · exact LeaseManager.isSome_find_detachKey _ _ _ _
    · rfl
  · split
    · exact LeaseManager.isSome_find_detachKey _ _ _ _
    · rfl

theorem attached_putLeases (lm : LeaseManager) (prev : Option Entry) (cmd : PutRequest) (id : Int64) (key : Bytes) :
    (putLeases lm prev cmd).attached id key = true ↔
      (storedLease prev cmd ≠ 0 ∧ (lm.find? cmd.leaseID).isSome ∧ id = cmd.leaseID ∧ key = cmd.key) ∨
      (lm.attached id key = true ∧ ¬((prev.map (·.leaseID)).getD 0 ≠ 0 ∧ (prev.map (·.leaseID)).getD 0 ≠ storedLease prev cmd ∧
        id = (prev.map (·.leaseID)).getD 0 ∧ key = cmd.key)) := by
  unfold putLeases
  generalize (prev.map (·.leaseID)).getD 0 = prevLease
  simp only
  have detached : (if prevLease ≠ 0 ∧ prevLease ≠ storedLease prev cmd then lm.detachKey prevLease cmd.key else lm).attached id key =
      true ↔ lm.attached id key = true ∧
        ¬(prevLease ≠ 0 ∧ prevLease ≠ storedLease prev cmd ∧ id = prevLease ∧ key = cmd.key) := by
    by_cases moved : prevLease ≠ 0 ∧ prevLease ≠ storedLease prev cmd
    · rw [if_pos moved,LeaseManager.attached_detachKey,Bool.and_eq_true,Bool.not_eq_true',decide_eq_false_iff_not]
      simp only [moved,ne_eq,not_false_eq_true,true_and]
    · rw [if_neg moved]
      have none : ¬(prevLease ≠ 0 ∧ prevLease ≠ storedLease prev cmd ∧ id = prevLease ∧ key = cmd.key) :=
        fun all => moved ⟨all.1,all.2.1⟩
      simp only [none,not_false_eq_true,and_true]
  have there : ((if prevLease ≠ 0 ∧ prevLease ≠ storedLease prev cmd then lm.detachKey prevLease cmd.key else lm).find?
      cmd.leaseID).isSome = (lm.find? cmd.leaseID).isSome := by
    split
    · exact LeaseManager.isSome_find_detachKey _ _ _ _
    · rfl
  by_cases leased : storedLease prev cmd = 0
  · rw [if_neg (not_not.mpr leased),detached]
    simp [leased]
  · rw [if_pos leased,LeaseManager.attached_attachKey,there,Bool.or_eq_true,detached,Bool.and_eq_true,decide_eq_true_eq]
    simp only [leased,ne_eq,not_false_eq_true,true_and]

theorem applyRequest_put_attachments {w w' : Writer} {lm lm' : LeaseManager} {cmd : PutRequest} {r : KvResult}
    (run : applyRequest w lm (.put cmd) = ((w',lm'),.ok r)) :
    ¬(w.get cmd.key 0 = none ∧ cmd.ignoreLease = true) ∧ lm' = putLeases lm (w.get cmd.key 0) cmd := by
  unfold applyRequest applyPut at run
  have get : TxWriter.get w cmd.key 0 = w.get cmd.key 0 := rfl
  simp only [get] at run
  split at run
  · cases run
  next missing =>
    refine ⟨fun both => missing ⟨both.1,Or.inl both.2⟩,?_⟩
    generalize TxWriter.put w cmd.key _ _ = call at run
    obtain ⟨w₁,e⟩ := call
    cases e with
    | some e => simp [Except.map] at run
    | none => exact (congrArg (fun p => p.1.2) run).symm

theorem applyRequest_error_attachments {w w' : Writer} {lm lm' : LeaseManager} {cmd : KvRequest} {e : WriteError}
    (run : applyRequest w lm cmd = ((w',lm'),.error e)) : lm' = lm := by
  cases cmd with
  | put cmd =>
    unfold applyRequest applyPut at run
    simp only at run
    split at run
    · exact (congrArg (fun p => p.1.2) run).symm
    · generalize TxWriter.put w cmd.key _ _ = call at run
      obtain ⟨w₁,e⟩ := call
      cases e with
      | some e => exact (congrArg (fun p => p.1.2) run).symm
      | none => simp [Except.map] at run
  | delete cmd =>
    unfold applyRequest applyDelete at run
    cases prevs : prevEntries w cmd with
    | error e =>
      simp only [prevs] at run
      exact (congrArg (fun p => p.1.2) run).symm
    | ok entries =>
      simp only [prevs] at run
      generalize TxWriter.deleteRange w cmd.key cmd.endKey = call at run
      obtain ⟨w₁,e⟩ := call
      cases e with
      | some e => exact (congrArg (fun p => p.1.2) run).symm
      | none => simp [Except.map] at run
  | txn cmd => exact (congrArg (fun p => p.1.2) run).symm

end Engine

/-- A read inside a transaction at the revision is answered: it is neither in the future nor compacted. -/
def KvStore.answers (s : KvStore) (rev : Int) : Bool :=
  rev ≤ s.currentRev.main && s.compactedMainRev ≤ if rev ≤ 0 then s.currentRev.main + 1 else rev

/-- The operation passes its check, and what it reads is answered. -/
def TxnOp.runs (s : KvStore) (op : TxnOp) : Bool :=
  match op.check with
  | .error _ => false
  | .ok (.put _) => true
  | .ok (.delete request) => !request.prevEntries || s.answers 0
  | .ok (.range request) => s.answers request.revision

section

variable {s : KvStore} {w : Writer}

theorem Writer.Opened.range_cases (opened : w.Opened s) (key : Bytes) (endKey : Option Bytes) (rev limit : Int) :
    (s.answers rev = true ∧ ∃ result, TxWriter.range w key endKey rev limit = .ok result) ∨
      s.answers rev = false ∧ ∃ e, TxWriter.range w key endKey rev limit = .error e := by
  have nonneg : 0 ≤ s.currentRev.main := by
    rw [← opened.startRev]
    exact opened.fresh.nonneg
  change _ ∧ (∃ result, w.range key endKey rev limit = _) ∨ _ ∧ ∃ e, w.range key endKey rev limit = _
  rw [Writer.range,opened.startRev,opened.store]
  by_cases start : rev ≤ 0
  · by_cases compacted : s.currentRev.main + 1 < s.compactedMainRev
    · simp [doRange,KvStore.answers,start,compacted,show ¬ s.currentRev.main + 1 ≤ 0 by omega]
    · simp [doRange,KvStore.answers,start,start.trans nonneg,compacted,not_lt.mp compacted,show ¬ s.currentRev.main + 1 ≤ 0 by omega]
  · by_cases future : s.currentRev.main < rev
    · simp [doRange,KvStore.answers,start,future]
    · by_cases compacted : rev < s.compactedMainRev
      · simp [doRange,KvStore.answers,start,future,compacted]
      · simp [doRange,KvStore.answers,start,future,compacted,not_lt.mp future,not_lt.mp compacted]

theorem Engine.applyTxnOp_ok_iff (opened : w.Opened s) {op : TxnOp} {checked : CheckedOp} (passes : op.check = .ok checked) :
    (∃ w' result, applyTxnOp w checked = (w',.ok result)) ↔ op.runs s = true := by
  rw [TxnOp.runs,passes]
  cases checked with
  | put request =>
    obtain ⟨w',run,-⟩ := w.put_spec opened.fresh request.key request.value request.leaseID
    have run : TxWriter.put w request.key request.value request.leaseID = (w',none) := run
    simp [applyTxnOp,run]
  | delete request =>
    obtain ⟨m,domain⟩ := w.content.exists_domain (w.startRev.main + 1)
    obtain ⟨w',run,-⟩ := w.deleteRange_spec opened.fresh domain request.key request.endKey
    have run : TxWriter.deleteRange w request.key request.endKey = (w',none) := run
    rcases opened.range_cases request.key request.endKey 0 0 with ⟨answers,result,read⟩ | ⟨refuses,e,read⟩
    · cases asked : request.prevEntries <;> simp [applyTxnOp,prevEntries,asked,read,run,answers,Except.map]
    · cases asked : request.prevEntries <;> simp [applyTxnOp,prevEntries,asked,read,run,refuses,Except.map]
  | range request =>
    rcases opened.range_cases request.key (if request.isPrefix then prefixEnd request.key else request.endKey) request.revision
      request.limit with ⟨answers,result,read⟩ | ⟨refuses,e,read⟩
    · simp [applyTxnOp,read,answers]
    · simp [applyTxnOp,read,refuses]

/-- The operations of a transaction are carried out exactly if each of them runs. -/
theorem Engine.applyTxnOps_ok_iff {ops : List TxnOp} (opened : w.Opened s) :
    (∃ w' results, applyTxnOps ops w = (w',.ok results)) ↔ ∀ op ∈ ops, op.runs s = true := by
  induction ops generalizing w with
  | nil => simp [applyTxnOps]
  | cons op rest ih =>
    have next : ∀ {checked w₁ result}, op.check = .ok checked → applyTxnOp w checked = (w₁,.ok result) → w₁.Opened s := by
      intro checked w₁ result passes first
      have opened₁ := opened.runOps op.call?.toList
      rwa [applyTxnOp_call passes first] at opened₁
    rw [List.forall_mem_cons]
    constructor
    · rintro ⟨w',results,run⟩
      obtain ⟨checked,w₁,result,later,passes,first,second,-⟩ := applyTxnOps_cons run
      exact ⟨(applyTxnOp_ok_iff opened passes).mp ⟨w₁,result,first⟩,(ih (next passes first)).mp ⟨w',later,second⟩⟩
    · rintro ⟨runs,others⟩
      cases passes : op.check with
      | error e => simp [TxnOp.runs,passes] at runs
      | ok checked =>
        obtain ⟨w₁,result,first⟩ := (applyTxnOp_ok_iff opened passes).mpr runs
        obtain ⟨w',later,second⟩ := (ih (next passes first)).mpr others
        exact ⟨w',result :: later,by simp [applyTxnOps,passes,first,second]⟩

end

/-! ### What a command does -/

/-- The request of an entry that decodes and passes its check. -/
def Log.request? (log : Log) : Option Request :=
  match log.data with
  | some (.full request) => some request
  | _ => none

def Request.isCompaction : Request → Bool
  | .compaction _ => true
  | _ => false

def Log.Uncompacted (log : Log) : Prop := ∀ request ∈ log.request?, request.isCompaction = false

instance (log : Log) : Decidable log.Uncompacted := inferInstanceAs (Decidable (∀ request ∈ log.request?, request.isCompaction = false))

/-- What a command makes of the leases and of the map of the current revision. -/
inductive Fsm.Moves (f g : Fsm) (m : KvMap) : Request → KvMap → Prop
  | idle {request : Request} (same : f.lm.SameKeySets g.lm) : Moves f g m request m
  | put {cmd : PutRequest} {value : Option Bytes} (found : ¬(f.store.newWriter.get cmd.key 0 = none ∧ cmd.ignoreLease = true))
      (lm : g.lm = Engine.putLeases f.lm (f.store.newWriter.get cmd.key 0) cmd) :
      Moves f g m (.kv (.put cmd)) (KvMap.put (f.store.currentRev.main + 1) m cmd.key value
        (Engine.storedLease (f.store.newWriter.get cmd.key 0) cmd))
  | delete {cmd : DeleteRequest} (lm : g.lm = Engine.detachAll f.lm (f.store.listed cmd)) :
      Moves f g m (.kv (.delete cmd)) (m.filter fun k _ => !rangeSelects cmd.key cmd.endKey k)
  | txn {cmd : TxnRequest} (runs : ∀ op ∈ Engine.branch f.store.newWriter cmd, op.runs f.store = true)
      (lm : g.lm = f.lm) :
      Moves f g m (.kv (.txn cmd))
        (KvMap.applyOps (f.store.currentRev.main + 1) m (Engine.calls f.store.newWriter (.txn cmd))).1
  | grant {id : Int64} {ttl : Int} {l : Lease} (nonzero : id ≠ 0) (new : f.lm.find? id = none)
      (empty : l.keySet = SortedMap.empty) (lm : ∀ id', g.lm.find? id' = if id' = id then some l else f.lm.find? id') :
      Moves f g m (.lease (.grant id ttl)) m
  | remove {request : Request} {ids : List Int64} {keys : List Bytes}
      (lm : ∀ id, g.lm.find? id = if id ∈ ids then none else f.lm.find? id)
      (attached : ∀ key, key ∈ keys ↔ ∃ id ∈ ids, f.lm.attached id key = true) :
      Moves f g m request (keys.foldl SortedMap.erase m)

theorem KvStore.Current.revoke {s : KvStore} {m : KvMap} (current : s.Current m) (env : Env) {lm : LeaseManager} {id : Int64}
    {l : Lease} (found : lm.find? id = some l) :
    (LeaseManager.revoke env lm s id).1.2.Current ((env.order l.keySet.keys).foldl SortedMap.erase m) := by
  rw [LeaseManager.revoke_eq current.settled,found]
  refine KvStore.Current.same ?_ (KvStore.SameKv.removeFromBackend _ _)
  by_cases none : env.order l.keySet.keys = []
  · rw [if_pos none,none]
    exact current
  · rw [if_neg none,← KvMap.applyOps_deleteKeys (s.currentRev.main + 1)]
    exact current.txn _

theorem KvStore.Current.applyExpired {s : KvStore} {m : KvMap} (current : s.Current m) (env : Env) (lm : LeaseManager)
    (ids : List Int64) : (LeaseManager.applyExpired env lm s ids).1.2.Current
      ((LeaseManager.expiredKeys env ids lm).foldl SortedMap.erase m) := by
  rw [LeaseManager.applyExpired_eq current.settled]
  refine KvStore.Current.same ?_ (KvStore.SameKv.removeFromBackend _ _)
  rw [LeaseManager.collectExpired_keys,List.nil_append,← KvMap.applyOps_deleteKeys (s.currentRev.main + 1)]
  exact current.txn _

namespace Fsm

variable {f : Fsm} {m : KvMap}

theorem applyKv_moves (current : f.store.Current m) (cmd : KvRequest) :
    ∃ m', Moves f (f.applyKv cmd).1 m (.kv cmd) m' ∧ (f.applyKv cmd).1.store.Current m' := by
  obtain ⟨opened,-⟩ := Engine.applyRequest_writer current.settled f.lm cmd
  change ∃ m', Moves f { f with store := (Engine.applyWrite f.store f.lm cmd).1.1, lm := (Engine.applyWrite f.store f.lm cmd).1.2 }
    m (.kv cmd) m' ∧ (Engine.applyWrite f.store f.lm cmd).1.1.Current m'
  have shape := Engine.applyWrite.eq_1 f.store f.lm cmd
  cases run : Engine.applyRequest f.store.newWriter f.lm cmd with
  | mk state outcome =>
    obtain ⟨w,lm'⟩ := state
    rw [run] at opened shape
    cases outcome with
    | error e =>
      obtain rfl := Engine.applyRequest_error_attachments run
      obtain ⟨ti,left,alike⟩ := opened.abort
      simp only at shape left
      rw [shape,left]
      exact ⟨m,.idle fun _ => rfl,current.aborted alike⟩
    | ok result =>
      simp only at shape
      have store := @Engine.applyWrite_eq_txn _ _ f.store f.lm cmd (result,Engine.headerRevision w) (by rw [shape])
      rw [store,shape]
      refine ⟨_,?_,current.txn _⟩
      cases cmd with
      | put cmd =>
        obtain ⟨found,lm⟩ := Engine.applyRequest_put_attachments run
        exact .put found lm
      | delete cmd => exact .delete (Engine.applyRequest_delete_attachments run)
      | txn cmd =>
        refine .txn ?_ (Engine.applyRequest_txn_attachments run)
        obtain ⟨results,ops⟩ := Engine.applyRequest_txn_ran run
        exact (Engine.applyTxnOps_ok_iff (.new current.settled)).mp ⟨_,_,ops⟩

theorem sameKeySets_checkpoint (checkpoints : List Checkpoint) (lm : LeaseManager) (s : KvStore) :
    lm.SameKeySets (lm.applyCheckpoint s checkpoints).1 := by
  induction checkpoints generalizing lm s with
  | nil => exact fun _ => rfl
  | cons ck rest ih =>
    rw [LeaseManager.applyCheckpoint]
    cases found : lm.find? ck.leaseID with
    | none => exact ih lm s
    | some l =>
      simp only
      split
      · exact ih lm s
      · intro id
        refine (ih _ _ id).trans ?_
        rw [LeaseManager.find_save]
        split
        next same =>
          obtain rfl : id = ck.leaseID := Eq.trans same (LeaseManager.id_of_find found :)
          rw [found]
          rfl
        next => rfl

theorem sameKeySets_keepAlive (lm : LeaseManager) (env : Env) (s : KvStore) (id : Int64) :
    lm.SameKeySets (LeaseManager.keepAlive env lm s id).1.1 := by
  unfold LeaseManager.keepAlive
  split
  · exact fun _ => rfl
  · cases found : lm.find? id with
    | none => exact fun _ => rfl
    | some l =>
      intro id'
      simp only [LeaseManager.find_updateHeap,LeaseManager.find_save]
      split
      next same =>
        have named : id' = id := (same : _ = l.id).trans (LeaseManager.id_of_find found)
        rw [named,found]
        rfl
      next => rfl

theorem applyLease_moves (current : f.store.Current m) (env : Env) (cmd : LeaseRequest) :
    ∃ m', Moves f (f.applyLease env cmd).1 m (.lease cmd) m' ∧ (f.applyLease env cmd).1.store.Current m' := by
  have persist : ∀ s' l, KvStore.Current s' m → (LeaseManager.persist s' l).Current m :=
    fun s' l shown => shown.same (KvStore.SameKv.persist s' l)
  cases cmd with
  | grant id ttl =>
    refine ⟨m,?_,LeaseManager.grant_store persist current env f.lm id ttl⟩
    change Moves f { f with lm := (LeaseManager.grant env f.lm f.store id ttl).1.1, store := _ } m _ m
    unfold LeaseManager.grant
    split
    · exact .idle fun _ => rfl
    next nonzero =>
      split
      · exact .idle fun _ => rfl
      · unfold LeaseManager.addLease
        cases found : f.lm.find? id with
        | some l => exact .idle fun _ => rfl
        | none =>
          refine .grant (l := Lease.new env.now id (min ttl maxTTL)) nonzero found rfl fun id' => ?_
          simp only [LeaseManager.find_pushToHeap,LeaseManager.find_save]
          rfl
  | revoke id =>
    change ∃ m', Moves f { f with lm := (LeaseManager.revoke env f.lm f.store id).1.1, store := _ } m _ m' ∧
      (LeaseManager.revoke env f.lm f.store id).1.2.Current m'
    cases found : f.lm.find? id with
    | none =>
      rw [LeaseManager.revoke_eq current.settled,found]
      exact ⟨m,.idle fun _ => rfl,current⟩
    | some l =>
      refine ⟨_,@Moves.remove _ _ _ _ [id] _ (fun id' => ?_) (fun key => ?_),current.revoke env found⟩
      · have named : l.id = id := LeaseManager.id_of_find found
        simp only [LeaseManager.revoke_eq current.settled,found,LeaseManager.find_removeFromHeap,LeaseManager.find_remove,
          LeaseManager.find_save,List.mem_singleton]
        by_cases same : id' = id <;> simp [same,named]
      · rw [(env.perm _).mem_iff,SortedMap.mem_keys]
        simp [LeaseManager.attached,found]
  | keepAlive id =>
    exact ⟨m,.idle (sameKeySets_keepAlive f.lm env f.store id),LeaseManager.keepAlive_store persist current env f.lm id⟩
  | lookup id => exact ⟨m,.idle fun _ => rfl,current⟩
  | checkpoint checkpoints =>
    exact ⟨m,.idle (sameKeySets_checkpoint checkpoints f.lm f.store),
      LeaseManager.applyCheckpoint_store persist current checkpoints f.lm⟩
  | expire ids =>
    refine ⟨_,@Moves.remove _ _ _ _ ids _ (fun id => ?_) (fun key => LeaseManager.mem_expiredKeys),current.applyExpired env f.lm ids⟩
    change (LeaseManager.applyExpired env f.lm f.store ids).1.1.find? id = _
    rw [LeaseManager.applyExpired_eq current.settled]
    exact LeaseManager.find_collectExpired env ids f.lm [] 0 id

theorem apply_moves (current : f.store.Current m) (env : Env) {log : Log} (uncompacted : log.Uncompacted) :
    (f.apply env log).1 = f ∨ ∃ request m', log.request? = some request ∧ f.store.applyIndex < log.index ∧
      Moves f (f.apply env log).1 m request m' ∧ (f.apply env log).1.store.Current m' := by
  rcases f.apply_cases env log with ⟨same,-⟩ | ⟨request,decoded,new,g,started,outcome,run,-,ended⟩
  · exact Or.inl same
  refine Or.inr ?_
  have known := current.same (KvStore.SameKv.updateInmemRaftMeta f.store log.index log.term)
  -- the command sees the store with the index of the entry, in which all reads are the same
  have moves : ∃ m', Moves f g m request m' ∧ g.store.Current m' := by
    cases request with
    | kv cmd =>
      obtain ⟨m',moves,after⟩ := applyKv_moves (f := { f with store := f.store.updateInmemRaftMeta log.index log.term }) known cmd
      change (applyKv _ cmd) = _ at run
      rw [run] at moves after
      refine ⟨m',?_,after⟩
      cases moves with
      | idle same => exact .idle same
      | put found lm => exact .put found lm
      | delete lm => exact .delete lm
      | txn runs lm => exact .txn runs lm
      | remove lm attached => exact .remove lm attached
    | lease cmd =>
      obtain ⟨m',moves,after⟩ := applyLease_moves (f := { f with store := f.store.updateInmemRaftMeta log.index log.term }) known env cmd
      change (applyLease _ env cmd) = _ at run
      rw [run] at moves after
      refine ⟨m',?_,after⟩
      cases moves with
      | idle same => exact .idle same
      | grant nonzero new empty lm => exact .grant nonzero new empty lm
      | remove lm attached => exact .remove lm attached
    | compaction rev =>
      rw [Log.Uncompacted,Log.request?,decoded] at uncompacted
      exact absurd (uncompacted _ rfl) (by simp [Request.isCompaction])
    | ot cmd =>
      cases cmd with
      | writeAll blob =>
        obtain rfl : _ = g := congrArg Prod.fst run
        exact ⟨m,.idle fun _ => rfl,known.same (KvStore.SameKv.applyWriteAll _ _ _)⟩
      | generateClusterKey key =>
        obtain rfl : _ = g := congrArg Prod.fst run
        exact ⟨m,.idle fun _ => rfl,known.same (KvStore.SameKv.applyGenerateClusterKey _ _ _)⟩
  obtain ⟨m',moves,after⟩ := moves
  refine ⟨request,m',by rw [Log.request?,decoded],new,?_⟩
  rcases ended with ⟨e,-,same⟩ | ⟨r,-,same⟩
  · rw [same]
    exact ⟨moves,after⟩
  · rw [same]
    refine ⟨?_,after.same (KvStore.SameKv.persistRaftMeta _)⟩
    cases moves with
    | idle same => exact .idle same
    | put found lm => exact .put found lm
    | delete lm => exact .delete lm
    | txn runs lm => exact .txn runs lm
    | grant nonzero new empty lm => exact .grant nonzero new empty lm
    | remove lm attached => exact .remove lm attached

end Fsm

end Kave
