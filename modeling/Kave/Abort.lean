import Kave.Replica

/-! Transactions that do not commit: a command that fails is taken back, and what is left when it is the commit that
    fails. -/

namespace Kave

open TreeIndex

/-- The clock at `now`, no time passing, and key sets iterated in key order. -/
def Env.plain (now : Int) : Env := ⟨now,0,fun keys => keys,fun keys => List.Perm.refl keys⟩

/-- The two trees give the same answers. -/
structure TreeIndex.SameAnswers (ti ti' : TreeIndex) : Prop where
  get : ∀ key rev, ti'.unsafeGet key rev = ti.unsafeGet key rev
  range : ∀ key endKey rev, ti'.range key endKey rev = ti.range key endKey rev
  revisions : ∀ key endKey rev limit, ti'.revisions key endKey rev limit = ti.revisions key endKey rev limit
  revisionsRange : ∀ key endKey startRev endRev,
    ti'.revisionsRange key endKey startRev endRev = ti.revisionsRange key endKey startRev endRev

theorem TreeIndex.Alike.sameAnswers {ti ti' : TreeIndex} (alike : ti'.Alike ti) : ti.SameAnswers ti' :=
  ⟨alike.unsafeGet,alike.range,alike.revisions,alike.revisionsRange⟩

/-- A put, delete or txn command that fails leaves no trace. -/
theorem failed_write_leaves_no_trace (opts : OtOptions) (nodeID : String) (events : List ReplicaEvent) (cmd : KvRequest)
    {e : WriteError} :
    let f := ((Replica.new opts nodeID).run events).fsm
    let after := Engine.applyWrite f.store f.lm cmd
    after.2 = .error e → f.store.kvIndex.SameAnswers after.1.1.kvIndex ∧ after.1.1.backend = f.store.backend ∧
      after.1.1.currentRev = f.store.currentRev ∧ after.1.1.keyCount = f.store.keyCount := by
  intro f after failed
  have orderly := Replica.run_orderly opts nodeID events
  rcases Engine.applyWrite_cases orderly.settled f.lm cmd with ⟨-,ti,-,left,alike⟩ | ⟨r,ws,succeeded,-⟩
  · change after.1.1 = _ at left
    rw [left]
    exact ⟨alike.sameAnswers,rfl,rfl,rfl⟩
  · change after.2 = _ at succeeded
    rw [succeeded] at failed
    cases failed

/-- A transaction that puts a new key, deletes an old one and puts it again before it asks for a future revision. -/
theorem failed_write_leaves_no_trace_txn :
    let r := (Replica.new defaultOtOptions "a").run [.apply (.plain 0) (.plain 1 (.kv (.put (.plain [97] [1] 0))))]
    let cmd := KvRequest.txn ⟨[],[.put (some (.plain [98] [2] 0)),.delete (some ⟨[97],none,false⟩),
      .put (some (.plain [97] [3] 0)),.range (some ⟨[97],none,0,9,false⟩)],[]⟩
    r.fsm.store.kvIndex.SameAnswers (Engine.applyWrite r.fsm.store r.fsm.lm cmd).1.1.kvIndex ∧
      (Engine.applyWrite r.fsm.store r.fsm.lm cmd).1.1.backend = r.fsm.store.backend ∧
      (Engine.applyWrite r.fsm.store r.fsm.lm cmd).1.1.currentRev = r.fsm.store.currentRev ∧
      (Engine.applyWrite r.fsm.store r.fsm.lm cmd).1.1.keyCount = r.fsm.store.keyCount :=
  failed_write_leaves_no_trace defaultOtOptions "a" _ _ (e := .applyTxn (.range .futureRevision)) (by decide)

/-! ### A commit that fails -/

/-- `End` with a commit that fails: the changes are taken back from the index, the new revision stays. -/
def Writer.endTxFailed (w : Writer) : KvStore :=
  if w.changes ≠ [] then
    { w.store with
      currentRev := ⟨w.store.currentRev.main + 1,0⟩
      kvIndex := dropChanges (w.startRev.main + 1) w.changes w.store.kvIndex }
  else w.store

/-- `ApplyWrite` with a commit that fails. -/
def Engine.applyWriteFailed {A : Type} [LeaseAttacher A] (s : KvStore) (a : A) (cmd : KvRequest) : KvStore × A :=
  match applyRequest s.newWriter a cmd with
  | ((w,a),.error _) => (w.abort,a)
  | ((w,a),.ok _) => (w.endTxFailed,a)

namespace KvStore

/-- The call changes nothing: it is not a put, and nothing in the range it deletes is alive. -/
def Idle (s : KvStore) : Op → Prop
  | .put _ _ _ => False
  | .deleteKey key => s.kvIndex.range key none s.currentRev.main = []
  | .deleteRange key endKey => s.kvIndex.range key endKey s.currentRev.main = []

instance (s : KvStore) : (op : Op) → Decidable (s.Idle op)
  | .put _ _ _ => isFalse id
  | .deleteKey key => inferInstanceAs (Decidable (s.kvIndex.range key none s.currentRev.main = []))
  | .deleteRange key endKey => inferInstanceAs (Decidable (s.kvIndex.range key endKey s.currentRev.main = []))

/-- The entries a deletion lists before it deletes. -/
def listed (s : KvStore) (cmd : DeleteRequest) : List Entry := (Engine.prevEntries s.newWriter cmd).toOption.getD []

/-- The command changes nothing: neither do its operations, and nothing it lists is attached to the lease of its entry. The
    listing matters only for the key and end of one zero byte, which a deletion takes for nothing and a read for everything. -/
def Quiet (s : KvStore) (lm : LeaseManager) : KvRequest → Prop
  | .put _ => False
  | .delete cmd => s.Idle (.deleteRange cmd.key cmd.endKey) ∧
      ∀ e ∈ s.listed cmd, e.leaseID ≠ 0 → lm.attached e.leaseID e.key = false
  | .txn cmd => ∀ op ∈ (Engine.branch s.newWriter cmd).filterMap TxnOp.call?, s.Idle op

end KvStore

def LeaseManager.SameKeySets (lm lm' : LeaseManager) : Prop :=
  ∀ id, (lm'.find? id).map (·.keySet) = (lm.find? id).map (·.keySet)

variable {lm lm' : LeaseManager} {s : KvStore}

theorem LeaseManager.SameKeySets.attached (same : lm.SameKeySets lm') (id : Int64) (key : Bytes) :
    lm'.attached id key = lm.attached id key := by
  have form : ∀ lm : LeaseManager, lm.attached id key =
      ((lm.find? id).map (·.keySet)).any fun keySet => (keySet.find? key).isSome := by
    intro lm
    rw [LeaseManager.attached,Option.any_map]
  rw [form,form,same id]

theorem LeaseManager.SameKeySets.isSome_find (same : lm.SameKeySets lm') (id : Int64) :
    (lm'.find? id).isSome = (lm.find? id).isSome := by
  rw [← Option.isSome_map (f := (·.keySet)),same id,Option.isSome_map]

theorem LeaseManager.sameKeySets_iff (ids : ∀ id, (lm'.find? id).isSome = (lm.find? id).isSome) :
    lm.SameKeySets lm' ↔ ∀ id key, lm'.attached id key = lm.attached id key := by
  constructor
  · exact SameKeySets.attached
  · intro same id
    have here := ids id
    cases found : lm.find? id with
    | none =>
      rw [found] at here
      have missing : lm'.find? id = none := Option.not_isSome_iff_eq_none.mp (by rw [here]; simp)
      rw [missing]
    | some l =>
      rw [found] at here
      obtain ⟨l',found'⟩ := Option.isSome_iff_exists.mp here
      rw [found']
      refine congrArg some (SortedMap.ext_find fun key => ?_)
      have isSome := same id key
      simp only [attached,found,found',Option.any_some] at isSome
      cases first : l'.keySet.find? key <;> cases second : l.keySet.find? key <;> simp_all

theorem LeaseManager.sameKeySets_detachAll_iff {lm : LeaseManager} {entries : List Entry} :
    lm.SameKeySets (Engine.detachAll lm entries) ↔ ∀ e ∈ entries, e.leaseID ≠ 0 → lm.attached e.leaseID e.key = false := by
  rw [sameKeySets_iff (isSome_find_detachAll _ _)]
  simp only [attached_detachAll,Bool.and_eq_left_iff_imp]
  constructor
  · intro same e member leased
    by_contra attached
    have free := same e.leaseID e.key (Bool.not_eq_false _ ▸ attached)
    simp only [Bool.not_eq_true',List.any_eq_false,decide_eq_true_eq] at free
    exact free e member ⟨leased,rfl,rfl⟩
  · intro none id key attached
    simp only [Bool.not_eq_true',List.any_eq_false,decide_eq_true_eq]
    rintro e member ⟨leased,rfl,rfl⟩
    rw [none e member leased] at attached
    cases attached

theorem KvStore.Settled.idle_iff (settled : s.Settled) {m : KvMap}
    (domain : s.content.Domain (s.currentRev.main + 1) m) (op : Op) : s.Idle op ↔ KvMap.opWrites m op = [] := by
  have range : ∀ key endKey, s.kvIndex.range key endKey s.currentRev.main = [] ↔
      ((m.filter fun k _ => rangeSelects key endKey k).keys).map Write.delete = [] := by
    intro key endKey
    have listed := settled.fresh.listed domain key endKey
    rw [List.map_eq_nil_iff,← listed,List.map_eq_nil_iff]
    rfl
  cases op with
  | put key value leaseID => simp [Idle,KvMap.opWrites]
  | deleteKey key => exact range key none
  | deleteRange key endKey => exact range key endKey

theorem KvStore.Settled.changes_eq_nil_iff (settled : s.Settled) (ops : List Op) :
    (Writer.runOps ops s.newWriter).1.changes = [] ↔ ∀ op ∈ ops, s.Idle op := by
  obtain ⟨m,domain⟩ := s.content.exists_domain (s.currentRev.main + 1)
  obtain ⟨w,more,run,extends_,count,-⟩ := Writer.runOps_spec ops settled.fresh domain
  have writes : ∀ ops : List Op, KvMap.opsWrites (s.currentRev.main + 1) ops m = [] ↔ ∀ op ∈ ops, s.Idle op := by
    intro ops
    induction ops with
    | nil => simp [KvMap.opsWrites]
    | cons op rest ih =>
      rw [KvMap.opsWrites,List.append_eq_nil_iff,List.forall_mem_cons,settled.idle_iff domain]
      refine and_congr_right fun none => ?_
      rw [none]
      exact ih
  rw [run,← writes,extends_.changes]
  change [] ++ more = [] ↔ _
  rw [List.nil_append,← List.length_eq_zero_iff,← count,List.length_eq_zero_iff]
  rfl

theorem Writer.Opened.endTxFailed {w : Writer} (opened : w.Opened s) :
    s.kvIndex.SameAnswers w.endTxFailed.kvIndex ∧ (w.endTxFailed.currentRev = s.currentRev ↔ w.changes = []) := by
  have undone := opened.undone
  have current : w.store.currentRev = s.currentRev := by rw [opened.store]
  unfold Writer.endTxFailed
  by_cases none : w.changes = []
  · rw [if_neg (not_not.mpr none)]
    rw [none] at undone
    exact ⟨undone.sameAnswers,fun _ => none,fun _ => current⟩
  · rw [if_pos none]
    rw [← opened.startRev] at undone
    refine ⟨undone.sameAnswers,?_,fun empty => absurd empty none⟩
    intro same
    have main := congrArg Revision.main same
    rw [current] at main
    simp only at main
    omega

theorem Engine.applyRequest_delete_attachments {w w' : Writer} {cmd : DeleteRequest} {r : KvResult}
    (run : applyRequest w lm (.delete cmd) = ((w',lm'),.ok r)) :
    lm' = detachAll lm ((prevEntries w cmd).toOption.getD []) := by
  obtain ⟨entries,prevs,-,left⟩ := applyRequest_delete_ok run
  rw [prevs]
  exact left

theorem Engine.applyRequest_txn_attachments {w w' : Writer} {cmd : TxnRequest} {r : KvResult}
    (run : applyRequest w lm (.txn cmd) = ((w',lm'),.ok r)) : lm' = lm := (congrArg (fun p => p.1.2) run).symm

/-- A failed commit goes unnoticed exactly if the transaction changes nothing. -/
theorem failed_commit_goes_unnoticed_iff (opts : OtOptions) (nodeID : String) (events : List ReplicaEvent) :
    let f := ((Replica.new opts nodeID).run events).fsm
    (∀ ops, let left := (Writer.runOps ops f.store.newWriter).1.endTxFailed
      (left.currentRev = f.store.currentRev ∧ f.store.kvIndex.SameAnswers left.kvIndex) ↔ ∀ op ∈ ops, f.store.Idle op) ∧
    ∀ cmd result, (Engine.applyRequest f.store.newWriter f.lm cmd).2 = .ok result →
      let left := Engine.applyWriteFailed f.store f.lm cmd
      (left.1.currentRev = f.store.currentRev ∧ f.store.kvIndex.SameAnswers left.1.kvIndex ∧ f.lm.SameKeySets left.2) ↔
        f.store.Quiet f.lm cmd := by
  intro f
  have settled : f.store.Settled := (Replica.run_orderly opts nodeID events).settled
  constructor
  · intro ops left
    have opened := (Writer.Opened.new settled).runOps ops
    rw [opened.endTxFailed.2, settled.changes_eq_nil_iff]
    exact ⟨fun both => both.1,fun idle => ⟨idle,opened.endTxFailed.1⟩⟩
  · intro cmd result reached left
    have opened := (Engine.applyRequest_writer settled f.lm cmd).1
    cases run : Engine.applyRequest f.store.newWriter f.lm cmd with
    | mk state outcome =>
      obtain ⟨w,lm'⟩ := state
      rw [run] at opened reached
      obtain rfl : outcome = .ok result := reached
      have shape : left = (w.endTxFailed,lm') := by
        change Engine.applyWriteFailed f.store f.lm cmd = _
        rw [Engine.applyWriteFailed, run]
      have changes : w.changes = [] ↔ ∀ op ∈ Engine.calls f.store.newWriter cmd, f.store.Idle op := by
        rw [← settled.changes_eq_nil_iff, Engine.applyRequest_calls run]
      rw [shape, opened.endTxFailed.2, changes]
      have answers := opened.endTxFailed.1
      cases cmd with
      | put cmd => simp [Engine.calls, KvStore.Idle, KvStore.Quiet]
      | txn cmd =>
        obtain rfl := Engine.applyRequest_txn_attachments run
        exact ⟨fun all => all.1,fun idle => ⟨idle,answers,fun _ => rfl⟩⟩
      | delete cmd =>
        obtain rfl := Engine.applyRequest_delete_attachments run
        change _ ∧ _ ∧ f.lm.SameKeySets (Engine.detachAll f.lm (f.store.listed cmd)) ↔ _
        rw [LeaseManager.sameKeySets_detachAll_iff]
        simp only [Engine.calls, List.mem_singleton, forall_eq]
        exact ⟨fun all => ⟨all.1,all.2.2⟩,fun both => ⟨both.1,answers,both.2⟩⟩

/-- A lease with a key, and a transaction that writes another one. -/
def leasedEvents : List ReplicaEvent := [.apply (.plain 0) (.plain 1 (.lease (.grant 7 10))),
  .apply (.plain 0) (.plain 2 (.kv (.put (.plain [97] [1] 7)))),
  .apply (.plain 0) (.plain 3 (.kv (.txn ⟨[],[.put (some (.plain [101] [2] 0))],[]⟩)))]

example : let f := ((Replica.new defaultOtOptions "a").run leasedEvents).fsm
    f.store.Idle (.deleteRange [0] (some [0])) ∧ (f.store.listed ⟨[0],some [0],true⟩).map (·.leaseID) = [7,0] := by
  decide

/-- A deletion between two keys that are there commits nothing, so that its failed commit goes unnoticed. -/
theorem failed_commit_goes_unnoticed_idle :
    let f := ((Replica.new defaultOtOptions "a").run leasedEvents).fsm
    let left := Engine.applyWriteFailed f.store f.lm (.delete ⟨[98],some [100],true⟩)
    left.1.currentRev = f.store.currentRev ∧ f.store.kvIndex.SameAnswers left.1.kvIndex ∧ f.lm.SameKeySets left.2 :=
  ((failed_commit_goes_unnoticed_iff defaultOtOptions "a" leasedEvents).2 (.delete ⟨[98],some [100],true⟩) (.delete ⟨0,[]⟩)
    (by decide)).mpr ⟨by decide,by decide⟩

/-- The commit of a put under a lease fails: the revision is used up, and the key that is not there stays attached. -/
theorem failed_commit_uses_up_revision :
    let f := ((Replica.new defaultOtOptions "a").run [.apply (.plain 0) (.plain 1 (.lease (.grant 7 10)))]).fsm
    let left := Engine.applyWriteFailed f.store f.lm (.put (.plain [97] [1] 7))
    (Engine.applyRequest f.store.newWriter f.lm (.put (.plain [97] [1] 7))).2 = .ok (.put ⟨none⟩) ∧
      f.store.currentRev.main = 0 ∧ left.1.currentRev.main = 1 ∧ left.1.newWriter.startRev.main = 1 ∧
      f.lm.attached 7 [97] = false ∧ left.2.attached 7 [97] = true := by
  decide

end Kave
