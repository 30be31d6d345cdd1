import Kave.Abort
import Kave.GobSnapshot

/-! Snapshots of the state machine and their restoration. The store, the leases and the transfer are restored one after the
    other, and the transfer refuses a state in which it has not been used. -/

namespace Kave

/-- How the backend writes its buckets to a stream and reads them back. -/
structure SnapshotCodec (Stream : Type) where
  write : Buckets → Stream
  read : Stream → Option Buckets
  read_write : ∀ b, read (write b) = some b

/-- The buckets themselves for a stream. -/
def SnapshotCodec.plain : SnapshotCodec Buckets := ⟨id,some,fun _ => rfl⟩

/-- How the records stand as bytes in the buckets of the store beneath. -/
structure Layout (B : Type) [LinearOrder B] where
  pack : Buckets → InmemStore B
  unpack : (B → Option (SortedMap Bytes Bytes)) → Option Buckets
  unpack_pack : ∀ b, unpack (pack b).contents = some b

/-- The snapshots of the store in memory. -/
def SnapshotCodec.inmem {B Stream : Type} [LinearOrder B] (gob : Gob B Stream) (layout : Layout B) : SnapshotCodec Stream where
  write b := (layout.pack b).writeTo gob ⟨_,.refl _⟩
  read r :=
    match InmemStore.readFrom gob ⟨SortedMap.empty,0⟩ r with
    | (_,some _) => none
    | (s,none) => layout.unpack s.contents
  read_write b := by
    obtain ⟨s,read,same⟩ := (layout.pack b).readFrom_writeTo gob ⟨SortedMap.empty,0⟩ ⟨_,.refl _⟩
    rw [read]
    simp only
    rw [funext same]
    exact layout.unpack_pack b

inductive RestoreError
  /-- `backend snapshot error: …` -/
  | backend
  | ot (cause : OtError)
deriving DecidableEq, Repr

namespace Fsm

variable {Stream : Type}

/-- What `Persist` of the snapshot writes. -/
def snapshot (f : Fsm) (codec : SnapshotCodec Stream) : Stream := codec.write f.store.backend.buckets

/-- `Restore` with the compaction it resumes; closing the old backend does not fail. -/
def restore (f : Fsm) (now : Readings) (codec : SnapshotCodec Stream) (bytes : Stream) : Fsm × Option Compaction × Except RestoreError Unit :=
  match codec.read bytes with
  | none => (f,none,.error .backend)
  | some b =>
    let (store,resumed) := KvStore.restore { f.store with backend := ⟨b,b :: f.store.backend.commits⟩ }
    let (lm,store) := LeaseManager.restore now store
    let run := f.om.restore store
    ({ f with store := run.1.2, lm := lm, om := run.1.1 },resumed,run.2.mapError .ot)

theorem restore_snapshot (f g : Fsm) (now : Readings) (codec : SnapshotCodec Stream) :
    g.restore now codec (f.snapshot codec) = g.restore now .plain (f.snapshot .plain) := by
  simp only [restore,snapshot,SnapshotCodec.read_write]

end Fsm

/-! ### Who writes the bucket of the transfer -/

/-- What can be in the bucket: a blob only after its check has passed. -/
def OtBucket.Checked (opts : OtOptions) (ot : OtBucket) : Prop :=
  ∀ blob, ot.blob = some blob → blob.length = opts.slotCount * opts.slotSize ∧ blob.all (· = 0) = false

variable {om : OTManager} {s : KvStore}

theorem OTManager.checkBlob_ok {blob : Option Bytes} (passes : om.checkBlob blob = .ok ()) :
    ∃ bytes, blob = some bytes ∧ bytes.length = om.opts.slotCount * om.opts.slotSize ∧ bytes.all (· = 0) = false := by
  unfold checkBlob at passes
  split at passes
  · cases passes
  next bytes =>
    split at passes
    · cases passes
    · split at passes
      · cases passes
      next size zero => exact ⟨bytes,rfl,not_not.mp size,Bool.not_eq_true _ ▸ zero⟩

/-- The bucket of the transfer of the store. -/
def KvStore.ot (s : KvStore) : OtBucket := s.backend.buckets.ot

theorem KvStore.ot_removeFromBackend (s : KvStore) (ids : List Int64) : (LeaseManager.removeFromBackend s ids).ot = s.ot := by
  rw [KvStore.ot,LeaseManager.removeFromBackend_buckets]
  rfl

theorem KvStore.Settled.ot_txn (settled : s.Settled) (ops : List Op) : (s.txn ops).ot = s.ot := by
  obtain ⟨ws,committed⟩ := settled.committed ops
  exact committed.ot

theorem Engine.ot_applyWrite {A : Type} [LeaseAttacher A] (settled : s.Settled) (a : A) (cmd : KvRequest) :
    (applyWrite s a cmd).1.1.ot = s.ot := by
  rcases applyWrite_cases settled a cmd with ⟨e,ti,-,left,-⟩ | ⟨r,ws,-,committed⟩
  · rw [left]
    rfl
  · exact committed.ot

theorem LeaseManager.ot_revoke (settled : s.Settled) (env : Env) (lm : LeaseManager) (id : Int64) :
    (revoke env lm s id).1.2.ot = s.ot := by
  rw [revoke_eq settled]
  cases lm.find? id with
  | none => rfl
  | some lease =>
    simp only
    rw [KvStore.ot_removeFromBackend]
    split
    · rfl
    · exact settled.ot_txn _

theorem LeaseManager.ot_applyExpired (settled : s.Settled) (env : Env) (lm : LeaseManager) (ids : List Int64) :
    (applyExpired env lm s ids).1.2.ot = s.ot := by
  rw [applyExpired_eq settled]
  exact (KvStore.ot_removeFromBackend _ _).trans (settled.ot_txn _)

/-- The transfer of the replica has the options of the cluster, and its bucket holds a checked blob at most. -/
structure Fsm.Transfers (opts : OtOptions) (f : Fsm) : Prop where
  options : f.om.opts = opts
  checked : f.store.ot.Checked opts

theorem Fsm.Transfers.dispatch {opts : OtOptions} {f : Fsm} (transfers : f.Transfers opts) (settled : f.store.Settled)
    (env : Env) (request : Request) : (f.dispatch env request).1.Transfers opts := by
  have kept : ∀ {g : Fsm}, g.om.opts = f.om.opts → g.store.ot = f.store.ot → g.Transfers opts := by
    intro g same ot
    refine ⟨same.trans transfers.options,?_⟩
    rw [ot]
    exact transfers.checked
  have persist : ∀ (s : KvStore) (l : Lease), s.ot = f.store.ot → (LeaseManager.persist s l).ot = f.store.ot :=
    fun s l same => same
  cases request with
  | kv cmd => exact kept rfl (Engine.ot_applyWrite settled f.lm cmd)
  | compaction targetRev =>
    refine kept rfl ?_
    change (f.store.compact targetRev).1.ot = _
    unfold KvStore.compact
    split_ifs <;> rfl
  | lease cmd =>
    cases cmd with
    | grant id ttl =>
      exact kept rfl (LeaseManager.grant_store (P := fun s => s.ot = f.store.ot) persist rfl env f.lm id ttl)
    | revoke id => exact kept rfl (LeaseManager.ot_revoke settled env f.lm id)
    | keepAlive id =>
      exact kept rfl (LeaseManager.keepAlive_store (P := fun s => s.ot = f.store.ot) persist rfl env f.lm id)
    | lookup id => exact kept rfl rfl
    | checkpoint checkpoints =>
      exact kept rfl (LeaseManager.applyCheckpoint_store (P := fun s => s.ot = f.store.ot) persist rfl checkpoints f.lm)
    | expire ids => exact kept rfl (LeaseManager.ot_applyExpired settled env f.lm ids)
  | ot cmd =>
    cases cmd with
    | writeAll blob =>
      change Transfers opts { f with store := (f.om.applyWriteAll f.store blob).1 }
      unfold OTManager.applyWriteAll
      split
      · exact kept rfl rfl
      · split
        · exact kept rfl rfl
        next passes =>
          obtain ⟨bytes,rfl,size,some⟩ := OTManager.checkBlob_ok passes
          refine ⟨transfers.options,?_⟩
          rintro _ ⟨⟩
          rw [← transfers.options]
          exact ⟨size,some⟩
    | generateClusterKey key =>
      have codec : ∀ {om : OTManager}, f.om.initTokenCodec key = .ok om → om.opts = f.om.opts := by
        intro om run
        unfold OTManager.initTokenCodec at run
        cases made : newTokenCodec (some key) f.om.opts.tokenTTL with
        | error e => simp [made,Except.map] at run
        | ok codec =>
          simp only [made,Except.map,Except.ok.injEq] at run
          rw [← run]
      change Transfers opts { f with om := _, store := (f.om.applyGenerateClusterKey f.store key).1.2 }
      unfold OTManager.applyGenerateClusterKey
      split
      · split
        · exact kept rfl rfl
        next run => exact kept (codec run) rfl
      · simp only
        split
        · exact ⟨transfers.options,transfers.checked⟩
        next run => exact ⟨(codec run).trans transfers.options,transfers.checked⟩

theorem Fsm.Transfers.apply {opts : OtOptions} {f : Fsm} (transfers : f.Transfers opts) (orderly : f.store.Orderly)
    (env : Env) (log : Log) : (f.apply env log).1.Transfers opts := by
  rcases f.apply_cases env log with ⟨same,-⟩ | ⟨request,-,-,g,started,outcome,run,-,ended⟩
  · rw [same]
    exact transfers
  · have after := dispatch (f := { f with store := f.store.updateInmemRaftMeta log.index log.term })
      ⟨transfers.options,transfers.checked⟩ (orderly.same (.updateInmemRaftMeta _ _ _)).settled env request
    rw [run] at after
    rcases ended with ⟨e,-,same⟩ | ⟨r,-,same⟩
    · rw [same]
      exact after
    · rw [same]
      exact ⟨after.options,after.checked⟩

theorem newTokenCodec_ok_iff (clusterKey : Option Bytes) (ttl : Int) :
    (∃ codec, newTokenCodec (otValue clusterKey) ttl = .ok codec) ↔
      ∃ key, clusterKey = some key ∧ key.length = clusterKeySize := by
  have size : (∃ codec, newTokenCodec (otValue clusterKey) ttl = .ok codec) ↔
      ((otValue clusterKey).getD []).length = clusterKeySize := by
    unfold newTokenCodec
    by_cases wrong : ((otValue clusterKey).getD []).length = clusterKeySize
    · simp [wrong]
    · simp [wrong]
  rw [size]
  cases clusterKey with
  | none => simp [otValue,clusterKeySize]
  | some key =>
    by_cases empty : key = []
    · simp [otValue,Option.filter,empty,clusterKeySize]
    · simp [otValue,Option.filter,empty]

theorem OTManager.checkBlob_stored {ot : OtBucket} (checked : ot.Checked om.opts) :
    om.checkBlob (otValue ot.blob) = .ok () ↔ ot.blob ≠ none := by
  cases stored : ot.blob with
  | none => simp [otValue,checkBlob]
  | some blob =>
    obtain ⟨size,some⟩ := checked blob stored
    have full : blob ≠ [] := by
      rintro rfl
      simp at some
    simp [otValue,Option.filter,full,checkBlob,size,some]

theorem OTManager.restore_ok_iff (checked : s.ot.Checked om.opts) :
    (om.restore s).2 = .ok () ↔ (∃ key, s.ot.clusterKey = some key ∧ key.length = clusterKeySize) ∧ s.ot.blob ≠ none := by
  rw [← newTokenCodec_ok_iff s.ot.clusterKey om.opts.tokenTTL]
  have blob : ∀ codec : TokenCodec, ({ om with codec := some codec } : OTManager).checkBlob (otValue s.ot.blob) = .ok () ↔
      s.ot.blob ≠ none := fun codec => @checkBlob_stored { om with codec := some codec } _ checked
  unfold restore
  rw [show s.backend.buckets.ot = s.ot from rfl]
  cases newTokenCodec (otValue s.ot.clusterKey) om.opts.tokenTTL with
  | error e => simp
  | ok codec =>
    simp only [Except.ok.injEq,exists_eq',true_and]
    rw [← blob codec]
    cases ({ om with codec := some codec } : OTManager).checkBlob (otValue s.ot.blob) with
    | error e => simp
    | ok u => simp

theorem OTManager.restore_transfers (om : OTManager) (checked : s.ot.Checked om.opts) :
    (om.restore s).1.1.opts = om.opts ∧ (om.restore s).1.2.ot.Checked om.opts := by
  unfold restore
  split
  · exact ⟨rfl,checked⟩
  next codec made =>
    simp only
    split
    · exact ⟨rfl,checked⟩
    next passes =>
      obtain ⟨bytes,stored,size,some⟩ := checkBlob_ok passes
      refine ⟨rfl,?_⟩
      rintro _ ⟨⟩
      rw [stored]
      exact ⟨size,some⟩

theorem Replica.run_transfers (opts : OtOptions) (nodeID : String) (events : List ReplicaEvent) :
    ((new opts nodeID).run events).fsm.Transfers opts := by
  have both : ((new opts nodeID).run events).fsm.store.Orderly ∧ ((new opts nodeID).run events).fsm.Transfers opts := by
    refine run_invariant (P := fun r => r.fsm.store.Orderly ∧ r.fsm.Transfers opts) ?_ ?_ events
    · rintro r event ⟨orderly,transfers⟩
      refine ⟨r.step_orderly event orderly,?_⟩
      cases event with
      | apply env log => exact transfers.apply orderly env log
      | advance i =>
        refine ⟨transfers.options,?_⟩
        have same : (r.sys.advance i).store.ot = r.fsm.store.ot := by
          rw [Sys.advance]
          split
          · rfl
          next job at_ => exact (job.step_others r.fsm.store).2
        change (r.sys.advance i).store.ot.Checked opts
        rw [same]
        exact transfers.checked
      | restart now =>
        have leases : (LeaseManager.restore now (KvStore.new r.fsm.store.backend).restore.1).2.ot = r.fsm.store.ot :=
          LeaseManager.restore_store (P := fun s => s.ot = r.fsm.store.ot) (fun s l same => same)
            (s := (KvStore.new r.fsm.store.backend).restore.1) rfl now
        have restored := (OTManager.new r.fsm.om.opts).restore_transfers
          (s := (LeaseManager.restore now (KvStore.new r.fsm.store.backend).restore.1).2) (by
            rw [leases]
            change r.fsm.store.ot.Checked r.fsm.om.opts
            rw [transfers.options]
            exact transfers.checked)
        refine ⟨restored.1.trans transfers.options,?_⟩
        rw [← transfers.options]
        exact restored.2
    · refine ⟨KvStore.Orderly.new,rfl,?_⟩
      rintro blob ⟨⟩
  exact both.2

/-- The blob that a replica has stored passes the check of its own transfer, over any restarts. -/
theorem stored_blob_passes_check (opts : OtOptions) (nodeID : String) (events : List ReplicaEvent) :
    let f := ((Replica.new opts nodeID).run events).fsm
    f.om.opts = opts ∧ (f.store.ot.blob ≠ none → f.om.checkBlob (otValue f.store.ot.blob) = .ok ()) := by
  intro f
  have transfers : f.Transfers opts := Replica.run_transfers opts nodeID events
  exact ⟨transfers.options,(OTManager.checkBlob_stored (by rw [transfers.options]; exact transfers.checked)).mpr⟩

/-- A snapshot can be restored exactly if the transfer was used before it was taken: it holds a cluster key of the right
    size and a blob. -/
theorem snapshot_restores_iff {Stream : Type} (codec : SnapshotCodec Stream) (opts : OtOptions) (nodeID nodeID' : String)
    (events events' : List ReplicaEvent) (now : Readings) :
    let f := ((Replica.new opts nodeID).run events).fsm
    let g := ((Replica.new opts nodeID').run events').fsm
    (g.restore now codec (f.snapshot codec)).2.2 = .ok () ↔
      (∃ key, f.store.ot.clusterKey = some key ∧ key.length = clusterKeySize) ∧ f.store.ot.blob ≠ none := by
  intro f g
  have transfers : f.Transfers opts := Replica.run_transfers opts nodeID events
  have options : g.om.opts = opts := (Replica.run_transfers opts nodeID' events').options
  unfold Fsm.restore Fsm.snapshot
  rw [codec.read_write]
  simp only
  generalize restored : (KvStore.restore _) = run
  obtain ⟨store,resumed⟩ := run
  have same : store.ot = f.store.ot := by
    rw [show store = (store,resumed).1 from rfl, ← restored]
    rfl
  have leases : (LeaseManager.restore now store).2.ot = f.store.ot :=
    LeaseManager.restore_store (P := fun s => s.ot = f.store.ot) (fun s l kept => kept) same now
  have transfer := g.om.restore_ok_iff (s := (LeaseManager.restore now store).2) (by
    rw [leases, options]
    exact transfers.checked)
  rw [leases] at transfer
  rw [← transfer]
  cases (g.om.restore (LeaseManager.restore now store).2).2 with
  | error e => simp [Except.mapError]
  | ok u => simp [Except.mapError]

/-- The snapshot of a cluster that never used the transfer, with any stream and so with that of the store in memory. -/
theorem snapshot_of_unused_cluster_fails :
    let f := (Replica.new defaultOtOptions "a").fsm
    (f.restore 0 .plain (f.snapshot .plain)).2.2 = .error (.ot (.restoreCodec .invalidClusterKeySize)) ∧
      ∀ layout : Layout Nat, (f.restore 0 (.inmem (Gob.values Nat) layout) (f.snapshot (.inmem (Gob.values Nat) layout))).2.2 =
        .error (.ot (.restoreCodec .invalidClusterKeySize)) := by
  intro f
  have fails : (f.restore 0 .plain (f.snapshot .plain)).2.2 = .error (.ot (.restoreCodec .invalidClusterKeySize)) := by decide
  refine ⟨fails,fun layout => ?_⟩
  rw [f.restore_snapshot]
  exact fails

end Kave
