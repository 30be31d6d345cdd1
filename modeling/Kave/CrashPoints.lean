import Kave.Archives
import Kave.Runs

/-! A node that crashes between two commits of an entry comes up on what is durable and is given the log again. The apply index in the
    file tells it which entries to pass over. Most commands store it together with their effect or can be applied twice; removing a
    lease does not: its keys, with the index, are committed before its record. -/

namespace Kave

open TreeIndex

/-! ### Entries that are applied -/

namespace Fsm

variable {f g : Fsm} {h : History} {env : Env} {log : Log}

theorem apply_other (other : log.request? = none) : (f.apply env log).1 = f := by
  rcases f.apply_cases env log with ⟨same,-⟩ | ⟨request,decoded,-⟩
  · exact same
  · simp [Log.request?,decoded] at other

theorem apply_old (old : log.index ≤ f.store.applyIndex) : (f.apply env log).1 = f := by rw [Fsm.apply,if_pos old]

/-- The node as a command finds it. -/
def told (f : Fsm) (log : Log) : Fsm := { f with store := f.store.updateInmemRaftMeta log.index log.term }

theorem apply_request (env : Env) (new : f.store.applyIndex < log.index) {request : Request} (is : log.request? = some request) :
    (∃ e, ((f.told log).dispatch env request).2.2 = .error e ∧ (f.apply env log).1 = ((f.told log).dispatch env request).1) ∨
    ∃ r, ((f.told log).dispatch env request).2.2 = .ok r ∧ (f.apply env log).1 =
      { ((f.told log).dispatch env request).1 with store := ((f.told log).dispatch env request).1.store.persistRaftMeta } := by
  obtain ⟨index,term,data⟩ := log
  have data : data = some (.full request) := by
    match data with
    | some (.full request) => simpa [Log.request?] using is
    | some (.missing kind) => simp [Log.request?] at is
    | none => simp [Log.request?] at is
  subst data
  rw [Fsm.apply,if_neg (not_le.mpr new)]
  simp only [Command.check]
  change (∃ e, (dispatch (f.told _) env request).2.2 = _ ∧ _) ∨ _
  unfold told
  generalize dispatch _ env request = run
  obtain ⟨g,started,outcome⟩ := run
  cases outcome with
  | error e => exact .inl ⟨e,rfl,rfl⟩
  | ok r => exact .inr ⟨r,rfl,rfl⟩

theorem told_archives (archives : f.store.Archives h) (log : Log) : (f.told log).store.Archives h :=
  archives.same (.updateInmemRaftMeta f.store log.index log.term)

theorem apply_sameKv (env : Env) (new : f.store.applyIndex < log.index) {request : Request} (is : log.request? = some request) :
    ((f.told log).dispatch env request).1.store.SameKv (f.apply env log).1.store ∧
      (f.apply env log).1.lm = ((f.told log).dispatch env request).1.lm := by
  rcases apply_request env new is with ⟨e,-,ended⟩ | ⟨r,-,ended⟩
  · rw [ended]
    exact ⟨.refl _,rfl⟩
  · rw [ended]
    exact ⟨.persistRaftMeta _,rfl⟩

theorem applyIndex_of_request (settled : f.store.Settled) (env : Env) (new : f.store.applyIndex < log.index) {request : Request}
    (is : log.request? = some request) : (f.apply env log).1.store.applyIndex = log.index := by
  have index := Fsm.dispatch_applyIndex (f := f.told log) (settled.of_content rfl settled.before.valid fun _ _ member => member) env request
  rcases apply_request env new is with ⟨e,-,ended⟩ | ⟨r,-,ended⟩ <;> rw [ended] <;> exact index

theorem apply_applyIndex (settled : f.store.Settled) (env : Env) (log : Log) : (f.apply env log).1.store.applyIndex = f.store.applyIndex ∨
    (f.apply env log).1.store.applyIndex = log.index := by
  rcases f.apply_cases env log with ⟨same,-⟩ | ⟨request,decoded,new,-⟩
  · rw [same]
    exact .inl rfl
  · exact .inr (applyIndex_of_request settled env new (show log.request? = some request by simp [Log.request?,decoded]))

end Fsm

/-- An entry that a node is given again while it is up changes nothing, whatever has come of it. -/
theorem second_delivery_is_ignored (opts : OtOptions) (nodeID : String) (events : List ReplicaEvent) (env env' : Env) (log : Log) :
    let f := ((Replica.new opts nodeID).run events).fsm
    ((f.apply env log).1.apply env' log).1 = (f.apply env log).1 := by
  intro f
  by_cases old : log.index ≤ f.store.applyIndex
  · rw [Fsm.apply_old old,Fsm.apply_old old]
  · cases is : log.request? with
    | none => rw [Fsm.apply_other is,Fsm.apply_other is]
    | some request =>
      have orderly : f.store.Orderly := Replica.run_orderly opts nodeID events
      exact Fsm.apply_old (Fsm.applyIndex_of_request orderly.settled env (not_le.mp old) is).ge

/-- Whether there is a lease after an entry that is applied. -/
def Log.leaseAfter (log : Log) (id : Int64) (before : Bool) : Bool := log.request?.elim before fun request => request.leaseAfter id before

theorem Log.leaseAfter_cases (log : Log) (id : Int64) :
    (∀ before, log.leaseAfter id before = before) ∨ ∃ after, ∀ before, log.leaseAfter id before = after := by
  unfold Log.leaseAfter
  cases log.request? with
  | none => exact .inl fun _ => rfl
  | some request => exact request.leaseAfter_cases id

theorem Log.leaseAfter_twice (log : Log) (id : Int64) (before : Bool) :
    log.leaseAfter id (log.leaseAfter id before) = log.leaseAfter id before := by
  rcases log.leaseAfter_cases id with same | ⟨after,is⟩
  · rw [same]
  · rw [is,is]

namespace Fsm

variable {f g : Fsm} {h : History} {env env' : Env} {log : Log}

theorem apply_leases (archives : f.store.Archives h) (new : f.store.applyIndex < log.index) (id : Int64) :
    ((f.apply env log).1.lm.find? id).isSome = log.leaseAfter id (f.lm.find? id).isSome := by
  cases is : log.request? with
  | none => rw [apply_other is,Log.leaseAfter,is]; rfl
  | some request =>
    rw [(apply_sameKv env new is).2,dispatch_leases (told_archives archives log).settled,Log.leaseAfter,is]
    rfl

/-! ### The keys that a command takes -/

/-- The live keys in the key sets of the leases that the command takes away. -/
def takes (f : Fsm) (request : Request) : List Bytes :=
  (f.store.liveEntries.map (·.key)).filter fun key => request.ends.any (f.lm.attached · key)

theorem mem_takes (archives : f.store.Archives h) {request : Request} {key : Bytes} :
    key ∈ f.takes request ↔ (h.last.find? key).isSome = true ∧ ∃ id ∈ request.ends, f.lm.attached id key = true := by
  rw [takes,List.mem_filter,List.any_eq_true]
  refine and_congr_left fun _ => ?_
  rw [List.mem_map]
  constructor
  · rintro ⟨e,member,rfl⟩
    obtain ⟨item,found,-⟩ := archives.holds.mem_liveEntries.mp member
    rw [found]
    rfl
  · intro live
    obtain ⟨item,found⟩ := Option.isSome_iff_exists.mp live
    exact ⟨item.entry key,archives.holds.mem_liveEntries.mpr ⟨item,found,rfl⟩,rfl⟩

theorem apply_histories (env env' : Env) (archives : f.store.Archives h) (archives' : g.store.Archives h) (new : f.store.applyIndex < log.index)
    (new' : g.store.applyIndex < log.index) (uncompacted : log.Uncompacted)
    (takes : ∀ request ∈ log.request?, f.takes request = g.takes request) :
    ∃ h', (f.apply env log).1.store.Archives h' ∧ (g.apply env' log).1.store.Archives h' := by
  cases is : log.request? with
  | none =>
    rw [apply_other is,apply_other is]
    exact ⟨h,archives,archives'⟩
  | some request =>
    have same : ∀ key, (h.last.find? key).isSome = true → ((∃ id ∈ request.ends, f.lm.attached id key = true) ↔
        ∃ id ∈ request.ends, g.lm.attached id key = true) := by
      intro key live
      have taken : key ∈ f.takes request ↔ key ∈ g.takes request := by rw [takes request is]
      rw [mem_takes archives,mem_takes archives'] at taken
      simpa [live] using taken
    obtain ⟨h',after,after'⟩ := dispatch_histories (told_archives archives log) (told_archives archives' log) env env'
      (uncompacted request is) same
    exact ⟨h',after.same (apply_sameKv env new is).1,after'.same (apply_sameKv env' new' is).1⟩

end Fsm

theorem KvStore.Archives.transfer {s s' : KvStore} {h h' : History} (archives : s.Archives h) (other : s.Archives h')
    (archives' : s'.Archives h') : s'.Archives h := by
  have current : h'.current = h.current := other.refines_.current.symm.trans archives.refines_.current
  refine ⟨archives'.mirrored,⟨archives'.settled,archives'.refines_.current.trans current,archives.refines_.reach,?_⟩,archives'.compacted,
    archives'.scheduled,archives'.finished⟩
  intro r low high key
  have there := archives'.refines_.agree r low (high.trans_eq current.symm) key
  have here := other.refines_.agree r low (high.trans_eq current.symm) key
  rw [there,← here]
  exact archives.refines_.agree r low high key

/-! ### What is durable of the leases -/

namespace LeaseManager

/-- Every record in the bucket is of a lease that is there. -/
def Listed (lm : LeaseManager) (bucket : SortedMap UInt64 LeaseRecord) : Prop :=
  ∀ id, (bucket.find? (leaseBucketKey id)).isSome = true → (lm.find? id).isSome = true

theorem Listed.ledger : Ledger Listed where
  congr {lm lm' bucket} listed same id there := by
    have kept := congrArg Option.isSome (same id)
    rw [Option.isSome_map,Option.isSome_map] at kept
    rw [kept]
    exact listed id there
  save {lm bucket l} listed _ id there := by
    rw [SortedMap.find_insert] at there
    rw [find_save]
    by_cases same : id = l.id
    · simp [same]
    · rw [if_neg (mt leaseBucketKey_inj.mp same)] at there
      rw [if_neg same]
      exact listed id there
  remove {lm lm' bucket ids} listed removed id there := by
    rw [SortedMap.find_foldl_erase] at there
    rw [removed]
    by_cases gone : id ∈ ids
    · simp [List.mem_map_of_mem gone] at there
    · rw [if_neg gone]
      split at there
      · cases there
      · exact listed id there

end LeaseManager

/-- The node has its history and its leases in the file. -/
structure Fsm.Saved (f : Fsm) (h : History) : Prop where
  archives : f.store.Archives h
  backed : f.Backed
  listed : f.lm.Listed f.store.backend.buckets.lease

namespace Fsm.Saved

variable {f : Fsm} {h : History} {env : Env} {log : Log}

theorem new (opts : OtOptions) (nodeID : String) : (Fsm.new opts nodeID).Saved History.empty :=
  ⟨.new,LeaseManager.Backed.new,fun id there => by simp [Fsm.new,KvStore.new,Backend.empty,Buckets.empty] at there⟩

theorem isSome_record (saved : f.Saved h) (id : Int64) :
    (f.store.backend.buckets.lease.find? (leaseBucketKey id)).isSome = (f.lm.find? id).isSome := by
  rw [Bool.eq_iff_iff]
  refine ⟨saved.listed id,fun there => ?_⟩
  obtain ⟨l,found⟩ := Option.isSome_iff_exists.mp there
  rw [saved.backed.records id l found]
  rfl

/-- A command that fails has left the file of the leases and of the records, and the leases, as they were. -/
theorem failed (saved : f.Saved h) {request : Request} (uncompacted : request.isCompaction = false) {e : ApplyError}
    (failed : (f.dispatch env request).2.2 = .error e) :
    (f.dispatch env request).1.store.Archives h ∧
      (f.dispatch env request).1.store.backend.buckets.metadata = f.store.backend.buckets.metadata ∧
      ∀ id, ((f.dispatch env request).1.lm.find? id).isSome = (f.lm.find? id).isSome := by
  have settled := saved.archives.settled
  cases request with
  | kv cmd =>
    refine ⟨?_,?_,fun id => ?_⟩
    · rcases applyKv_archives saved.archives cmd with ⟨r,ok,-⟩ | ⟨e',-,-,archives⟩
      · exact absurd (ok.symm.trans failed) (by simp)
      · exact archives
    · rcases applyKv_archives saved.archives cmd with ⟨r,ok,-⟩ | ⟨e',-,backend,-⟩
      · exact absurd (ok.symm.trans failed) (by simp)
      · change (f.applyKv cmd).1.store.backend.buckets.metadata = _
        rw [backend]
    · rw [dispatch_leases settled]
      simp [Request.leaseAfter,Request.ends]
  | compaction rev => cases uncompacted
  | ot cmd =>
    refine ⟨saved.archives.same (f.applyOT_sameKv cmd),?_,fun id => ?_⟩
    · cases cmd with
      | writeAll blob =>
        change (f.om.applyWriteAll f.store blob).1.backend.buckets.metadata = _
        unfold OTManager.applyWriteAll
        split
        · rfl
        · split <;> rfl
      | generateClusterKey key =>
        change (f.om.applyGenerateClusterKey f.store key).1.2.backend.buckets.metadata = _
        unfold OTManager.applyGenerateClusterKey
        split <;> split <;> rfl
    · rw [dispatch_leases settled]
      simp [Request.leaseAfter,Request.ends]
  | lease cmd =>
    -- a lease command fails before it has done anything
    have unchanged : (f.applyLease env cmd).1 = f := by
      change (f.applyLease env cmd).2.2 = .error e at failed
      cases cmd with
      | grant id ttl =>
        simp only [applyLease,ofLease] at failed ⊢
        unfold LeaseManager.grant LeaseManager.addLease at failed ⊢
        split at failed
        next zero => simp [zero]
        next nonzero =>
          split at failed
          next short => simp [nonzero,short]
          next long =>
            cases found : f.lm.find? id with
            | some l => simp [nonzero,long]
            | none => simp [found,Except.mapError,Except.map] at failed
      | revoke id =>
        simp only [applyLease,ofLease,LeaseManager.revoke_eq settled] at failed ⊢
        cases found : f.lm.find? id with
        | none => simp
        | some l => simp [found,Except.mapError,Except.map] at failed
      | keepAlive id =>
        simp only [applyLease,ofLease] at failed ⊢
        unfold LeaseManager.keepAlive at failed ⊢
        split at failed
        next zero => simp [zero]
        next nonzero =>
          cases found : f.lm.find? id with
          | none => simp [nonzero]
          | some l => simp [found,Except.mapError,Except.map] at failed
      | lookup id => rfl
      | checkpoint checkpoints => simp [applyLease,ofLease,Except.mapError,Except.map] at failed
      | expire ids =>
        simp only [applyLease,ofLease,LeaseManager.applyExpired_eq settled] at failed
        simp [Except.mapError,Except.map] at failed
    change (f.applyLease env cmd).1.store.Archives h ∧ (f.applyLease env cmd).1.store.backend.buckets.metadata = _ ∧
      ∀ id, ((f.applyLease env cmd).1.lm.find? id).isSome = _
    rw [unchanged]
    exact ⟨saved.archives,rfl,fun _ => rfl⟩

theorem told (saved : f.Saved h) (log : Log) : (f.told log).Saved h := ⟨told_archives saved.archives log,saved.backed,saved.listed⟩

theorem apply (saved : f.Saved h) (new : f.store.applyIndex < log.index) (uncompacted : log.Uncompacted) (env : Env) :
    ∃ h', (f.apply env log).1.Saved h' ∧
      ((f.apply env log).1.store.backend.buckets.metadata.raftApplyIndex = some log.index ∨
        (f.apply env log).1.store.backend.buckets.metadata.raftApplyIndex = f.store.backend.buckets.metadata.raftApplyIndex ∧ h' = h ∧
          ∀ id, ((f.apply env log).1.lm.find? id).isSome = (f.lm.find? id).isSome) := by
  have backed := saved.backed.apply saved.archives.orderly env log
  have listed := LeaseManager.Listed.ledger.apply saved.listed saved.archives.orderly env log
  cases is : log.request? with
  | none =>
    rw [apply_other is] at backed listed ⊢
    exact ⟨h,saved,.inr ⟨rfl,rfl,fun _ => rfl⟩⟩
  | some request =>
    have told := saved.told log
    rcases apply_request env new is with ⟨e,error,ended⟩ | ⟨r,-,ended⟩
    · obtain ⟨archives,metadata,leases⟩ := told.failed (uncompacted request is) error
      rw [ended] at backed listed ⊢
      exact ⟨h,⟨archives,backed,listed⟩,.inr ⟨congrArg MetaBucket.raftApplyIndex metadata,rfl,leases⟩⟩
    · obtain ⟨h',archives,-⟩ := dispatch_histories told.archives told.archives env env (uncompacted request is) fun _ _ => Iff.rfl
      refine ⟨h',⟨archives.same (apply_sameKv env new is).1,backed,listed⟩,.inl ?_⟩
      rw [ended]
      change some ((f.told log).dispatch env request).1.store.applyIndex = _
      rw [dispatch_applyIndex told.archives.settled]
      rfl

end Fsm.Saved

/-! ### Crash points -/

namespace Fsm

/-- The contents of the file that a crash can leave while an entry is applied: those before it, and those after every commit. -/
def cuts (f : Fsm) (env : Env) (log : Log) : List Buckets :=
  let commits := (f.apply env log).1.store.backend.commits
  f.store.backend.buckets :: (commits.take (commits.length - f.store.backend.commits.length)).reverse

theorem cuts_eq {f : Fsm} {env : Env} {log : Log} (new : List Buckets)
    (grown : (f.apply env log).1.store.backend.commits = new ++ f.store.backend.commits) :
    f.cuts env log = f.store.backend.buckets :: new.reverse := by
  simp [cuts,grown]

/-- The file does not have the index of the entry. Its history is the one before the entry, and of every lease it tells what is so
    before the entry or what is so after it. -/
structure Early (f g : Fsm) (h : History) (b : Buckets) : Prop where
  applied : b.metadata.raftApplyIndex = f.store.backend.buckets.metadata.raftApplyIndex
  history : ∃ s : KvStore, s.backend.buckets = b ∧ s.Archives h
  filed : LeaseManager.Filed b.lease
  leases : ∀ id, (b.lease.find? (leaseBucketKey id)).isSome = (f.lm.find? id).isSome ∨
    (b.lease.find? (leaseBucketKey id)).isSome = (g.lm.find? id).isSome

/-- The file has the index of the entry and all of its effect. -/
structure Late (g : Fsm) (h : History) (index : Nat) (b : Buckets) : Prop where
  applied : b.metadata.raftApplyIndex = some index
  history : ∃ s : KvStore, s.backend.buckets = b ∧ s.Archives h
  filed : LeaseManager.Filed b.lease
  leases : ∀ id, (b.lease.find? (leaseBucketKey id)).isSome = (g.lm.find? id).isSome

variable {f g : Fsm} {h h' : History}

theorem Saved.early (saved : f.Saved h) (g : Fsm) : f.Early g h f.store.backend.buckets :=
  ⟨rfl,⟨_,rfl,saved.archives⟩,saved.backed.filed,fun id => .inl (saved.isSome_record id)⟩

theorem Saved.early_last (after : g.Saved h') (archives : g.store.Archives h)
    (applied : g.store.backend.buckets.metadata.raftApplyIndex = f.store.backend.buckets.metadata.raftApplyIndex) :
    f.Early g h g.store.backend.buckets :=
  ⟨applied,⟨_,rfl,archives⟩,after.backed.filed,fun id => .inr (after.isSome_record id)⟩

theorem Saved.late (after : g.Saved h') {index : Nat} (applied : g.store.backend.buckets.metadata.raftApplyIndex = some index) :
    g.Late h' index g.store.backend.buckets :=
  ⟨applied,⟨_,rfl,after.archives⟩,after.backed.filed,after.isSome_record⟩

theorem applyCheckpoint_cuts (checkpoints : List Checkpoint) {lm : LeaseManager} {s : KvStore}
    (filed : LeaseManager.Filed s.backend.buckets.lease)
    (records : ∀ id, (s.backend.buckets.lease.find? (leaseBucketKey id)).isSome = (lm.find? id).isSome) :
    ∃ new, (lm.applyCheckpoint s checkpoints).2.backend.commits = new ++ s.backend.commits ∧ ∀ b ∈ new,
      (∃ s' : KvStore, s'.backend.buckets = b ∧ s.SameKv s') ∧
      b.metadata = s.backend.buckets.metadata ∧ LeaseManager.Filed b.lease ∧
      ∀ id, (b.lease.find? (leaseBucketKey id)).isSome = (lm.find? id).isSome := by
  induction checkpoints generalizing lm s with
  | nil => exact ⟨[],rfl,by simp⟩
  | cons ck rest ih =>
    rw [LeaseManager.applyCheckpoint]
    cases found : lm.find? ck.leaseID with
    | none => exact ih filed records
    | some l =>
      simp only
      split
      · exact ih filed records
      · have named : l.id = ck.leaseID := LeaseManager.id_of_find found
        generalize changed : ({ l with remainingTTL := ck.remainingTTL } : Lease) = l'
        have same : l'.id = ck.leaseID := by rw [← changed]; exact named
        have leases : ∀ id, ((lm.save l').find? id).isSome = (lm.find? id).isSome := by
          intro id
          rw [LeaseManager.find_save]
          split
          next is =>
            rw [is,same,found]
            rfl
          next => rfl
        have filed' : LeaseManager.Filed (LeaseManager.persist s l').backend.buckets.lease := by
          intro key r stored
          change (s.backend.buckets.lease.insert (leaseBucketKey l'.id) l'.record).find? key = some r at stored
          rw [SortedMap.find_insert] at stored
          split at stored
          next is =>
            cases stored
            exact is.symm
          next => exact filed key r stored
        have records' : ∀ id, ((LeaseManager.persist s l').backend.buckets.lease.find? (leaseBucketKey id)).isSome =
            ((lm.save l').find? id).isSome := by
          intro id
          change ((s.backend.buckets.lease.insert (leaseBucketKey l'.id) l'.record).find? _).isSome = _
          rw [leases,SortedMap.find_insert]
          split
          next is => rw [LeaseManager.leaseBucketKey_inj.mp is,same,found]; rfl
          next => exact records id
        obtain ⟨new,grown,each⟩ := ih filed' records'
        refine ⟨new ++ [(LeaseManager.persist s l').backend.buckets],?_,?_⟩
        · rw [grown,List.append_assoc]
          rfl
        · intro b member
          rcases List.mem_append.mp member with later | first
          · obtain ⟨⟨s',is,same⟩,metadata,filed,kept⟩ := each b later
            exact ⟨⟨s',is,(KvStore.SameKv.persist s l').trans same⟩,metadata,filed,fun id => (kept id).trans (leases id)⟩
          · rw [List.mem_singleton.mp first]
            exact ⟨⟨_,rfl,.persist s l'⟩,rfl,filed',fun id => (records' id).trans (leases id)⟩

/-- The two commits of a command that takes leases away: the deletions of their keys, which come with the index if there are any,
    and the records of the leases. -/
theorem removal_cuts (saved : f.Saved h) (positive : 0 < f.store.applyIndex) (after : g.Saved h') {keys : List Bytes}
    {ids : List Int64} (stored : g.store = LeaseManager.removeFromBackend (f.store.txn (keys.map .deleteKey)) ids)
    {request : Request} (taken : ∀ key, key ∈ keys ↔ ∃ id ∈ request.ends, f.lm.attached id key = true) :
    ∃ new, g.store.backend.commits = new ++ f.store.backend.commits ∧ ∀ k b, new.reverse[k]? = some b →
      (k = 0 → f.takes request = []) → f.Early g h b ∨ g.Late h' f.store.applyIndex b := by
  have settled := saved.archives.settled
  have deleted := saved.archives.txn (keys.map .deleteKey)
  obtain ⟨commits,applied⟩ := settled.txn_backend (keys.map .deleteKey)
  obtain ⟨ws,committed⟩ := settled.committed (keys.map .deleteKey)
  generalize ended : f.store.txn (keys.map .deleteKey) = s at stored deleted commits applied committed
  have metadata : g.store.backend.buckets.metadata.raftApplyIndex = s.backend.buckets.metadata.raftApplyIndex := by
    rw [stored,LeaseManager.removeFromBackend_buckets]
  have archives : g.store.Archives (h.txn (keys.map .deleteKey)) := by
    rw [stored]
    exact deleted.same (.removeFromBackend s ids)
  -- without live keys among them the deletions are no transaction
  have idle : s.currentRev.main = f.store.currentRev.main → h.txn (keys.map .deleteKey) = h := fun same =>
    History.txn_eq_of_current (by rw [← deleted.refines_.current,same,saved.archives.refines_.current])
  have grown : g.store.backend.commits = [g.store.backend.buckets,s.backend.buckets] ++ f.store.backend.commits := by
    rw [stored]
    change _ :: s.backend.commits = _
    rw [commits]
    rfl
  refine ⟨_,grown,fun k b at_ whole => ?_⟩
  match k, at_ with
  | 0, at_ =>
    cases at_
    have none : h.txn (keys.map .deleteKey) = h := by
      have nothing : h.txn (keys.map .deleteKey) = h.txn ([].map .deleteKey) := h.txn_deleteKeys_congr fun key live => by
        refine iff_of_false (fun member => ?_) List.not_mem_nil
        have inside := (mem_takes saved.archives).mpr ⟨live,(taken key).mp member⟩
        rw [whole rfl] at inside
        cases inside
      rw [nothing]
      rfl
    rw [none] at deleted
    have same : s.currentRev.main = f.store.currentRev.main := deleted.refines_.current.trans saved.archives.refines_.current.symm
    rw [if_pos (.inl same)] at applied
    refine .inl ⟨applied,⟨s,rfl,deleted⟩,?_,fun id => .inl ?_⟩
    · rw [committed.lease]
      exact saved.backed.filed
    · rw [committed.lease]
      exact saved.isSome_record id
  | 1, at_ =>
    cases at_
    by_cases same : s.currentRev.main = f.store.currentRev.main
    · rw [if_pos (.inl same)] at applied
      rw [idle same] at archives
      exact .inl (after.early_last archives (metadata.trans applied))
    · rw [if_neg (by simp [same,positive.ne'])] at applied
      exact .inr (after.late (metadata.trans applied))

theorem Saved.one_cut (after : g.Saved h') (archives : g.store.Archives h)
    (one : g.store.backend = f.store.backend ∨ g.store.backend.commits = g.store.backend.buckets :: f.store.backend.commits ∧
      g.store.backend.buckets.metadata = f.store.backend.buckets.metadata) (index : Nat) :
    ∃ new, g.store.backend.commits = new ++ f.store.backend.commits ∧
      ∀ (k : Nat) b, new.reverse[k]? = some b → f.Early g h b ∨ g.Late h' index b := by
  rcases one with same | ⟨commits,metadata⟩
  · exact ⟨[],by rw [same]; rfl,by simp⟩
  · refine ⟨[g.store.backend.buckets],commits,fun k b at_ => .inl ?_⟩
    obtain rfl : b = g.store.backend.buckets := by
      have member := List.mem_of_getElem? at_
      simpa using member
    exact after.early_last archives (congrArg MetaBucket.raftApplyIndex metadata)

theorem dispatch_cuts (saved : f.Saved h) (positive : 0 < f.store.applyIndex) (env : Env) {request : Request}
    (uncompacted : request.isCompaction = false) (after : (f.dispatch env request).1.Saved h') :
    ∃ new, (f.dispatch env request).1.store.backend.commits = new ++ f.store.backend.commits ∧ ∀ k b, new.reverse[k]? = some b →
      (k = 0 → f.takes request = []) →
        f.Early (f.dispatch env request).1 h b ∨ (f.dispatch env request).1.Late h' f.store.applyIndex b := by
  have settled := saved.archives.settled
  -- a command that changes no records
  have plain : f.store.SameKv (f.dispatch env request).1.store →
      ((f.dispatch env request).1.store.backend = f.store.backend ∨
        (f.dispatch env request).1.store.backend.commits =
            (f.dispatch env request).1.store.backend.buckets :: f.store.backend.commits ∧
          (f.dispatch env request).1.store.backend.buckets.metadata = f.store.backend.buckets.metadata) →
      ∃ new, (f.dispatch env request).1.store.backend.commits = new ++ f.store.backend.commits ∧ ∀ k b, new.reverse[k]? = some b →
        (k = 0 → f.takes request = []) →
          f.Early (f.dispatch env request).1 h b ∨ (f.dispatch env request).1.Late h' f.store.applyIndex b := by
    intro same one
    obtain ⟨new,grown,each⟩ := after.one_cut (saved.archives.same same) one f.store.applyIndex
    exact ⟨new,grown,fun k b at_ _ => each k b at_⟩
  cases request with
  | kv cmd =>
    rcases applyKv_archives saved.archives cmd with ⟨r,-,committed⟩ | ⟨e,-,backend,archives⟩
    · change (f.dispatch env (.kv cmd)).1.store = _ at committed
      obtain ⟨commits,applied⟩ := settled.txn_backend (Engine.calls f.store.newWriter cmd)
      rw [← committed] at commits applied
      refine ⟨[(f.dispatch env (.kv cmd)).1.store.backend.buckets],commits,fun k b at_ _ => ?_⟩
      obtain rfl : b = (f.dispatch env (.kv cmd)).1.store.backend.buckets := by
        have member := List.mem_of_getElem? at_
        simpa using member
      by_cases same : (f.dispatch env (.kv cmd)).1.store.currentRev.main = f.store.currentRev.main
      · have archives := saved.archives.txn (Engine.calls f.store.newWriter cmd)
        rw [← committed] at archives
        have current := archives.refines_.current
        rw [History.txn_eq_of_current (by rw [← current,same,saved.archives.refines_.current])] at archives
        rw [if_pos (.inl same)] at applied
        exact .inl (after.early_last archives applied)
      · rw [if_neg (by simp [same,positive.ne'])] at applied
        exact .inr (after.late applied)
    · obtain ⟨new,grown,each⟩ := after.one_cut (f := f) archives (.inl backend) f.store.applyIndex
      exact ⟨new,grown,fun k b at_ _ => each k b at_⟩
  | compaction rev => cases uncompacted
  | ot cmd =>
    refine plain (f.applyOT_sameKv cmd) ?_
    cases cmd with
    | writeAll blob =>
      simp only [dispatch,applyOT]
      unfold OTManager.applyWriteAll
      split
      · exact .inl rfl
      · split
        · exact .inl rfl
        · exact .inr ⟨rfl,rfl⟩
    | generateClusterKey key =>
      simp only [dispatch,applyOT]
      unfold OTManager.applyGenerateClusterKey
      split
      · split <;> exact .inl rfl
      · simp only
        split <;> exact .inr ⟨rfl,rfl⟩
  | lease cmd =>
    cases cmd with
    | grant id ttl =>
      refine plain (LeaseManager.grant_store KvStore.SameKv.persist_trans (.refl _) env f.lm id ttl) ?_
      simp only [dispatch,applyLease,ofLease]
      unfold LeaseManager.grant LeaseManager.addLease
      split
      · exact .inl rfl
      · split
        · exact .inl rfl
        · cases f.lm.find? id with
          | some l => exact .inl rfl
          | none => exact .inr ⟨rfl,rfl⟩
    | keepAlive id =>
      refine plain (LeaseManager.keepAlive_store KvStore.SameKv.persist_trans (.refl _) env f.lm id) ?_
      simp only [dispatch,applyLease,ofLease]
      unfold LeaseManager.keepAlive
      split
      · exact .inl rfl
      · cases f.lm.find? id with
        | none => exact .inl rfl
        | some l => exact .inr ⟨rfl,rfl⟩
    | lookup id => exact plain (.refl _) (.inl rfl)
    | checkpoint checkpoints =>
      obtain ⟨new,grown,each⟩ := applyCheckpoint_cuts checkpoints saved.backed.filed saved.isSome_record
      refine ⟨new,grown,fun k b at_ _ => .inl ?_⟩
      obtain ⟨⟨s,is,same⟩,metadata,filed,leases⟩ := each b (by simpa using List.mem_of_getElem? at_)
      exact ⟨congrArg MetaBucket.raftApplyIndex metadata,⟨s,is,saved.archives.same same⟩,filed,fun id => .inl (leases id)⟩
    | revoke id =>
      have is : (f.dispatch env (.lease (.revoke id))).1.store = (LeaseManager.revoke env f.lm f.store id).1.2 := rfl
      rw [LeaseManager.revoke_eq settled] at is
      cases found : f.lm.find? id with
      | none =>
        rw [found] at is
        exact plain (by rw [is]; exact .refl _) (.inl (by rw [is]))
      | some l =>
        rw [found] at is
        by_cases none : env.order l.keySet.keys = []
        · simp only [if_pos none] at is
          refine plain (by rw [is]; exact .removeFromBackend _ _) (.inr ⟨?_,?_⟩)
          · rw [is]
            rfl
          · rw [is,LeaseManager.removeFromBackend_buckets]
        · simp only [if_neg none] at is
          refine removal_cuts saved positive after is fun key => ?_
          rw [(env.perm _).mem_iff,SortedMap.mem_keys]
          simp [Request.ends,LeaseRequest.removes,LeaseManager.attached,found]
    | expire ids =>
      have is : (f.dispatch env (.lease (.expire ids))).1.store = (LeaseManager.applyExpired env f.lm f.store ids).1.2 := rfl
      simp only [LeaseManager.applyExpired_eq settled,LeaseManager.collectExpired_keys,List.nil_append] at is
      exact removal_cuts saved positive after is fun key => LeaseManager.mem_expiredKeys

/-- A crash point of an entry that is applied is early or late, unless it tears the removal of a lease with live keys apart. -/
theorem Saved.cut (saved : f.Saved h) {env : Env} {log : Log} (new : f.store.applyIndex < log.index) (uncompacted : log.Uncompacted)
    (after : (f.apply env log).1.Saved h') {k : Nat} {b : Buckets} (at_ : (f.cuts env log)[k]? = some b)
    (whole : ∀ request ∈ log.request?, k = 1 → f.takes request = []) :
    f.Early (f.apply env log).1 h b ∨ (f.apply env log).1.Late h' log.index b := by
  cases is : log.request? with
  | none =>
    have same : (f.apply env log).1 = f := apply_other is
    rw [cuts_eq [] (by rw [same]; rfl)] at at_
    obtain rfl : b = f.store.backend.buckets := by
      have member := List.mem_of_getElem? at_
      simpa using member
    exact .inl (saved.early _)
  | some request =>
    have told := saved.told log
    have ended := apply_request env new is
    have applied := dispatch_applyIndex told.archives.settled env request
    have middle := fun saved' : ((f.told log).dispatch env request).1.Saved h' =>
      dispatch_cuts told (Nat.zero_lt_of_lt new) env (uncompacted request is) saved'
    generalize ((f.told log).dispatch env request) = run at ended applied middle
    obtain ⟨g,started,outcome⟩ := run
    have leave : ∀ b, (f.told log).Early g h b ∨ g.Late h' log.index b → ∀ g' : Fsm, g'.lm = g.lm →
        f.Early g' h b ∨ g'.Late h' log.index b := by
      intro b either g' lm
      refine either.imp (fun early => ?_) fun late => ?_
      · exact ⟨early.applied,early.history,early.filed,by rw [lm]; exact early.leases⟩
      · exact ⟨late.applied,late.history,late.filed,by rw [lm]; exact late.leases⟩
    rcases ended with ⟨e,-,ended⟩ | ⟨r,-,ended⟩
    · rw [ended] at after ⊢
      obtain ⟨commits,grown,each⟩ := middle after
      rw [cuts_eq commits (by rw [ended]; exact grown)] at at_
      match k, at_ with
      | 0, at_ =>
        cases at_
        exact .inl (saved.early _)
      | k + 1, at_ => exact leave b (each k b at_ fun first => whole request is (by omega)) _ rfl
    · rw [ended] at after ⊢
      obtain ⟨commits,grown,each⟩ := middle ⟨after.archives.same (KvStore.SameKv.persistRaftMeta g.store).symm,after.backed,after.listed⟩
      have last : (f.apply env log).1.store.backend.commits =
          (g.store.persistRaftMeta.backend.buckets :: commits) ++ f.store.backend.commits := by
        rw [ended]
        exact congrArg (_ :: ·) grown
      rw [cuts_eq _ last] at at_
      match k, at_ with
      | 0, at_ =>
        cases at_
        exact .inl (saved.early _)
      | k + 1, at_ =>
        rw [List.getElem?_cons_succ,List.reverse_cons,List.getElem?_append] at at_
        split at at_
        · exact leave b (each k b at_ fun first => whole request is (by omega)) _ rfl
        · obtain rfl : b = g.store.persistRaftMeta.backend.buckets := by
            have member := List.mem_of_getElem? at_
            simpa using member
          refine .inr (after.late ?_)
          change some g.store.applyIndex = _
          rw [applied]
          rfl

end Fsm

/-! ### Coming up again -/

/-- No lease is lost when the leases are restored: all of them have time left, and there is none with a negative id if there is one
    with the largest id. -/
def Buckets.Firm (b : Buckets) : Prop :=
  ∀ e ∈ b.lease.entries, 0 < e.2.remainingTTL ∧ (e.2.id < 0 → (b.lease.find? (leaseBucketKey Int64.maxValue)).isNone = true)

instance (b : Buckets) : Decidable b.Firm :=
  inferInstanceAs (Decidable (∀ e ∈ b.lease.entries, _ ∧ (_ → _)))

/-- The node that comes up on the contents of its file. -/
def Fsm.recover (f : Fsm) (durable : Buckets) (now : Readings) : Fsm :=
  (Replica.restart ⟨{ f with store := KvStore.new ⟨durable,[]⟩ },[]⟩ now).fsm

theorem Fsm.recover_spec (f : Fsm) {b : Buckets} {h : History} (history : ∃ s : KvStore, s.backend.buckets = b ∧ s.Archives h)
    (filed : LeaseManager.Filed b.lease) (nonzero : (b.lease.find? (leaseBucketKey 0)).isSome = false) (firm : b.Firm) (now : Readings) :
    (f.recover b now).store.Archives h ∧ (f.recover b now).store.applyIndex = b.metadata.raftApplyIndex.getD 0 ∧
      ∀ id, ((f.recover b now).lm.find? id).isSome = (b.lease.find? (leaseBucketKey id)).isSome := by
  obtain ⟨s,rfl,archives⟩ := history
  have same : s.SameKv { s with backend := ⟨s.backend.buckets,[]⟩ } := ⟨rfl,rfl,rfl,rfl,rfl,rfl⟩
  have restored := (archives.same same).restore.1
  generalize up : (KvStore.new ⟨s.backend.buckets,[]⟩).restore.1 = r at restored
  have lease : r.backend.buckets.lease = s.backend.buckets.lease := by rw [← up]; rfl
  have leases : (f.recover s.backend.buckets now).lm = (LeaseManager.restore now r).1 := by rw [← up]; rfl
  have store : (f.recover s.backend.buckets now).store =
      ((OTManager.new f.om.opts).restore (LeaseManager.restore now r).2).1.2 := by rw [← up]; rfl
  refine ⟨?_,?_,fun id => ?_⟩
  · rw [store]
    exact (restored.same (.restoreLeases now r)).same (.restoreOt _ _)
  · have kept : (LeaseManager.restore now r).2.applyIndex = r.applyIndex :=
      LeaseManager.restore_store (P := fun s => s.applyIndex = r.applyIndex) (fun _ _ same => same) rfl now
    have index : r.applyIndex = s.backend.buckets.metadata.raftApplyIndex.getD 0 := by rw [← up]; rfl
    rw [store,← index,← kept]
    unfold OTManager.restore
    split
    · rfl
    · simp only
      split <;> rfl
  · rw [leases,Bool.eq_iff_iff]
    have found := fun l => @LeaseManager.find_restore now r (by rw [lease]; exact filed) restored.orderly id l
    rw [lease] at found
    rw [← Option.isSome_map (f := Lease.bare),Option.isSome_iff_exists,Option.isSome_iff_exists]
    simp only [found]
    constructor
    · rintro ⟨l,-,-,record,stored,-⟩
      exact ⟨record,stored⟩
    · rintro ⟨record,stored⟩
      have named : record.id = id := LeaseManager.leaseBucketKey_inj.mp (filed _ record stored)
      obtain ⟨lasting,first⟩ := firm (leaseBucketKey id,record) (SortedMap.mem_entries.mpr stored)
      refine ⟨_,?_,?_,record,stored,lasting,rfl⟩
      · rintro rfl
        simp [stored] at nonzero
      · rintro ⟨negative,largest,there,-⟩
        have none := first (by rw [named]; exact negative)
        simp [Option.mem_def.mp there] at none

/-- An entry of the log, with what it meets in a run without a crash and after the crash. -/
structure LogEntry where
  log : Log
  env : Env
  again : Env

/-- The indexes of a log ascend; compactions are left out. -/
structure IsLog (entries : List LogEntry) : Prop where
  ordered : entries.Pairwise fun a b => a.log.index < b.log.index
  positive : ∀ e ∈ entries, 0 < e.log.index
  uncompacted : ∀ e ∈ entries, e.log.Uncompacted

theorem IsLog.left {a b : List LogEntry} (isLog : IsLog (a ++ b)) : IsLog a :=
  ⟨(List.pairwise_append.mp isLog.ordered).1,fun e member => isLog.positive e (List.mem_append_left b member),
    fun e member => isLog.uncompacted e (List.mem_append_left b member)⟩

theorem IsLog.less {a b : List LogEntry} (isLog : IsLog (a ++ b)) {x y : LogEntry} (left : x ∈ a) (right : y ∈ b) :
    x.log.index < y.log.index := (List.pairwise_append.mp isLog.ordered).2.2 x left y right

namespace Fsm

/-- The node that has applied the entries without a crash. -/
def free (opts : OtOptions) (nodeID : String) (entries : List LogEntry) : Fsm :=
  (new opts nodeID).applyAll (entries.map fun e => (e.env,e.log))

theorem free_snoc (opts : OtOptions) (nodeID : String) (entries : List LogEntry) (e : LogEntry) :
    free opts nodeID (entries ++ [e]) = ((free opts nodeID entries).apply e.env e.log).1 := by
  simp [free,applyAll]

variable {opts : OtOptions} {nodeID : String} {done : List LogEntry}

/-- The index of the last entry that is in the file. -/
def stored (f : Fsm) : Nat := f.store.backend.buckets.metadata.raftApplyIndex.getD 0

/-- What comes after the index in the file has had no effect on the history and on the leases. -/
def Quiet (opts : OtOptions) (nodeID : String) (done : List LogEntry) (h : History) : Prop :=
  ∀ before after, done = before ++ after → (∀ e ∈ after, (free opts nodeID done).stored < e.log.index) →
    (free opts nodeID before).store.Archives h ∧
      ∀ id, ((free opts nodeID before).lm.find? id).isSome = ((free opts nodeID done).lm.find? id).isSome

theorem free_saved (opts : OtOptions) (nodeID : String) (isLog : IsLog done) : ∃ h, (free opts nodeID done).Saved h ∧ Quiet opts nodeID done h ∧
    ∀ bound, 0 < bound → (∀ e ∈ done, e.log.index < bound) →
      (free opts nodeID done).store.applyIndex < bound ∧ (free opts nodeID done).stored < bound := by
  induction done using List.reverseRecOn with
  | nil =>
    refine ⟨_,.new opts nodeID,fun before after split _ => ?_,fun bound positive _ => ⟨positive,positive⟩⟩
    rw [(List.append_eq_nil_iff.mp split.symm).1]
    exact ⟨(Saved.new opts nodeID).archives,fun _ => rfl⟩
  | append_singleton done e ih =>
    obtain ⟨h,saved,quiet,below⟩ := ih isLog.left
    have new := (below e.log.index (isLog.positive e (by simp)) fun x member => isLog.less member (by simp)).1
    obtain ⟨h',saved',kept⟩ := saved.apply new (isLog.uncompacted e (by simp)) e.env
    rw [← free_snoc] at saved' kept
    refine ⟨h',saved',fun before after split pending => ?_,fun bound positive all => ?_⟩
    · rcases List.eq_nil_or_concat' after with none | ⟨earlier,last,more⟩
      · rw [none,List.append_nil] at split
        rw [← split]
        exact ⟨saved'.archives,fun _ => rfl⟩
      · rw [more,← List.append_assoc] at split
        obtain ⟨front,same⟩ := List.append_inj' split rfl
        obtain rfl : e = last := by simpa using same
        rcases kept with stored_ | ⟨stored_,rfl,leases⟩
        · have later := pending e (by simp [more])
          rw [stored,stored_] at later
          exact absurd later (lt_irrefl _)
        · rw [stored,stored_] at pending
          obtain ⟨archives,same⟩ := quiet before earlier front fun x member => pending x (by simp [more,member])
          exact ⟨archives,fun id => (same id).trans (leases id).symm⟩
    · obtain ⟨applied,stored_⟩ := below bound positive fun x member => all x (List.mem_append_left _ member)
      have less := all e (by simp)
      constructor
      · rw [free_snoc]
        rcases apply_applyIndex saved.archives.settled e.env e.log with same | same <;> omega
      · rcases kept with same | ⟨same,-⟩
        · rw [stored,same]
          exact less
        · rw [stored,same]
          exact stored_

/-! ### The run without a crash beside the run after it -/

/-- Both nodes are given the entry. -/
def both (p : Fsm × Fsm) (e : LogEntry) : Fsm × Fsm := ((p.1.apply e.env e.log).1,(p.2.apply e.again e.log).1)

/-- If the entry is applied after the crash, the leases it takes away have the same live keys then as without the crash. -/
def TakesAlike (p : Fsm × Fsm) (e : LogEntry) : Prop :=
  p.2.store.applyIndex < e.log.index → ∀ request ∈ e.log.request?, p.1.takes request = p.2.takes request

instance (p : Fsm × Fsm) (e : LogEntry) : Decidable (TakesAlike p e) :=
  inferInstanceAs (Decidable (_ → ∀ request ∈ e.log.request?, _))

theorem foldl_both (entries : List LogEntry) (p : Fsm × Fsm) : entries.foldl both p =
    (p.1.applyAll (entries.map fun e => (e.env,e.log)),p.2.applyAll (entries.map fun e => (e.again,e.log))) := by
  induction entries generalizing p with
  | nil => rfl
  | cons e rest ih =>
    rw [List.foldl_cons,ih]
    rfl

/-- One history, and the same leases. -/
def Matched (p : Fsm × Fsm) : Prop := ∃ h, p.1.store.Archives h ∧ p.2.store.Archives h ∧
  ∀ id, (p.2.lm.find? id).isSome = (p.1.lm.find? id).isSome

theorem Matched.run {p : Fsm × Fsm} (matched : Matched p) {rest : List LogEntry} (isLog : IsLog rest)
    (new : ∀ e ∈ rest, p.1.store.applyIndex < e.log.index ∧ p.2.store.applyIndex < e.log.index)
    (alike : Runs.Along both TakesAlike p rest) : Matched (rest.foldl both p) := by
  induction rest generalizing p with
  | nil => exact matched
  | cons e rest ih =>
    obtain ⟨h,archives,archives',leases⟩ := matched
    obtain ⟨new₁,new₂⟩ := new e (by simp)
    have ordered := List.pairwise_cons.mp isLog.ordered
    obtain ⟨h',after,after'⟩ := apply_histories e.env e.again archives archives' new₁ new₂
      (isLog.uncompacted e (by simp)) (alike.1 new₂)
    refine ih ⟨h',after,after',fun id => ?_⟩ ⟨ordered.2,fun x member => isLog.positive x (by simp [member]),
      fun x member => isLog.uncompacted x (by simp [member])⟩ (fun x member => ?_) alike.2
    · change ((p.2.apply e.again e.log).1.lm.find? id).isSome = ((p.1.apply e.env e.log).1.lm.find? id).isSome
      rw [apply_leases archives new₁,apply_leases archives' new₂,leases]
    · have later := ordered.1 x member
      obtain ⟨new₁,new₂⟩ := new x (by simp [member])
      constructor
      · rcases apply_applyIndex archives.settled e.env e.log with same | same <;> exact same.trans_lt (by assumption)
      · rcases apply_applyIndex archives'.settled e.again e.log with same | same <;> exact same.trans_lt (by assumption)

theorem foldl_both_old (entries : List LogEntry) {p : Fsm × Fsm} (old : ∀ e ∈ entries, e.log.index ≤ p.2.store.applyIndex) :
    (entries.foldl both p).2 = p.2 := by
  induction entries generalizing p with
  | nil => rfl
  | cons e rest ih =>
    have same : (both p e).2 = p.2 := apply_old (old e (by simp))
    rw [List.foldl_cons,ih fun x member => by rw [same]; exact old x (by simp [member]),same]

theorem rerun (isLog : IsLog done) {h : History} {g g' : Fsm} (quiet : Quiet opts nodeID done h) (archives : g.store.Archives h)
    (applied : g.store.applyIndex = (free opts nodeID done).stored)
    (leases : ∀ id, (g.lm.find? id).isSome = ((free opts nodeID done).lm.find? id).isSome ∨
      (g.lm.find? id).isSome = (g'.lm.find? id).isSome)
    (before after : List LogEntry) (split : done = before ++ after)
    (alike : Runs.Along both TakesAlike (Fsm.new opts nodeID,g) before) :
    (before.foldl both (Fsm.new opts nodeID,g)).2.store.Archives h ∧
      (∀ id, ((before.foldl both (Fsm.new opts nodeID,g)).2.lm.find? id).isSome = ((free opts nodeID done).lm.find? id).isSome ∨
        ((before.foldl both (Fsm.new opts nodeID,g)).2.lm.find? id).isSome = (g'.lm.find? id).isSome) ∧
      g.store.applyIndex ≤ (before.foldl both (Fsm.new opts nodeID,g)).2.store.applyIndex ∧
      ∀ bound, g.store.applyIndex < bound → (∀ e ∈ before, e.log.index < bound) →
        (before.foldl both (Fsm.new opts nodeID,g)).2.store.applyIndex < bound := by
  induction before using List.reverseRecOn generalizing after with
  | nil => exact ⟨archives,leases,le_rfl,fun bound less _ => less⟩
  | append_singleton before e ih =>
    rw [List.append_assoc,List.singleton_append] at split
    rw [Runs.along_append] at alike
    obtain ⟨archives₂,leases₂,above,below⟩ := ih (e :: after) split alike.1
    have first : (before.foldl both (Fsm.new opts nodeID,g)).1 = free opts nodeID before := by rw [foldl_both]; rfl
    have taken := alike.2.1
    simp only [List.foldl_append,List.foldl_cons,List.foldl_nil]
    generalize before.foldl both (Fsm.new opts nodeID,g) = p at archives₂ leases₂ above below first taken ⊢
    obtain ⟨f,g₂⟩ := p
    obtain rfl : f = free opts nodeID before := first
    by_cases old : e.log.index ≤ g₂.store.applyIndex
    · have same : (both (free opts nodeID before,g₂) e).2 = g₂ := apply_old old
      rw [same]
      exact ⟨archives₂,leases₂,above,fun bound less all => below bound less fun x member => all x (by simp [member])⟩
    · have new : g₂.store.applyIndex < e.log.index := not_le.mp old
      have isLog' : IsLog (before ++ e :: after) := split ▸ isLog
      -- the entry had no effect without the crash
      have later : ∀ x ∈ after, e.log.index < x.log.index :=
        (List.pairwise_cons.mp (List.pairwise_append.mp isLog'.ordered).2.1).1
      have pending : ∀ x ∈ e :: after, (free opts nodeID done).stored < x.log.index := by
        intro x member
        rw [← applied]
        rcases List.mem_cons.mp member with rfl | inside
        · exact above.trans_lt new
        · exact (above.trans_lt new).trans (later x inside)
      obtain ⟨archives₁,leases₁⟩ := quiet before (e :: after) split pending
      obtain ⟨archives₁',leases₁'⟩ := quiet (before ++ [e]) after (by rw [split]; simp) fun x member => pending x (by simp [member])
      rw [free_snoc] at archives₁' leases₁'
      obtain ⟨-,-,-,index⟩ := free_saved opts nodeID isLog'.left
      have new₁ := (index e.log.index (isLog'.positive e (by simp)) fun x member => isLog'.less member (by simp)).1
      obtain ⟨h',after₁,after₂⟩ := apply_histories e.env e.again archives₁ archives₂ new₁ new
        (isLog'.uncompacted e (by simp)) (taken new)
      refine ⟨archives₁'.transfer after₁ after₂,fun id => ?_,?_,fun bound less all => ?_⟩
      · have fixed : e.log.leaseAfter id ((free opts nodeID done).lm.find? id).isSome = ((free opts nodeID done).lm.find? id).isSome := by
          rw [← leases₁' id,apply_leases archives₁ new₁,leases₁ id,Log.leaseAfter_twice]
        change ((g₂.apply e.again e.log).1.lm.find? id).isSome = _ ∨ ((g₂.apply e.again e.log).1.lm.find? id).isSome = _
        rw [apply_leases archives₂ new]
        rcases e.log.leaseAfter_cases id with same | ⟨fate,is⟩
        · rw [same]
          exact leases₂ id
        · rw [is] at fixed ⊢
          exact .inl fixed
      · rcases apply_applyIndex archives₂.settled e.again e.log with same | same
        · exact above.trans_eq same.symm
        · exact (above.trans new.le).trans_eq same.symm
      · rcases apply_applyIndex archives₂.settled e.again e.log with same | same
        · exact same.trans_lt (below bound less fun x member => all x (by simp [member]))
        · exact same.trans_lt (all e (by simp))

variable {e : LogEntry} {h h' : History} {durable : Buckets} {now : Readings}

theorem fst_foldl_both (opts : OtOptions) (nodeID : String) (entries : List LogEntry) (g : Fsm) :
    (entries.foldl both (Fsm.new opts nodeID,g)).1 = free opts nodeID entries := by
  rw [foldl_both]
  rfl

theorem Early.matched (isLog : IsLog (done ++ [e])) (saved : (free opts nodeID done).Saved h) (quiet : Quiet opts nodeID done h)
    (after : ((free opts nodeID done).apply e.env e.log).1.Saved h')
    (early : (free opts nodeID done).Early ((free opts nodeID done).apply e.env e.log).1 h durable) (firm : durable.Firm)
    (alike : Runs.Along both TakesAlike (Fsm.new opts nodeID,(free opts nodeID done).recover durable now) (done ++ [e])) :
    Matched ((done ++ [e]).foldl both (Fsm.new opts nodeID,(free opts nodeID done).recover durable now)) ∧
      ((done ++ [e]).foldl both (Fsm.new opts nodeID,(free opts nodeID done).recover durable now)).2.store.applyIndex ≤ e.log.index := by
  have nonzero : (durable.lease.find? (leaseBucketKey 0)).isSome = false := by
    rcases early.leases 0 with same | same
    · simp [same,saved.backed.nonzero]
    · simp [same,after.backed.nonzero]
  obtain ⟨archives,applied,leases⟩ := (free opts nodeID done).recover_spec early.history early.filed nonzero firm now
  have between := early.leases
  simp only [← leases] at between
  have applied : ((free opts nodeID done).recover durable now).store.applyIndex = (free opts nodeID done).stored := by
    rw [applied,early.applied]
    rfl
  obtain ⟨runs,alike,-⟩ := Runs.along_append.mp alike
  obtain ⟨archives₂,leases₂,-,below⟩ := rerun isLog.left quiet archives applied between done [] (by simp) runs
  have first := fst_foldl_both opts nodeID done ((free opts nodeID done).recover durable now)
  obtain ⟨-,-,-,bounds⟩ := free_saved opts nodeID isLog.left
  have earlier : ∀ x ∈ done, x.log.index < e.log.index := fun x member => isLog.less member (by simp)
  obtain ⟨new,stored_⟩ := bounds e.log.index (isLog.positive e (by simp)) earlier
  have new₂ := below e.log.index (by rwa [applied]) earlier
  simp only [List.foldl_append,List.foldl_cons,List.foldl_nil]
  generalize done.foldl both (Fsm.new opts nodeID,(free opts nodeID done).recover durable now) = p at alike archives₂ leases₂ first new₂ ⊢
  obtain ⟨f,g⟩ := p
  obtain rfl : f = free opts nodeID done := first
  obtain ⟨h'',after₁,after₂⟩ := apply_histories e.env e.again saved.archives archives₂ new new₂
    (isLog.uncompacted e (by simp)) (alike new₂)
  refine ⟨⟨h'',after₁,after₂,fun id => ?_⟩,?_⟩
  · change ((g.apply e.again e.log).1.lm.find? id).isSome = (((free opts nodeID done).apply e.env e.log).1.lm.find? id).isSome
    rw [apply_leases archives₂ new₂]
    rcases leases₂ id with same | same
    · rw [same,apply_leases saved.archives new]
    · rw [same,apply_leases saved.archives new,Log.leaseAfter_twice]
  · rcases apply_applyIndex archives₂.settled e.again e.log with same | same
    · exact same.trans_le new₂.le
    · exact same.le

theorem Late.matched (isLog : IsLog (done ++ [e])) (after : ((free opts nodeID done).apply e.env e.log).1.Saved h')
    (late : ((free opts nodeID done).apply e.env e.log).1.Late h' e.log.index durable) (firm : durable.Firm) :
    Matched ((done ++ [e]).foldl both (Fsm.new opts nodeID,(free opts nodeID done).recover durable now)) ∧
      ((done ++ [e]).foldl both (Fsm.new opts nodeID,(free opts nodeID done).recover durable now)).2.store.applyIndex ≤ e.log.index := by
  have nonzero : (durable.lease.find? (leaseBucketKey 0)).isSome = false := by simp [late.leases 0,after.backed.nonzero]
  obtain ⟨archives,applied,leases⟩ := (free opts nodeID done).recover_spec late.history late.filed nonzero firm now
  rw [late.applied,Option.getD_some] at applied
  have second := foldl_both_old (done ++ [e]) (p := (Fsm.new opts nodeID,(free opts nodeID done).recover durable now))
    fun x member => by
      change x.log.index ≤ ((free opts nodeID done).recover durable now).store.applyIndex
      rw [applied]
      rcases List.mem_append.mp member with inside | last
      · exact (isLog.less inside (by simp)).le
      · rw [List.mem_singleton.mp last]
  have first := fst_foldl_both opts nodeID (done ++ [e]) ((free opts nodeID done).recover durable now)
  rw [free_snoc] at first
  refine ⟨⟨h',?_,?_,fun id => ?_⟩,?_⟩
  · rw [first]
    exact after.archives
  · rw [second]
    exact archives
  · rw [first,second]
    exact (leases id).trans (late.leases id)
  · rw [second]
    exact applied.le

end Fsm

/-- A node that crashes at any commit of an entry and is given the log again has the live entries and the leases of a node that did
    not crash, if the crash does not tear the removal of a lease with live keys apart, no lease is lost when they are restored, and
    the leases that are removed afterwards have the same live keys. -/
theorem recovered_as_without_crash (opts : OtOptions) (nodeID : String) (done : List LogEntry) (e : LogEntry) (rest : List LogEntry)
    (isLog : IsLog (done ++ e :: rest)) (cut : Nat) (durable : Buckets) (now : Readings) :
    let f := Fsm.free opts nodeID done
    (f.cuts e.env e.log)[cut]? = some durable → (∀ request ∈ e.log.request?, cut = 1 → f.takes request = []) → durable.Firm →
    Runs.Along Fsm.both Fsm.TakesAlike (Fsm.new opts nodeID,f.recover durable now) (done ++ e :: rest) →
    let crashFree := Fsm.free opts nodeID (done ++ e :: rest)
    let recovered := (f.recover durable now).applyAll ((done ++ e :: rest).map fun e => (e.again,e.log))
    recovered.store.liveEntries = crashFree.store.liveEntries ∧
      ∀ id, (recovered.lm.find? id).isSome = (crashFree.lm.find? id).isSome := by
  intro f at_ whole firm alike crashFree recovered
  have split : done ++ e :: rest = (done ++ [e]) ++ rest := by simp
  rw [split] at isLog alike
  have isLog' := isLog.left
  have later : ∀ x ∈ rest, e.log.index < x.log.index := fun x member => isLog.less (by simp) member
  have ordered := List.pairwise_append.mp isLog.ordered
  have restLog : IsLog rest := ⟨ordered.2.1,fun x member => isLog.positive x (by simp [member]),
    fun x member => isLog.uncompacted x (by simp [member])⟩
  obtain ⟨h,saved,quiet,below⟩ := Fsm.free_saved opts nodeID isLog'.left
  have new := (below e.log.index (isLog'.positive e (by simp)) fun x member => isLog'.less member (by simp)).1
  obtain ⟨h',after,-⟩ := saved.apply new (isLog'.uncompacted e (by simp)) e.env
  obtain ⟨runs,runsOn⟩ := Runs.along_append.mp alike
  have meets : Fsm.Matched ((done ++ [e]).foldl Fsm.both (Fsm.new opts nodeID,f.recover durable now)) ∧
      ((done ++ [e]).foldl Fsm.both (Fsm.new opts nodeID,f.recover durable now)).2.store.applyIndex ≤ e.log.index := by
    rcases saved.cut new (isLog'.uncompacted e (by simp)) after at_ whole with early | late
    · exact early.matched isLog' saved quiet after firm runs
    · exact late.matched isLog' after firm
  have final := meets.1.run restLog (fun x member => ⟨?_,meets.2.trans_lt (later x member)⟩) runsOn
  · rw [← List.foldl_append, ← split, Fsm.foldl_both] at final
    obtain ⟨h,archives,archives',leases⟩ := final
    exact ⟨(archives'.twins archives).liveEntries,leases⟩
  · rw [Fsm.fst_foldl_both, Fsm.free_snoc]
    rcases Fsm.apply_applyIndex saved.archives.settled e.env e.log with same | same
    · exact same.trans_lt (new.trans (later x member))
    · exact same.trans_lt (later x member)

/-- An entry that is applied at time 0, before the crash and after it. -/
def LogEntry.plain (index : Nat) (request : Request) : LogEntry := ⟨.plain index request,.plain 0,.plain 0⟩

/-- The node crashes between the commit that removes the record of a lease and the one of the index, and applies the revocation
    again. -/
theorem recovered_as_without_crash_revoked :
    let done : List LogEntry := [.plain 1 (.lease (.grant 7 10)),.plain 2 (.kv (.put (.plain [97] [1] 7)))]
    let e : LogEntry := .plain 3 (.lease (.revoke 7))
    let rest : List LogEntry := [.plain 4 (.kv (.put (.plain [98] [2] 0)))]
    let f := Fsm.free defaultOtOptions "a" done
    let durable := ((f.cuts e.env e.log)[2]?).getD Buckets.empty
    let crashFree := Fsm.free defaultOtOptions "a" (done ++ e :: rest)
    let recovered := (f.recover durable 5).applyAll ((done ++ e :: rest).map fun e => (e.again,e.log))
    (f.cuts e.env e.log).length = 4 ∧ recovered.store.liveEntries = crashFree.store.liveEntries ∧
      ∀ id, (recovered.lm.find? id).isSome = (crashFree.lm.find? id).isSome := by
  intro done e rest f durable
  have four : (f.cuts e.env e.log).length = 4 := by decide
  have at_ : (f.cuts e.env e.log)[2]? = some durable := by
    obtain ⟨b,at_⟩ : ∃ b, (f.cuts e.env e.log)[2]? = some b := ⟨_,List.getElem?_eq_getElem (by rw [four]; decide)⟩
    simp only [durable,at_,Option.getD_some]
  exact ⟨four,recovered_as_without_crash defaultOtOptions "a" done e rest ⟨by decide,by decide,by decide⟩ 2 durable 5 at_
    (by decide) (by decide) (by decide)⟩

/-- The crash comes between the deletion of the keys of a lease and the removal of its record: the lease is back. Further, a
    restart attaches a key to a lease that it has left, and the revocation that is applied after it deletes the key; it loses a
    lease whose renewal left no whole second; and it revokes with an entry that had failed a lease that was granted later. -/
theorem crash_is_seen :
    let after (done : List LogEntry) (e : LogEntry) (rest : List LogEntry) (cut : Nat) : Option (Fsm × Fsm) :=
      let f := Fsm.free defaultOtOptions "a" done
      ((f.cuts e.env e.log)[cut]?).map fun durable =>
        ((f.recover durable 0).applyAll ((done ++ e :: rest).map fun e => (e.again,e.log)),
          Fsm.free defaultOtOptions "a" (done ++ e :: rest))
    let grant : Request := .lease (.grant 7 10)
    let put : Request := .kv (.put (.plain [97] [1] 7))
    let leave : Request := .kv (.put (.plain [97] [2] 0))
    let revoke : Request := .lease (.revoke 7)
    ((after [.plain 1 grant,.plain 2 put] (.plain 3 revoke) [] 1).map fun p =>
      ((p.1.lm.find? 7).isSome,(p.2.lm.find? 7).isSome)) = some (true,false) ∧
    ((after [.plain 1 grant,.plain 2 put] (.plain 3 leave) [.plain 4 revoke] 1).map fun p =>
      (p.1.store.liveEntries.length,p.2.store.liveEntries.length)) = some (0,1) ∧
    ((after [.plain 1 (.lease (.grant 7 1))]
        ⟨.plain 2 (.lease (.keepAlive 7)),⟨0,1,fun keys => keys,fun keys => .refl keys⟩,.plain 0⟩ [] 2).map fun p =>
      ((p.1.lm.find? 7).isSome,(p.2.lm.find? 7).isSome)) = some (false,true) ∧
    ((after [.plain 1 put,.plain 2 revoke] (.plain 3 grant) [] 1).map fun p =>
      (p.1.store.liveEntries.length,p.2.store.liveEntries.length)) = some (0,1) := by
  refine ⟨?_,?_,?_,?_⟩ <;> decide

end Kave
