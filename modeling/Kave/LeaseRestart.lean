import Kave.KeySets
import Kave.LeaseRestore

/-! Leases over restarts: the records behind the leases of the map, the granted times to live and the key sets that a
    restart brings back. -/

namespace Kave

namespace LeaseManager

/-- What holds of the leases and of their records as long as both are changed together: a lease is saved and persisted, or
    leases are taken away with their records. -/
structure Ledger (R : LeaseManager → SortedMap UInt64 LeaseRecord → Prop) : Prop where
  congr : ∀ {lm lm' : LeaseManager} {bucket : SortedMap UInt64 LeaseRecord}, R lm bucket →
    (∀ id, (lm'.find? id).map Lease.bare = (lm.find? id).map Lease.bare) → R lm' bucket
  save : ∀ {lm : LeaseManager} {bucket : SortedMap UInt64 LeaseRecord} {l : Lease}, R lm bucket →
    l.id ≠ 0 ∨ (lm.find? l.id).isSome = true → R (lm.save l) (bucket.insert (leaseBucketKey l.id) l.record)
  remove : ∀ {lm lm' : LeaseManager} {bucket : SortedMap UInt64 LeaseRecord} {ids : List Int64}, R lm bucket →
    (∀ id, lm'.find? id = if id ∈ ids then none else lm.find? id) → R lm' ((ids.map leaseBucketKey).foldl SortedMap.erase bucket)

namespace Ledger

variable {R : LeaseManager → SortedMap UInt64 LeaseRecord → Prop} (ledger : Ledger R) {lm : LeaseManager} {s : KvStore}
include ledger

theorem addLease (related : R lm s.backend.buckets.lease) (now : Int) {id : Int64} (nonzero : id ≠ 0) (ttl : Int) :
    R (LeaseManager.addLease now lm s id ttl).1.1 (LeaseManager.addLease now lm s id ttl).1.2.backend.buckets.lease := by
  unfold LeaseManager.addLease
  cases lm.find? id with
  | some _ => exact related
  | none => exact ledger.congr (ledger.save (l := Lease.new now id (min ttl maxTTL)) related (.inl nonzero)) fun _ => rfl

theorem grant (related : R lm s.backend.buckets.lease) (env : Env) (id : Int64) (ttl : Int) :
    R (LeaseManager.grant env lm s id ttl).1.1 (LeaseManager.grant env lm s id ttl).1.2.backend.buckets.lease := by
  unfold LeaseManager.grant
  split
  · exact related
  next nonzero =>
    split
    · exact related
    · exact ledger.addLease related env.now nonzero ttl

theorem keepAlive (related : R lm s.backend.buckets.lease) (env : Env) (id : Int64) :
    R (LeaseManager.keepAlive env lm s id).1.1 (LeaseManager.keepAlive env lm s id).1.2.backend.buckets.lease := by
  unfold LeaseManager.keepAlive
  split
  · exact related
  · cases found : lm.find? id with
    | none => exact related
    | some l =>
      have there : (lm.find? l.id).isSome = true := by simp [id_of_find found,found]
      exact ledger.congr (ledger.save (l := { l with remainingTTL := _, expiry := _ }) related (.inr there)) fun id => by
        rw [find_updateHeap]

theorem applyCheckpoint (checkpoints : List Checkpoint) (related : R lm s.backend.buckets.lease) :
    R (lm.applyCheckpoint s checkpoints).1 (lm.applyCheckpoint s checkpoints).2.backend.buckets.lease := by
  induction checkpoints generalizing lm s with
  | nil => exact related
  | cons ck rest ih =>
    rw [LeaseManager.applyCheckpoint]
    cases found : lm.find? ck.leaseID with
    | none => exact ih related
    | some l =>
      have there : (lm.find? l.id).isSome = true := by simp [id_of_find found,found]
      simp only
      split
      · exact ih related
      · exact ih (ledger.save (l := { l with remainingTTL := ck.remainingTTL }) related (.inr there))

theorem dispatch {f : Fsm} (related : R f.lm f.store.backend.buckets.lease) (settled : f.store.Settled) (env : Env)
    (request : Request) : R (f.dispatch env request).1.lm (f.dispatch env request).1.store.backend.buckets.lease := by
  cases request with
  | kv cmd =>
    have same : (Engine.applyWrite f.store f.lm cmd).1.1.backend.buckets.lease = f.store.backend.buckets.lease := by
      rcases Engine.applyWrite_cases settled f.lm cmd with ⟨e,ti,-,left,-⟩ | ⟨r,ws,-,committed⟩
      · rw [left]
      · exact committed.lease
    change R (Engine.applyWrite f.store f.lm cmd).1.2 (Engine.applyWrite f.store f.lm cmd).1.1.backend.buckets.lease
    rw [same]
    exact ledger.congr related (Engine.applyWrite_sameLeases f.store f.lm cmd).leases
  | compaction targetRev =>
    change R f.lm (f.store.compact targetRev).1.backend.buckets.lease
    have same : (f.store.compact targetRev).1.backend.buckets.lease = f.store.backend.buckets.lease := by
      unfold KvStore.compact
      split_ifs <;> rfl
    rw [same]
    exact related
  | ot cmd =>
    cases cmd with
    | writeAll blob =>
      change R f.lm (f.om.applyWriteAll f.store blob).1.backend.buckets.lease
      unfold OTManager.applyWriteAll
      split
      · exact related
      · split <;> exact related
    | generateClusterKey key =>
      change R f.lm (f.om.applyGenerateClusterKey f.store key).1.2.backend.buckets.lease
      unfold OTManager.applyGenerateClusterKey
      split
      · split <;> exact related
      · simp only
        split <;> exact related
  | lease cmd =>
    cases cmd with
    | grant id ttl => exact ledger.grant related env id ttl
    | keepAlive id => exact ledger.keepAlive related env id
    | lookup id => exact related
    | checkpoint checkpoints => exact ledger.applyCheckpoint checkpoints related
    | revoke id =>
      change R (LeaseManager.revoke env f.lm f.store id).1.1 (LeaseManager.revoke env f.lm f.store id).1.2.backend.buckets.lease
      rw [LeaseManager.revoke_eq settled]
      cases found : f.lm.find? id with
      | none => exact related
      | some l =>
        simp only
        rw [LeaseManager.removeFromBackend_buckets]
        have lease : (if env.order l.keySet.keys = [] then f.store else
            f.store.txn ((env.order l.keySet.keys).map .deleteKey)).backend.buckets.lease = f.store.backend.buckets.lease := by
          split
          · rfl
          · obtain ⟨ws,committed⟩ := settled.committed ((env.order l.keySet.keys).map .deleteKey)
            exact committed.lease
        simp only [lease]
        refine ledger.remove related fun id' => ?_
        have named : l.id = id := id_of_find found
        rw [find_removeFromHeap,find_remove,find_save]
        by_cases same : id' = id <;> simp [same,named]
    | expire ids =>
      change R (LeaseManager.applyExpired env f.lm f.store ids).1.1
        (LeaseManager.applyExpired env f.lm f.store ids).1.2.backend.buckets.lease
      rw [LeaseManager.applyExpired_eq settled]
      simp only
      rw [LeaseManager.removeFromBackend_buckets]
      obtain ⟨ws,committed⟩ := settled.committed ((LeaseManager.collectExpired env ids f.lm [] 0).2.1.map .deleteKey)
      simp only [committed.lease]
      exact ledger.remove related (find_collectExpired env ids f.lm [] 0)

theorem apply {f : Fsm} (related : R f.lm f.store.backend.buckets.lease) (orderly : f.store.Orderly) (env : Env) (log : Log) :
    R (f.apply env log).1.lm (f.apply env log).1.store.backend.buckets.lease := by
  rcases f.apply_cases env log with ⟨same,-⟩ | ⟨request,-,-,g,started,outcome,run,-,ended⟩
  · rw [same]
    exact related
  · have after := ledger.dispatch (f := { f with store := f.store.updateInmemRaftMeta log.index log.term }) related
      (orderly.same (.updateInmemRaftMeta _ _ _)).settled env request
    rw [run] at after
    rcases ended with ⟨e,-,same⟩ | ⟨r,-,same⟩
    · rw [same]
      exact after
    · rw [same]
      exact after

end Ledger

/-- The leases of the map are those of their records, and every record is under its own id. -/
structure Backed (lm : LeaseManager) (bucket : SortedMap UInt64 LeaseRecord) : Prop where
  filed : Filed bucket
  nonzero : lm.find? 0 = none
  records : ∀ id l, lm.find? id = some l → bucket.find? (leaseBucketKey id) = some l.record

namespace Backed

variable {lm lm' : LeaseManager} {bucket : SortedMap UInt64 LeaseRecord}

theorem new : Backed LeaseManager.new SortedMap.empty where
  filed := fun key r found => by cases found
  nonzero := rfl
  records := fun id l found => by cases found

theorem congr (backed : lm.Backed bucket) (same : ∀ id, (lm'.find? id).map Lease.bare = (lm.find? id).map Lease.bare) :
    lm'.Backed bucket where
  filed := backed.filed
  nonzero := by
    have zero := same 0
    rw [backed.nonzero] at zero
    simpa using zero
  records := fun id l found => by
    have bare := same id
    rw [found] at bare
    obtain ⟨old,there,bare⟩ := Option.map_eq_some_iff.mp bare.symm
    have record : old.bare.record = l.bare.record := congrArg Lease.record bare
    exact (backed.records id old there).trans (congrArg some record)

theorem save (backed : lm.Backed bucket) {l : Lease} (known : l.id ≠ 0 ∨ (lm.find? l.id).isSome = true) :
    (lm.save l).Backed (bucket.insert (leaseBucketKey l.id) l.record) where
  filed := by
    intro key r found
    rw [SortedMap.find_insert] at found
    split at found
    next same =>
      cases found
      exact same.symm
    next => exact backed.filed key r found
  nonzero := by
    have nonzero : l.id ≠ 0 := known.elim id fun there zero => by simp [zero,backed.nonzero] at there
    rw [find_save,if_neg (Ne.symm nonzero),backed.nonzero]
  records := by
    intro id l' found
    rw [find_save] at found
    rw [SortedMap.find_insert]
    split at found
    next same =>
      cases found
      rw [if_pos (by rw [same])]
    next different => rw [if_neg fun same => different (leaseBucketKey_inj.mp same),backed.records id l' found]

theorem remove (backed : lm.Backed bucket) {ids : List Int64}
    (removed : ∀ id, lm'.find? id = if id ∈ ids then none else lm.find? id) :
    lm'.Backed ((ids.map leaseBucketKey).foldl SortedMap.erase bucket) where
  filed := by
    intro key r found
    rw [SortedMap.find_foldl_erase] at found
    split at found
    · cases found
    · exact backed.filed key r found
  nonzero := by rw [removed,backed.nonzero,ite_self]
  records := by
    intro id l found
    rw [removed] at found
    split at found
    · cases found
    next kept =>
      rw [SortedMap.find_foldl_erase,if_neg,backed.records id l found]
      intro inside
      obtain ⟨id',member,same⟩ := List.mem_map.mp inside
      exact kept (leaseBucketKey_inj.mp same ▸ member)

theorem ledger : Ledger Backed :=
  ⟨congr,fun backed known => backed.save known,fun backed removed => backed.remove removed⟩

theorem restore {s : KvStore} (backed : lm.Backed s.backend.buckets.lease) (orderly : s.Orderly) (now : Readings) :
    (LeaseManager.restore now s).1.Backed (LeaseManager.restore now s).2.backend.buckets.lease := by
  rw [restore_eq now backed.filed orderly]
  refine Backed.congr ?_ (SameLeases.reattach _ _).leases
  refine List.foldlRecOn (motive := fun state : LeaseManager × KvStore => state.1.Backed state.2.backend.buckets.lease)
    _ _ ⟨backed.filed,rfl,fun id l found => by cases found⟩ fun state kept r _ => ?_
  unfold regrant
  split
  · exact kept
  next valid => exact ledger.addLease kept _ (fun zero => valid (Or.inr zero)) r.2

end Backed

end LeaseManager

/-- The leases of the state machine are backed by their records. -/
def Fsm.Backed (f : Fsm) : Prop := f.lm.Backed f.store.backend.buckets.lease

theorem Fsm.Backed.apply {f : Fsm} (backed : f.Backed) (orderly : f.store.Orderly) (env : Env) (log : Log) :
    (f.apply env log).1.Backed := LeaseManager.Backed.ledger.apply backed orderly env log

theorem Replica.run_backed (opts : OtOptions) (nodeID : String) (events : List ReplicaEvent) :
    ((new opts nodeID).run events).fsm.Backed := by
  have both : ((new opts nodeID).run events).fsm.store.Orderly ∧ ((new opts nodeID).run events).fsm.Backed := by
    refine run_invariant (P := fun r => r.fsm.store.Orderly ∧ r.fsm.Backed) ?_ ?_ events
    case refine_2 => exact ⟨KvStore.Orderly.new,LeaseManager.Backed.new⟩
    rintro r event ⟨orderly,backed⟩
    refine ⟨r.step_orderly event orderly,?_⟩
    cases event with
    | apply env log => exact backed.apply orderly env log
    | advance i =>
      change r.fsm.lm.Backed (r.sys.advance i).store.backend.buckets.lease
      have same : (r.sys.advance i).store.backend.buckets.lease = r.fsm.store.backend.buckets.lease := by
        rw [Sys.advance]
        split
        · rfl
        next job at_ => exact (job.step_others r.fsm.store).1
      rw [same]
      exact backed
    | restart now =>
      have restored : (LeaseManager.restore now (KvStore.new r.fsm.store.backend).restore.1).1.Backed
          (LeaseManager.restore now (KvStore.new r.fsm.store.backend).restore.1).2.backend.buckets.lease :=
        LeaseManager.Backed.restore (s := (KvStore.new r.fsm.store.backend).restore.1) backed orderly.restore now
      change (LeaseManager.restore now (KvStore.new r.fsm.store.backend).restore.1).1.Backed
        ((OTManager.new r.fsm.om.opts).restore (LeaseManager.restore now (KvStore.new r.fsm.store.backend).restore.1).2).1.2.backend.buckets.lease
      generalize LeaseManager.restore now (KvStore.new r.fsm.store.backend).restore.1 = leases at restored ⊢
      unfold OTManager.restore
      split
      · exact restored
      · simp only
        split <;> exact restored
  exact both.2

/-- Whatever is applied, and over any restarts, every lease of a replica has the record under its id that it would be saved as. -/
theorem leases_are_on_record (opts : OtOptions) (nodeID : String) (events : List ReplicaEvent) :
    let f := ((Replica.new opts nodeID).run events).fsm
    f.lm.find? 0 = none ∧ ∀ id l, f.lm.find? id = some l → f.store.backend.buckets.lease.find? (leaseBucketKey id) = some l.record :=
  ⟨(Replica.run_backed opts nodeID events).nonzero,(Replica.run_backed opts nodeID events).records⟩

/-- A restart keeps a lease with time left, and its granted time, exactly if the record still has the granted time and the
    lease is not behind the largest id. -/
theorem restart_keeps_lease_iff (opts : OtOptions) (nodeID : String) (events : List ReplicaEvent) (now : Readings) :
    let f := ((Replica.new opts nodeID).run events).fsm
    let restored := LeaseManager.restore now f.store
    ∀ id l r, f.lm.find? id = some l → f.store.backend.buckets.lease.find? (leaseBucketKey id) = some r → 0 < r.remainingTTL →
      ((∃ l', restored.1.find? id = some l' ∧ l'.id = l.id ∧ l'.ttl = l.ttl ∧
        ∀ env, (LeaseManager.keepAlive env restored.1 restored.2 id).2 = (LeaseManager.keepAlive env f.lm f.store id).2) ↔
      min r.remainingTTL maxTTL = l.ttl ∧ ¬ LeaseManager.Lost f.store.backend.buckets.lease id) := by
  intro f restored id l r found stored positive
  have orderly : f.store.Orderly := Replica.run_orderly opts nodeID events
  have backed : f.Backed := Replica.run_backed opts nodeID events
  have nonzero : id ≠ 0 := by
    rintro rfl
    rw [backed.nonzero] at found
    cases found
  have lookup : ∀ l', (restored.1.find? id).map Lease.bare = some l' ↔ _ :=
    fun l' => LeaseManager.find_restore now backed.filed orderly
  constructor
  · rintro ⟨l',there,-,ttl,-⟩
    obtain ⟨-,kept,r',stored',-,same⟩ := (lookup l'.bare).mp (by rw [there]; rfl)
    rw [stored] at stored'
    cases stored'
    have granted : l'.ttl = min r.remainingTTL maxTTL := congrArg Lease.ttl same
    exact ⟨granted.symm.trans ttl,kept⟩
  · rintro ⟨full,kept⟩
    have bare := (lookup _).mpr ⟨nonzero,kept,r,stored,positive,rfl⟩
    obtain ⟨l',there,same⟩ := Option.map_eq_some_iff.mp bare
    have ttl : l'.ttl = l.ttl := (congrArg Lease.ttl same).trans full
    refine ⟨l',there,(LeaseManager.id_of_find there).trans (LeaseManager.id_of_find found).symm,ttl,fun env => ?_⟩
    unfold LeaseManager.keepAlive
    rw [if_neg nonzero, if_neg nonzero, there, found]
    simp only [ttl]

/-- A lease granted before a first restart, with its full time left. -/
theorem restart_keeps_lease_twice :
    let f := ((Replica.new defaultOtOptions "a").run [.apply (.plain 0) (.plain 1 (.lease (.grant 7 10))),.restart 5]).fsm
    let restored := LeaseManager.restore 9 f.store
    ∃ l', restored.1.find? 7 = some l' ∧ l'.id = 7 ∧ l'.ttl = 10 ∧
      ∀ env, (LeaseManager.keepAlive env restored.1 restored.2 7).2 = (LeaseManager.keepAlive env f.lm f.store 7).2 :=
  (restart_keeps_lease_iff defaultOtOptions "a" _ 9 7 (Lease.new 5 7 10) ⟨7,10,10⟩ (by rfl) (by decide) (by decide)).mpr
      ⟨by decide,fun lost => absurd lost.1 (by decide)⟩

/-- A checkpoint lowers the remaining time, and the restart grants only this: the next renewal is for three seconds. -/
theorem restart_shortens_lease :
    let f := ((Replica.new defaultOtOptions "a").run [.apply (.plain 0) (.plain 1 (.lease (.grant 7 10))),
      .apply (.plain 0) (.plain 2 (.lease (.checkpoint [⟨7,3⟩])))]).fsm
    let restored := LeaseManager.restore 9 f.store
    (f.lm.find? 7).map (·.ttl) = some 10 ∧ (restored.1.find? 7).map (·.ttl) = some 3 ∧
      (LeaseManager.keepAlive (.plain 9) f.lm f.store 7).2 = .ok 10 ∧
      (LeaseManager.keepAlive (.plain 9) restored.1 restored.2 7).2 = .ok 3 := by
  decide

theorem KvStore.Current.record {s : KvStore} {m : KvMap} (current : s.Current m) {key : Bytes} {item : Item}
    (live : m.find? key = some item) : ∃ rev, s.backend.buckets.kv.find? ⟨rev,false⟩ = some (item.entry key) := by
  have shown := current.holds.shows_ key
  rw [live,wanted,Option.map_some] at shown
  obtain ⟨found,-,same⟩ := Option.map_eq_some_iff.mp shown
  simp only [Prod.mk.injEq] at same
  exact ⟨found.2.1,same.2.2.2⟩

/-- The restored set of a lease is that of its live keys exactly if all versions of keys under the lease that are left in
    the bucket are of keys that have the lease now. -/
theorem restored_key_set_iff (opts : OtOptions) (nodeID : String) (entries : List (Env × Log))
    (uncompacted : ∀ e ∈ entries, e.2.Uncompacted) (now : Readings) :
    let s := ((Fsm.new opts nodeID).applyAll entries).store
    ∀ id l, (LeaseManager.restore now s).1.find? id = some l →
      ((∀ key, (l.keySet.find? key).isSome ↔ (s.entryOf key).map (·.leaseID) = some id) ↔
      ∀ bk e, s.backend.buckets.kv.find? bk = some e → bk.tombstone = false → e.leaseID = id →
        (s.entryOf e.key).map (·.leaseID) = some id) := by
  intro s id l found
  obtain ⟨m,current⟩ := Fsm.applyAll_current (f := Fsm.new opts nodeID) uncompacted KvStore.Current.new
  obtain ⟨orderly,backed⟩ := Fsm.applyAll_invariant (P := fun f => f.store.Orderly ∧ f.Backed)
    (fun f env log both => ⟨Fsm.apply_orderly both.1 env log,both.2.apply both.1 env log⟩)
    (f := Fsm.new opts nodeID) ⟨KvStore.Orderly.new,LeaseManager.Backed.new⟩ entries
  have keySet : ∀ key, (l.keySet.find? key).isSome ↔
      ∃ bk e, s.backend.buckets.kv.find? bk = some e ∧ bk.tombstone = false ∧ e.leaseID = id ∧ e.key = key := by
    intro key
    rw [← LeaseManager.attached_restore now backed.filed orderly (by rw [found]; rfl), LeaseManager.attached, found]
    rfl
  constructor
  · intro exactly bk e stored put leased
    exact (exactly e.key).mp ((keySet e.key).mpr ⟨bk,e,stored,put,leased,rfl⟩)
  · intro current_ key
    rw [keySet]
    constructor
    · rintro ⟨bk,e,stored,put,leased,rfl⟩
      exact current_ bk e stored put leased
    · intro live
      rw [current.holds.entryOf_eq, Option.map_map] at live
      obtain ⟨item,there,leased⟩ := Option.map_eq_some_iff.mp live
      obtain ⟨rev,stored⟩ := current.record there
      exact ⟨⟨rev,false⟩,_,stored,rfl,leased,rfl⟩

/-- Two keys under the lease, one of them put twice. -/
theorem restored_key_set_of_live_keys :
    let entries : List (Env × Log) := [(.plain 0,.plain 1 (.lease (.grant 7 10))),(.plain 0,.plain 2 (.kv (.put (.plain [97] [1] 7)))),
      (.plain 0,.plain 3 (.kv (.put (.plain [97] [2] 7)))),(.plain 0,.plain 4 (.kv (.put (.plain [98] [1] 7))))]
    let s := ((Fsm.new defaultOtOptions "a").applyAll entries).store
    ∃ l, (LeaseManager.restore 5 s).1.find? 7 = some l ∧
      ∀ key, (l.keySet.find? key).isSome ↔ (s.entryOf key).map (·.leaseID) = some 7 := by
  intro entries s
  have there : ((LeaseManager.restore 5 s).1.find? 7).isSome := by decide
  obtain ⟨l,found⟩ := Option.isSome_iff_exists.mp there
  refine ⟨l,found,(restored_key_set_iff defaultOtOptions "a" entries (by decide) 5 7 l found).mpr ?_⟩
  intro bk e stored _ _
  have all : ∀ record ∈ s.backend.buckets.kv.entries, (s.entryOf record.2.key).map (·.leaseID) = some 7 := by decide
  exact all (bk,e) (SortedMap.mem_entries.mpr stored)

/-- The key is put under the lease and then without one: its first version is still in the bucket, and the restart
    attaches the key again, so that it is deleted when the lease expires. -/
theorem restart_reattaches_moved_key :
    let f := (Fsm.new defaultOtOptions "a").applyAll [(.plain 0,.plain 1 (.lease (.grant 7 10))),
      (.plain 0,.plain 2 (.kv (.put (.plain [97] [1] 7)))),
      (.plain 0,.plain 3 (.kv (.put (.plain [97] [2] 0))))]
    let restored := LeaseManager.restore 5 f.store
    (f.store.entryOf [97]).map (·.leaseID) = some 0 ∧ f.lm.attached 7 [97] = false ∧ restored.1.attached 7 [97] = true ∧
      (LeaseManager.applyExpired (.plain 9) restored.1 restored.2 [7]).1.2.entryOf [97] = none := by
  decide

theorem remaining_pos_iff {ttl : Int} {elapsed : Nat} (granted : 1 ≤ ttl) (soon : (elapsed : Int) < timeSecond) (now : Int) :
    0 < (now + ttl * timeSecond - (now + elapsed)).tdiv timeSecond ↔ 2 ≤ ttl ∨ elapsed = 0 := by
  have left : now + ttl * timeSecond - (now + elapsed) = ttl * timeSecond - elapsed := by ring
  have second : timeSecond = 1000000000 := rfl
  have nonneg : 0 ≤ ttl * timeSecond - elapsed := by
    rw [second] at soon ⊢
    omega
  rw [left,Int.tdiv_eq_ediv_of_nonneg nonneg,Int.lt_iff_add_one_le,Int.le_ediv_iff_mul_le (by decide)]
  rw [second] at soon ⊢
  omega

namespace LeaseManager

theorem Filed.persist {s : KvStore} (filed : Filed s.backend.buckets.lease) (l : Lease) :
    Filed (LeaseManager.persist s l).backend.buckets.lease := by
  intro key r there
  change (s.backend.buckets.lease.insert (leaseBucketKey l.id) l.record).find? key = some r at there
  rw [SortedMap.find_insert] at there
  split at there
  next same =>
    cases there
    exact same.symm
  next => exact filed key r there

theorem lost_persist (s : KvStore) (l : Lease) :
    Lost (persist s l).backend.buckets.lease l.id ↔ Lost s.backend.buckets.lease l.id := by
  refine and_congr_right fun negative => ?_
  change (∃ r ∈ (s.backend.buckets.lease.insert (leaseBucketKey l.id) l.record).find? _, _) ↔ _
  rw [SortedMap.find_insert,if_neg]
  intro same
  rw [← leaseBucketKey_inj.mp same] at negative
  exact absurd negative (by decide)

end LeaseManager

/-- Within a second of a renewal, the time left is persisted as positive and a restore keeps the lease and its keys, exactly
    if the lease is for more than a second or no time has passed, it is not behind the largest id, and each of its keys has a
    version under the lease in the bucket. -/
theorem renewed_lease_survives_restore_iff (opts : OtOptions) (nodeID : String) (events : List ReplicaEvent) (env : Env) (now : Readings)
    (soon : (env.elapsed : Int) < timeSecond) :
    let f := ((Replica.new opts nodeID).run events).fsm
    ∀ id l, f.lm.find? id = some l → 1 ≤ l.ttl →
      let renewed := (LeaseManager.keepAlive env f.lm f.store id).1
      let restored := (LeaseManager.restore now renewed.2).1
      (((∃ r, renewed.2.backend.buckets.lease.find? (leaseBucketKey id) = some r ∧ 0 < r.remainingTTL) ∧
          (restored.find? id).isSome ∧ ∀ key, f.lm.attached id key = true → restored.attached id key = true) ↔
        (2 ≤ l.ttl ∨ env.elapsed = 0) ∧ ¬ LeaseManager.Lost f.store.backend.buckets.lease id ∧
          ∀ key, f.lm.attached id key = true →
            ∃ bk e, f.store.backend.buckets.kv.find? bk = some e ∧ bk.tombstone = false ∧ e.leaseID = id ∧ e.key = key) := by
  intro f id l found granted renewed restored
  have orderly : f.store.Orderly := Replica.run_orderly opts nodeID events
  have backed : f.Backed := Replica.run_backed opts nodeID events
  have nonzero : id ≠ 0 := by
    rintro rfl
    rw [backed.nonzero] at found
    cases found
  let after : Lease := { l with
    remainingTTL := (env.now + l.ttl * timeSecond - (env.now + env.elapsed)).tdiv timeSecond
    expiry := env.now + l.ttl * timeSecond }
  have named : after.id = id := (LeaseManager.id_of_find found :)
  have store : renewed.2 = LeaseManager.persist f.store after := by
    change (LeaseManager.keepAlive env f.lm f.store id).1.2 = _
    rw [LeaseManager.keepAlive, if_neg nonzero, found]
  have filed : LeaseManager.Filed renewed.2.backend.buckets.lease := store ▸ LeaseManager.Filed.persist backed.filed after
  have orderly' : renewed.2.Orderly := store ▸ orderly.same (KvStore.SameKv.persist f.store after)
  have lost : LeaseManager.Lost renewed.2.backend.buckets.lease id ↔ LeaseManager.Lost f.store.backend.buckets.lease id := by
    rw [store, ← named]
    exact LeaseManager.lost_persist f.store after
  have stored : renewed.2.backend.buckets.lease.find? (leaseBucketKey id) = some after.record := by
    rw [store, ← named]
    exact (SortedMap.find_insert _ _ _ _).trans (if_pos rfl)
  have positive : (∃ r, renewed.2.backend.buckets.lease.find? (leaseBucketKey id) = some r ∧ 0 < r.remainingTTL) ↔
      2 ≤ l.ttl ∨ env.elapsed = 0 := by
    rw [stored, ← remaining_pos_iff granted soon env.now]
    constructor
    · rintro ⟨r,same,left⟩
      cases same
      exact left
    · exact fun left => ⟨_,rfl,left⟩
  have kept : (restored.find? id).isSome ↔ ¬ LeaseManager.Lost f.store.backend.buckets.lease id ∧ (2 ≤ l.ttl ∨ env.elapsed = 0) := by
    rw [← positive, ← lost, ← Option.isSome_map (f := Lease.bare), Option.isSome_iff_exists]
    simp only [restored, LeaseManager.find_restore now filed orderly']
    constructor
    · rintro ⟨_,-,kept,r,there,left,-⟩
      exact ⟨kept,r,there,left⟩
    · rintro ⟨kept,r,there,left⟩
      exact ⟨_,nonzero,kept,r,there,left,rfl⟩
  have attached : ∀ key, (restored.find? id).isSome → (restored.attached id key = true ↔ ∃ bk e,
      f.store.backend.buckets.kv.find? bk = some e ∧ bk.tombstone = false ∧ e.leaseID = id ∧ e.key = key) := by
    intro key there
    have kv : renewed.2.backend.buckets.kv = f.store.backend.buckets.kv := congrArg (·.backend.buckets.kv) store
    rw [← kv]
    exact LeaseManager.attached_restore now filed orderly' there key
  constructor
  · rintro ⟨left,there,keys⟩
    refine ⟨positive.mp left,(kept.mp there).1,fun key mine => ?_⟩
    exact (attached key there).mp (keys key mine)
  · rintro ⟨left,reachable,keys⟩
    have there := kept.mpr ⟨reachable,left⟩
    exact ⟨positive.mpr left,there,fun key mine => (attached key there).mpr (keys key mine)⟩

/-- A lease of two seconds with a key, renewed in half a second. -/
theorem renewed_lease_survives_restore_two_seconds :
    let f := ((Replica.new defaultOtOptions "a").run [.apply (.plain 0) (.plain 1 (.lease (.grant 7 2))),
      .apply (.plain 0) (.plain 2 (.kv (.put (.plain [97] [1] 7))))]).fsm
    let renewed := (LeaseManager.keepAlive ⟨1,500000000,fun keys => keys,fun _ => .refl _⟩ f.lm f.store 7).1
    let restored := (LeaseManager.restore 9 renewed.2).1
    (restored.find? 7).isSome ∧ ∀ key, f.lm.attached 7 key = true → restored.attached 7 key = true := by
  intro f renewed restored
  have there : (f.lm.find? 7).isSome := by decide
  obtain ⟨l,found⟩ := Option.isSome_iff_exists.mp there
  have two : (f.lm.find? 7).map (·.ttl) = some 2 := by decide
  rw [found] at two
  have ttl : l.ttl = 2 := Option.some.inj two
  refine ((renewed_lease_survives_restore_iff defaultOtOptions "a" _ ⟨1,500000000,fun keys => keys,fun _ => .refl _⟩ 9 (by decide) 7 l found (by rw [ttl]; decide)).mpr ⟨?_,?_,?_⟩).2
  · exact Or.inl ttl.ge
  · exact fun lost => absurd lost.1 (by decide)
  · intro key mine
    have only : f.lm.attachments = [(7,[97])] := by decide
    have inside := LeaseManager.mem_attachments.mpr mine
    rw [only, List.mem_singleton, Prod.mk.injEq] at inside
    rw [inside.2]
    exact ⟨⟨⟨1,0⟩,false⟩,⟨[97],some [1],1,1,1,7⟩,by decide,rfl,rfl,rfl⟩

/-- A lease of a second renewed with a nanosecond between the clock readings: no time is left in its record. -/
theorem renewed_lease_of_one_second_is_dropped :
    let f := ((Replica.new defaultOtOptions "a").run [.apply (.plain 0) (.plain 1 (.lease (.grant 7 1))),
      .apply (.plain 0) (.plain 2 (.kv (.put (.plain [97] [1] 7))))]).fsm
    let renewed := LeaseManager.keepAlive ⟨5,1,fun keys => keys,fun _ => .refl _⟩ f.lm f.store 7
    let restored := (LeaseManager.restore 5 renewed.1.2).1
    (f.lm.find? 7).map (·.ttl) = some 1 ∧ f.lm.attached 7 [97] = true ∧ renewed.2 = .ok 0 ∧
      renewed.1.2.backend.buckets.lease.find? (leaseBucketKey 7) = some ⟨7,1,0⟩ ∧
      (restored.find? 7).isNone ∧ restored.attached 7 [97] = false := by
  decide

end Kave
