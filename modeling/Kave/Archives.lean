import Kave.Journal
import Kave.LeaseRestart
import Kave.Schedules

/-! Nodes without compactions. Their index and their bucket hold the whole history, so a restart finds it again, and two nodes with
    the same history move alike, whatever keys their leases have. -/

namespace Kave

open TreeIndex

/-! ### Stores with their whole history -/

/-- The store holds all of the history, and no compaction was ever asked for. -/
structure KvStore.Archives (s : KvStore) (h : History) : Prop where
  mirrored : s.Mirrored
  refines_ : Refines 0 s h
  compacted : s.compactedMainRev = 0
  scheduled : s.backend.buckets.metadata.scheduledCompactedRev = none
  finished : s.backend.buckets.metadata.finishedCompactedRev = none

theorem KvStore.SameKv.symm {s s' : KvStore} (same : s.SameKv s') : s'.SameKv s :=
  ⟨same.content.symm,same.current.symm,same.compacted.symm,same.keyCount.symm,same.scheduled.symm,same.finished.symm⟩

namespace KvStore.Archives

variable {s s' : KvStore} {h : History}

theorem new : (KvStore.new Backend.empty).Archives History.empty := ⟨.new,refines_empty,rfl,rfl,rfl⟩

section

variable (archives : s.Archives h)

include archives

theorem orderly : s.Orderly := archives.mirrored.toOrderly

theorem settled : s.Settled := archives.orderly.settled

theorem holds : s.Holds h.last := by
  refine ⟨archives.settled,?_,?_⟩
  · rw [archives.refines_.current]
    exact archives.refines_.agree _ archives.refines_.reach le_rfl
  · rw [archives.compacted]
    exact archives.settled.nonneg

theorem same (same : s.SameKv s') : s'.Archives h := by
  have index : s'.kvIndex = s.kvIndex := congrArg Content.index same.content
  have kv : s'.backend.buckets.kv = s.backend.buckets.kv := congrArg Content.kv same.content
  have orderly := archives.orderly.same same
  refine ⟨⟨orderly,?_,?_⟩,archives.refines_.of_shows orderly.settled same.current fun r m shows_ => ?_,?_,?_,?_⟩
  · rw [index,kv]
    exact archives.mirrored.index
  · rw [kv,same.current]
    exact archives.mirrored.newest
  · rw [same.content]
    exact shows_
  · rw [same.compacted,archives.compacted]
  · rw [same.scheduled,archives.scheduled]
  · rw [same.finished,archives.finished]

theorem aborted {ti : TreeIndex} (alike : ti.Alike s.kvIndex) :
    KvStore.Archives { s with kvIndex := ti } h := by
  have mirrored := archives.mirrored.aborted alike
  refine ⟨mirrored,archives.refines_.of_shows mirrored.settled rfl fun r m shows_ key => ?_,archives.compacted,archives.scheduled,
    archives.finished⟩
  change shown s.backend.buckets.kv (ti.look key r) = _
  rw [alike.look]
  exact shows_ key

theorem txn (ops : List Op) : (s.txn ops).Archives (h.txn ops) := by
  obtain ⟨ws,committed⟩ := archives.settled.committed ops
  refine ⟨archives.mirrored.txn ops,archives.refines_.txn ops,?_,?_,?_⟩
  · rw [committed.compacted,archives.compacted]
  · rw [committed.scheduled,archives.scheduled]
  · rw [committed.finished,archives.finished]

theorem restore :
    (KvStore.new s.backend).restore.1.Archives h ∧ (KvStore.new s.backend).restore.2 = none := by
  have main : (KvStore.new s.backend).restore.1.currentRev.main = s.currentRev.main := archives.mirrored.restore.2
  have orderly := archives.orderly.restore
  have idle : ¬ s.backend.buckets.metadata.scheduledCompactedRev.getD 0 > s.backend.buckets.metadata.finishedCompactedRev.getD 0 := by
    simp [archives.scheduled,archives.finished]
  refine ⟨⟨⟨orderly,TreeIndex.Alike.refl _,?_⟩,⟨orderly.settled,main.trans archives.refines_.current,archives.refines_.reach,?_⟩,
    ?_,archives.scheduled,archives.finished⟩,if_neg idle⟩
  · rw [main]
    exact archives.mirrored.newest
  · intro r low high key
    change shown s.backend.buckets.kv ((KvStore.restoreIndex s.backend.buckets.kv).look key r) = _
    rw [← TreeIndex.Alike.look archives.mirrored.index]
    exact archives.refines_.agree r low high key
  · simp [KvStore.restore,KvStore.new,archives.scheduled,archives.finished]

theorem twins (archives' : s'.Archives h) : s.Twins 0 s' where
  orderly := archives.orderly
  orderly' := archives'.orderly
  current := archives'.refines_.current.trans archives.refines_.current.symm
  reach := archives.settled.nonneg
  kept := archives.compacted.le
  kept' := archives'.compacted.le
  seen key _ low := (archives.refines_.seenAt key low).trans (archives'.refines_.seenAt key low).symm

end

end KvStore.Archives

theorem History.txn_eq_of_current {h : History} {ops : List Op} (same : (h.txn ops).current = h.current) : h.txn ops = h := by
  unfold txn at same ⊢
  split
  next changed =>
    rw [changed] at same
    exact absurd same (by simp)
  next => rfl

/-! ### What a transaction leaves in the file -/

theorem KvStore.Settled.txn_backend {s : KvStore} (settled : s.Settled) (ops : List Op) :
    (s.txn ops).backend.commits = (s.txn ops).backend.buckets :: s.backend.commits ∧
      (s.txn ops).backend.buckets.metadata.raftApplyIndex =
        if (s.txn ops).currentRev.main = s.currentRev.main ∨ s.applyIndex = 0 then s.backend.buckets.metadata.raftApplyIndex
        else some s.applyIndex := by
  obtain ⟨m,domain⟩ := s.content.exists_domain (s.currentRev.main + 1)
  obtain ⟨w,more,run,extends_,-⟩ := Writer.runOps_spec ops settled.fresh domain
  have store := extends_.store
  have buckets := extends_.buckets
  simp only [KvStore.newWriter] at store buckets
  have backend : w.store.backend = s.backend := by rw [store]
  have applied : w.store.applyIndex = s.applyIndex := by rw [store]
  have current : w.store.currentRev = s.currentRev := by rw [store]
  have batch : ∀ metaOps, w.store.backend.buckets.applyBatch (w.writeTx ++ metaOps) =
      ({ s.backend.buckets with kv := w.content.kv }).applyBatch metaOps := by
    intro metaOps
    rw [Buckets.applyBatch_append,backend,buckets]
    rfl
  rw [KvStore.txn,run]
  constructor
  · simp only [Writer.endTx,Backend.commit,backend]
  · simp only [Writer.endTx,Backend.commit_buckets,batch,current,applied]
    by_cases none : w.changes = []
    · simp [none]
    · rcases Nat.eq_zero_or_pos s.applyIndex with zero | positive
      · simp [none,zero,Buckets.apply]
      · simp [none,positive,positive.ne',Buckets.apply]

/-! ### Two nodes with one history -/

/-- The leases that a command takes away. -/
def Request.ends : Request → List Int64
  | .lease cmd => cmd.removes
  | _ => []

/-- Whether there is a lease after a command, from whether there was one before. -/
def Request.leaseAfter (request : Request) (id : Int64) (before : Bool) : Bool :=
  match request with
  | .lease (.grant new ttl) => before || decide (id = new ∧ new ≠ 0 ∧ 0 < ttl)
  | request => before && decide (id ∉ request.ends)

theorem Request.leaseAfter_cases (request : Request) (id : Int64) :
    (∀ before, request.leaseAfter id before = before) ∨ ∃ after, ∀ before, request.leaseAfter id before = after := by
  have removed : (∀ before, (before && decide (id ∉ request.ends)) = before) ∨
      ∃ after, ∀ before, (before && decide (id ∉ request.ends)) = after := by
    by_cases gone : id ∈ request.ends
    · exact .inr ⟨false,by simp [gone]⟩
    · exact .inl (by simp [gone])
  cases request with
  | lease cmd =>
    cases cmd with
    | grant new ttl =>
      by_cases granted : id = new ∧ new ≠ 0 ∧ 0 < ttl
      · exact .inr ⟨true,by simp [leaseAfter,granted]⟩
      · exact .inl (by simp only [leaseAfter,decide_eq_false granted,Bool.or_false,implies_true])
    | _ => exact removed
  | _ => exact removed

namespace Fsm

variable {f g : Fsm} {h : History}

theorem dispatch_leases (settled : f.store.Settled) (env : Env) (request : Request) (id : Int64) :
    ((f.dispatch env request).1.lm.find? id).isSome = request.leaseAfter id (f.lm.find? id).isSome := by
  cases request with
  | kv cmd =>
    have same := congrArg Option.isSome ((Engine.applyWrite_sameLeases f.store f.lm cmd).leases id)
    rw [Option.isSome_map,Option.isSome_map] at same
    change ((Engine.applyWrite f.store f.lm cmd).1.2.find? id).isSome = _
    rw [same]
    simp [Request.leaseAfter,Request.ends]
  | lease cmd =>
    have sets := congrArg Option.isSome (applyLease_keySets settled env cmd id)
    rw [Option.isSome_map] at sets
    change ((f.applyLease env cmd).1.lm.find? id).isSome = _
    rw [sets]
    cases cmd with
    | grant new ttl =>
      simp only [LeaseRequest.keySetAfter,Request.leaseAfter]
      split
      next granted => simp [granted]
      next not =>
        rw [Option.isSome_map,decide_eq_false not,Bool.or_false]
    | revoke | keepAlive | lookup | checkpoint | expire =>
      simp only [LeaseRequest.keySetAfter,Request.leaseAfter,Request.ends]
      split
      next gone => simp [gone]
      next kept => simp [kept]
  | compaction rev => simp [dispatch,applyCompaction,Request.leaseAfter,Request.ends]
  | ot cmd => cases cmd <;> simp [dispatch,applyOT,Request.leaseAfter,Request.ends]

theorem applyKv_archives (archives : f.store.Archives h) (cmd : KvRequest) :
    (∃ r, (f.applyKv cmd).2.2 = .ok r ∧ (f.applyKv cmd).1.store = f.store.txn (Engine.calls f.store.newWriter cmd)) ∨
    ∃ e, (f.applyKv cmd).2.2 = .error e ∧ (f.applyKv cmd).1.store.backend = f.store.backend ∧
      (f.applyKv cmd).1.store.Archives h := by
  have outcome : (f.applyKv cmd).2.2 = ((Engine.applyWrite f.store f.lm cmd).2.mapError .write).map fun r => (.kv r.1,r.2) := rfl
  rcases Engine.applyWrite_cases archives.settled f.lm cmd with ⟨e,ti,failed,left,alike⟩ | ⟨r,ws,succeeded,-⟩
  · refine .inr ⟨.write e,by rw [outcome,failed]; rfl,?_,?_⟩
    · change (Engine.applyWrite f.store f.lm cmd).1.1.backend = _
      rw [left]
    · change (Engine.applyWrite f.store f.lm cmd).1.1.Archives h
      rw [left]
      exact archives.aborted alike
  · exact .inl ⟨_,by rw [outcome,succeeded]; rfl,Engine.applyWrite_eq_txn succeeded⟩

theorem applyOT_sameKv (f : Fsm) (cmd : OtRequest) : f.store.SameKv (f.applyOT cmd).1.store := by
  cases cmd with
  | writeAll blob => exact .applyWriteAll _ _ _
  | generateClusterKey key => exact .applyGenerateClusterKey _ _ _

/-- Two nodes with one history have one history after a command if it takes the same live keys on both. -/
theorem dispatch_histories (archives : f.store.Archives h) (archives' : g.store.Archives h) (env env' : Env) {request : Request}
    (uncompacted : request.isCompaction = false)
    (same : ∀ key, (h.last.find? key).isSome = true →
      ((∃ id ∈ request.ends, f.lm.attached id key = true) ↔ ∃ id ∈ request.ends, g.lm.attached id key = true)) :
    ∃ h', (f.dispatch env request).1.store.Archives h' ∧ (g.dispatch env' request).1.store.Archives h' := by
  cases request with
  | kv cmd =>
    change ∃ h', (f.applyKv cmd).1.store.Archives h' ∧ (g.applyKv cmd).1.store.Archives h'
    have alike : ∀ rev, f.store.Alike 0 g.store rev := fun rev => by
      unfold KvStore.Alike
      omega
    have attachers : AttachersAgree fun _ _ : LeaseManager => True := ⟨fun _ _ _ => trivial,fun _ _ _ => trivial⟩
    obtain ⟨results,-,calls⟩ := (archives.twins archives').applyWrite attachers (show (fun _ _ => True) f.lm g.lm from trivial)
      (Engine.asks_of_forall alike f.store.newWriter cmd)
    have results : (f.applyKv cmd).2.2 = (g.applyKv cmd).2.2 := by
      change Except.map _ (Except.mapError _ (Engine.applyWrite f.store f.lm cmd).2) =
        Except.map _ (Except.mapError _ (Engine.applyWrite g.store g.lm cmd).2)
      rw [results]
    rcases applyKv_archives archives cmd with ⟨r,ok,after⟩ | ⟨e,failed,-,after⟩
    · rcases applyKv_archives archives' cmd with ⟨r',-,after'⟩ | ⟨e',failed',-⟩
      · rw [after,after',← calls]
        exact ⟨_,archives.txn _,archives'.txn _⟩
      · rw [← results,ok] at failed'
        cases failed'
    · rcases applyKv_archives archives' cmd with ⟨r',ok',-⟩ | ⟨e',-,-,after'⟩
      · rw [← results,failed] at ok'
        cases ok'
      · exact ⟨h,after,after'⟩
  | lease cmd =>
    obtain ⟨keys,attached,after⟩ := applyLease_store archives.settled env cmd
    obtain ⟨keys',attached',after'⟩ := applyLease_store archives'.settled env' cmd
    refine ⟨_,(archives.txn _).same after,?_⟩
    rw [h.txn_deleteKeys_congr fun key live => (attached key).trans ((same key live).trans (attached' key).symm)]
    exact (archives'.txn _).same after'
  | compaction rev => cases uncompacted
  | ot cmd => exact ⟨h,archives.same (f.applyOT_sameKv cmd),archives'.same (g.applyOT_sameKv cmd)⟩

end Fsm

end Kave
