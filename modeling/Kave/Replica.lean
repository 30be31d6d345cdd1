import Kave.Effects
import Kave.Restart

/-! A replica: its state machine and the compactions that run beside it, which go on between the entries of the log, and
    its restarts, after which everything is read back from the buckets. -/

namespace Kave

structure Replica where
  fsm : Fsm
  jobs : List Job

inductive ReplicaEvent
  | apply (env : Env) (log : Log)
  | advance (i : Nat)
  | restart (now : Readings)

namespace Replica

def new (opts : OtOptions) (nodeID : String) : Replica := ⟨Fsm.new opts nodeID,[]⟩

def sys (r : Replica) : Sys := ⟨r.fsm.store,r.jobs⟩

/-- An entry of the log; an accepted compaction starts its goroutine. -/
def apply (r : Replica) (env : Env) (log : Log) : Replica :=
  let run := r.fsm.apply env log
  ⟨run.1,(Sys.settle run.1.store r.jobs).jobs ++ run.2.1.toList.map fun c => ⟨c,.clone⟩⟩

def advance (r : Replica) (i : Nat) : Replica :=
  let s := r.sys.advance i
  ⟨{ r.fsm with store := s.store },s.jobs⟩

/-- `initStorage` over the buckets that are left; an error of one of the parts is only logged. -/
def restart (r : Replica) (now : Readings) : Replica :=
  let restored := (KvStore.new r.fsm.store.backend).restore
  let leases := LeaseManager.restore now restored.1
  let transfer := (OTManager.new r.fsm.om.opts).restore leases.2
  ⟨⟨transfer.1.2,leases.1,transfer.1.1,r.fsm.nodeID⟩,restored.2.toList.map fun c => ⟨c,.clone⟩⟩

def step (r : Replica) : ReplicaEvent → Replica
  | .apply env log => r.apply env log
  | .advance i => r.advance i
  | .restart now => r.restart now

def run (r : Replica) (events : List ReplicaEvent) : Replica := events.foldl step r

theorem run_invariant {P : Replica → Prop} (keeps : ∀ r event, P r → P (r.step event)) {r : Replica} (start : P r)
    (events : List ReplicaEvent) : P (r.run events) := by
  induction events generalizing r with
  | nil => exact start
  | cons event rest ih => exact ih (keeps r event start)

end Replica

/-- A restart finds nothing beyond the revision that it restores. -/
theorem KvStore.Orderly.restore {s : KvStore} (orderly : s.Orderly) : (KvStore.new s.backend).restore.1.Orderly := by
  have below : ∀ bk, (s.backend.buckets.kv.find? bk).isSome →
      0 < bk.rev.main ∧ 0 ≤ bk.rev.sub ∧ bk.rev < ⟨(KvStore.new s.backend).restore.1.currentRev.main + 1,0⟩ := by
    intro bk present
    obtain ⟨main,sub,-⟩ := orderly.stamped.early bk present
    obtain ⟨e,last,-,le⟩ := newest_entry present
    have current : (KvStore.new s.backend).restore.1.currentRev = e.1.rev := by
      simp [KvStore.restore,KvStore.new,last]
    refine ⟨main,sub,Revision.lt_of_main_lt ?_⟩
    rw [current]
    have reached : bk.rev ≤ e.1.rev := by
      rcases le.lt_or_eq with less | same
      · exact KvBucketKey.rev_le_of_lt less
      · rw [same]
    exact Int.lt_add_one_iff.mpr (Revision.main_le_of_le reached)
  have nonneg : 0 ≤ (KvStore.new s.backend).restore.1.currentRev.main := by
    change 0 ≤ Revision.main (Option.getD (s.backend.buckets.kv.entries.getLast?.map (·.1.rev)) Revision.zero)
    cases last : s.backend.buckets.kv.entries.getLast? with
    | none => exact le_rfl
    | some e =>
      have here := SortedMap.mem_entries.mp (List.mem_of_getLast? last)
      exact (below e.1 (by rw [here]; rfl)).1.le
  refine ⟨⟨nonneg,restoreIndex_valid _,?_⟩,⟨below,orderly.stamped.distinct⟩⟩
  intro key bk member
  exact below bk (isSome_of_mem_recordsIn (restoreIndex_records orderly.stamped member))

theorem Job.Stepped.currentRev {job : Job} {s s' : KvStore} {next : Option Job} (stepped : Job.Stepped job s s' next) :
    s'.currentRev = s.currentRev := by
  cases stepped <;> rfl

theorem Sys.advance_currentRev {s : Sys} (valid : s.store.kvIndex.Valid) (i : Nat) :
    (s.advance i).store.currentRev = s.store.currentRev := by
  rw [Sys.advance]
  split
  · rfl
  next job at_ => exact (job.step_cases valid).currentRev

theorem Job.Stepped.orderly {job : Job} {s s' : KvStore} {next : Option Job} (stepped : Job.Stepped job s s' next)
    (orderly : s.Orderly) : s'.Orderly := by
  refine ⟨stepped.settled orderly.settled,?_⟩
  cases stepped with
  | clone | indexed | failed | visit | store => exact orderly.stamped
  | @batch retain start b next at_ pruned =>
    refine orderly.stamped.subset fun {bk entry} found => ?_
    change b.buckets.kv.find? bk = some entry at found
    rcases pruned bk with same | ⟨gone,-⟩
    · rwa [← same]
    · rw [gone] at found
      cases found

theorem Job.step_others (job : Job) (s : KvStore) : (job.step s).1.backend.buckets.lease = s.backend.buckets.lease ∧
    (job.step s).1.backend.buckets.ot = s.backend.buckets.ot := by
  obtain ⟨c,stage⟩ := job
  cases stage with
  | clone | store => exact ⟨rfl,rfl⟩
  | index pending avail =>
    match pending with
    | [] | (key,false) :: rest => exact ⟨rfl,rfl⟩
    | (key,true) :: rest =>
      simp only [Job.step,if_true]
      cases s.kvIndex.compactKey c.targetRev key avail <;> exact ⟨rfl,rfl⟩
  | batch retain start =>
    obtain ⟨b,store,batched⟩ := s.compactBatch_batched c.targetRev retain start
    simp only [Job.step]
    generalize s.compactBatch c.targetRev retain start = run at store batched ⊢
    obtain ⟨s',next⟩ := run
    obtain rfl : s' = _ := store
    cases next <;> exact ⟨batched.lease,batched.ot⟩

namespace Replica

theorem step_orderly (r : Replica) (event : ReplicaEvent) (orderly : r.fsm.store.Orderly) : (r.step event).fsm.store.Orderly := by
  cases event with
  | apply env log => exact Fsm.apply_orderly orderly env log
  | advance i =>
    change (r.sys.advance i).store.Orderly
    rw [Sys.advance]
    split
    · exact orderly
    next job at_ => exact (job.step_cases orderly.settled.before.valid).orderly orderly
  | restart now =>
    exact (orderly.restore.same (KvStore.SameKv.restoreLeases now _)).same (KvStore.SameKv.restoreOt _ _)

/-- No run leads beyond the current revision. -/
theorem run_orderly (opts : OtOptions) (nodeID : String) (events : List ReplicaEvent) :
    ((new opts nodeID).run events).fsm.store.Orderly :=
  run_invariant (P := fun r => r.fsm.store.Orderly) step_orderly KvStore.Orderly.new events

end Replica

end Kave
