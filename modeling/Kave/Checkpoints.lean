import Kave.LeaseRestart

/-! Checkpoints: the leader has the time that is left to its leases written down, for the next restart to start from. -/

namespace Kave

/-- The clock reads `now`. -/
def Lease.remainingSec (l : Lease) (now : Int) : Int := (l.expiry - now).tdiv timeSecond

namespace LeaseManager

/-- The clock is read again for every lease. -/
def checkpoint (lm : LeaseManager) (clock : Int64 → Int) : List Checkpoint :=
  lm.leaseMap.entries.filterMap fun e =>
    let rem := e.2.remainingSec (clock e.2.id)
    if rem ≤ 0 then none else some ⟨e.2.id,rem⟩

variable {lm : LeaseManager} {checks : List Checkpoint} {id : Int64} {l : Lease}

theorem checkpoint_distinct (lm : LeaseManager) (clock : Int64 → Int) : ((lm.checkpoint clock).map (·.leaseID)).Nodup := by
  refine List.pairwise_map.mpr (List.pairwise_filterMap.mpr (lm.leaseMap.sorted.imp_of_mem fun {a b} inA inB less => ?_))
  have nameA := lm.named a.1 a.2 (SortedMap.mem_entries.mp inA)
  have nameB := lm.named b.1 b.2 (SortedMap.mem_entries.mp inB)
  intro x isX y isY same
  grind

theorem find_applyCheckpoint_of_not_mem (s : KvStore) (aside : id ∉ checks.map (·.leaseID)) :
    (lm.applyCheckpoint s checks).1.find? id = lm.find? id := by
  induction checks generalizing lm s with
  | nil => rfl
  | cons ck rest ih =>
    rw [List.map_cons,List.mem_cons,not_or] at aside
    obtain ⟨other,aside⟩ := aside
    rw [applyCheckpoint]
    split
    · exact ih s aside
    next l found =>
      split
      · exact ih s aside
      · have named : l.id = ck.leaseID := id_of_find found
        rw [ih _ aside,find_save]
        exact if_neg fun same => other (same.trans named)

theorem find_applyCheckpoint (s : KvStore) (distinct : (checks.map (·.leaseID)).Nodup) {rem : Int} (listed : ⟨id,rem⟩ ∈ checks)
    (positive : 0 < rem) (found : lm.find? id = some l) :
    (lm.applyCheckpoint s checks).1.find? id = some { l with remainingTTL := rem } := by
  induction checks generalizing lm s with
  | nil => cases listed
  | cons ck rest ih =>
    obtain ⟨aside,distinct⟩ := List.nodup_cons.mp distinct
    rw [applyCheckpoint]
    rcases List.mem_cons.mp listed with rfl | later
    · rw [found]
      simp only [not_le.mpr positive,if_false]
      rw [find_applyCheckpoint_of_not_mem _ aside,find_save]
      exact if_pos (id_of_find found).symm
    · split
      · exact ih s distinct later found
      next l' there =>
        split
        · exact ih s distinct later found
        · refine ih _ distinct later ?_
          rw [find_save,if_neg,found]
          rintro rfl
          exact aside (List.mem_map.mpr ⟨_,later,id_of_find there⟩)

end LeaseManager

/-- A restart moves the deadlines by the time since the checkpoint: no lease gets more time than it had left, and none loses a second
    of it, unless it had more left than a lease may have. -/
theorem restart_goes_on_from_checkpoint (opts : OtOptions) (nodeID : String) (events : List ReplicaEvent) (clock : Int64 → Int)
    (now : Readings) (checks : List Checkpoint)
    (listed : checks.Perm (((Replica.new opts nodeID).run events).fsm.lm.checkpoint clock)) (id : Int64) (l : Lease)
    (found : ((Replica.new opts nodeID).run events).fsm.lm.find? id = some l) (left : 0 < l.remainingSec (clock id)) :
    let f := ((Replica.new opts nodeID).run events).fsm
    let saved := f.lm.applyCheckpoint f.store checks
    ¬ LeaseManager.Lost saved.2.backend.buckets.lease id → ∃ l', (LeaseManager.restore now saved.2).1.find? id = some l' ∧
      l'.expiry ≤ l.expiry + (now id - clock id) ∧
      (l.remainingSec (clock id) ≤ maxTTL → l.expiry + (now id - clock id) < l'.expiry + timeSecond) := by
  intro f saved kept
  have backed : saved.1.Backed saved.2.backend.buckets.lease :=
    LeaseManager.Backed.ledger.applyCheckpoint checks (Replica.run_backed opts nodeID events)
  have orderly : saved.2.Orderly := (Replica.run_orderly opts nodeID events).same
    (LeaseManager.applyCheckpoint_store KvStore.SameKv.persist_trans (.refl _) checks f.lm)
  have member : ⟨id,l.remainingSec (clock id)⟩ ∈ checks := by
    refine listed.mem_iff.mpr (List.mem_filterMap.mpr ⟨(leaseBucketKey id,l),SortedMap.mem_entries.mpr found,?_⟩)
    simp [LeaseManager.id_of_find found,left]
  have after := LeaseManager.find_applyCheckpoint f.store ((listed.map _).nodup_iff.mpr (f.lm.checkpoint_distinct clock)) member left found
  have nonzero : id ≠ 0 := by
    rintro rfl
    cases backed.nonzero.symm.trans after
  obtain ⟨l',there,is⟩ := Option.map_eq_some_iff.mp ((LeaseManager.find_restore now backed.filed orderly).mpr
    ⟨nonzero,kept,_,backed.records id _ after,left,rfl⟩)
  have expiry : l'.expiry = now id + min (l.remainingSec (clock id)) maxTTL * timeSecond := congrArg Lease.expiry is
  have ahead : 0 ≤ l.expiry - clock id := by
    by_contra past
    have other : 0 ≤ (-(l.expiry - clock id)).tdiv timeSecond := Int.tdiv_nonneg (by omega) (by decide)
    rw [Int.neg_tdiv] at other
    unfold Lease.remainingSec at left
    omega
  refine ⟨l',there,?_⟩
  rw [expiry]
  rw [Lease.remainingSec,Int.tdiv_eq_ediv_of_nonneg ahead] at left ⊢
  unfold timeSecond at left ⊢
  omega

theorem restart_goes_on_from_checkpoint_of_one :
    let events := [.apply (.plain 0) (.plain 1 (.lease (.grant 7 5)))]
    let f := ((Replica.new defaultOtOptions "a").run events).fsm
    ∃ l, (LeaseManager.restore 9000000000 (f.lm.applyCheckpoint f.store [⟨7,3⟩]).2).1.find? 7 = some l ∧ l.expiry ≤ 12500000000 := by
  intro events f
  obtain ⟨l,there,most,-⟩ := restart_goes_on_from_checkpoint defaultOtOptions "a" events (fun _ => 1500000000) 9000000000 [⟨7,3⟩]
    (by decide) 7 (Lease.new 0 7 5) rfl (by decide) fun lost => absurd lost.1 (by decide)
  exact ⟨l,there,most⟩

end Kave
