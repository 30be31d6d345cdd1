import Kave.Abort
import Kave.KeySets

/-! `Grant` and `Revoke` on a storage that may refuse: what is left of a call that returns an error or panics. -/

namespace Kave

/-- What the storage refuses during a call: the put of the tombstone of a key, the commit that saves a lease or deletes the
    keys of one, and the commit that removes the record of a lease. -/
structure Faults where
  put : Bytes → Bool
  commit : Bool
  remove : Bool
  /-- Whether `Rollback` panics after a refused commit, as it does with the repository's backend: the batch is gone. -/
  panics : Bool

def Faults.none : Faults := ⟨fun _ => false,false,false,false⟩

/-- How a call ends. -/
inductive Ending (α : Type)
  | returns (result : α)
  | panics
deriving DecidableEq, Repr

/-- The end of a call after a refused commit, which is rolled back. -/
def Faults.rollback {α : Type} (faults : Faults) (result : α) : Ending α := if faults.panics then .panics else .returns result

/-- Why a call fails. -/
inductive LeaseFailure
  | refused (cause : LeaseError)
  /-- A put the storage refuses. -/
  | put
  /-- A commit the storage refuses. -/
  | commit
deriving DecidableEq, Repr

namespace Writer

/-- The loop of `deleteRange`; a refused put comes before the index is changed. -/
def deleteKeysUnder (faults : Faults) : List Bytes → Writer → Writer × Option LeaseFailure
  | [], w => (w,none)
  | key :: rest, w =>
    if faults.put key then ({ w with deletedKeys := w.deletedKeys + 1 },some .put)
    else
      match w.deleteKey key with
      | (w,some e) => (w,some (.refused (.delete e)))
      | (w,none) => deleteKeysUnder faults rest w

def deleteKeyUnder (faults : Faults) (w : Writer) (key : Bytes) : Writer × Option LeaseFailure :=
  let startRev := if w.changes.length > 0 then w.startRev.main + 1 else w.startRev.main
  deleteKeysUnder faults ((w.store.kvIndex.range key none startRev).map (·.1)) w

/-- The loop of `Revoke` over the attached keys. -/
def revokeKeys (faults : Faults) : List Bytes → Writer → Writer × Option LeaseFailure
  | [], w => (w,none)
  | key :: rest, w =>
    match w.deleteKeyUnder faults key with
    | (w,some e) => (w,some e)
    | (w,none) => revokeKeys faults rest w

/-- What `Abort` leaves after an `End` whose commit failed. -/
def abortFailed (w : Writer) : KvStore := { w with store := w.endTxFailed }.abort

end Writer

namespace LeaseManager

/-- `Grant`: the lease is in the map and the heap before it is persisted. -/
def grantUnder (faults : Faults) (env : Env) (lm : LeaseManager) (s : KvStore) (id : Int64) (ttl : Int) :
    (LeaseManager × KvStore) × Ending (Except LeaseFailure Lease) :=
  if id = 0 then ((lm,s),.returns (.error (.refused .idZero)))
  else if ttl ≤ 0 then ((lm,s),.returns (.error (.refused .invalidTTL)))
  else
    let lease := Lease.new env.now id (min ttl maxTTL)
    match lm.find? id with
    | some _ => ((lm,s),.returns (.error (.refused .idConflict)))
    | none =>
      let lm := (lm.save lease).pushToHeap lease
      if faults.commit then ((lm,s),faults.rollback (.error .commit)) else ((lm,persist s lease),.returns (.ok lease))

/-- What `Revoke` returns. -/
structure Revoked where
  found : Bool
  revoked : Bool
  err : Option LeaseFailure
deriving DecidableEq, Repr

/-- The end of `Revoke`; a removal the storage refuses is only logged. -/
def dropUnder (faults : Faults) (lm : LeaseManager) (s : KvStore) (id : Int64) : (LeaseManager × KvStore) × Ending Revoked :=
  let lm := (lm.remove id).removeFromHeap id
  if faults.remove then ((lm,s),faults.rollback ⟨true,true,none⟩) else ((lm,removeFromBackend s [id]),.returns ⟨true,true,none⟩)

/-- `Revoke`: the key set is emptied before its keys are deleted. -/
def revokeUnder (faults : Faults) (env : Env) (lm : LeaseManager) (s : KvStore) (id : Int64) :
    (LeaseManager × KvStore) × Ending Revoked :=
  match lm.find? id with
  | none => ((lm,s),.returns ⟨false,false,some (.refused .notFound)⟩)
  | some lease =>
    let toDelete := env.order lease.keySet.keys
    let lm := lm.save { lease with keySet := SortedMap.empty }
    if toDelete = [] then dropUnder faults lm s id
    else
      match Writer.revokeKeys faults toDelete s.newWriter with
      | (w,some e) => ((lm,w.abort),.returns ⟨true,false,some e⟩)
      | (w,none) =>
        if faults.commit then ((lm,w.abortFailed),faults.rollback ⟨false,false,some .commit⟩)
        else dropUnder faults lm w.endTx id

end LeaseManager

/-! ### Without faults -/

theorem Writer.deleteKeysUnder_none (keys : List Bytes) (w : Writer) : deleteKeysUnder .none keys w =
    ((deleteKeys keys w).1,(deleteKeys keys w).2.map fun e => .refused (.delete e)) := by
  induction keys generalizing w with
  | nil => rfl
  | cons key rest ih =>
    rw [deleteKeysUnder,deleteKeys,if_neg (by simp [Faults.none])]
    generalize w.deleteKey key = run
    obtain ⟨w',e⟩ := run
    cases e with
    | some e => rfl
    | none => exact ih w'

theorem Writer.revokeKeys_none (keys : List Bytes) (w : Writer) : revokeKeys .none keys w =
    ((runOps (keys.map .deleteKey) w).1,(runOps (keys.map .deleteKey) w).2.map fun e => .refused (.delete e)) := by
  induction keys generalizing w with
  | nil => rfl
  | cons key rest ih =>
    have step : w.deleteKeyUnder .none key =
        ((w.runOp (.deleteKey key)).1,(w.runOp (.deleteKey key)).2.map fun e => .refused (.delete e)) :=
      deleteKeysUnder_none _ w
    rw [revokeKeys,List.map_cons,runOps,step]
    generalize w.runOp (.deleteKey key) = run
    obtain ⟨w',e⟩ := run
    cases e with
    | some e => rfl
    | none => exact ih w'

namespace LeaseManager

/-- On a storage that refuses nothing, the calls are those of the state machine. -/
theorem grantUnder_none (env : Env) (lm : LeaseManager) (s : KvStore) (id : Int64) (ttl : Int) :
    grantUnder .none env lm s id ttl = ((grant env lm s id ttl).1,.returns ((grant env lm s id ttl).2.mapError .refused)) := by
  unfold grantUnder grant addLease
  split
  · rfl
  · split
    · rfl
    · cases lm.find? id with
      | some _ => rfl
      | none => rfl

/-- The result without what goes with an error. -/
def Revoked.outcome (r : Revoked) : Except LeaseFailure (Bool × Bool) :=
  match r.err with
  | none => .ok (r.found,r.revoked)
  | some e => .error e

theorem revokeUnder_none (env : Env) (lm : LeaseManager) (s : KvStore) (id : Int64) :
    (revokeUnder .none env lm s id).1 = (revoke env lm s id).1 ∧
      ∃ r, (revokeUnder .none env lm s id).2 = .returns r ∧ r.outcome = (revoke env lm s id).2.mapError .refused := by
  unfold revokeUnder revoke
  cases lm.find? id with
  | none => exact ⟨rfl,_,rfl,rfl⟩
  | some lease =>
    simp only
    split
    · exact ⟨rfl,_,rfl,rfl⟩
    · rw [Writer.revokeKeys_none]
      generalize Writer.runOps ((env.order lease.keySet.keys).map .deleteKey) s.newWriter = run
      obtain ⟨w,e⟩ := run
      cases e <;> exact ⟨rfl,_,rfl,rfl⟩

/-! ### What a call leaves -/

/-- The leases with their key sets, the heap, the map into it and the current revision are those from before. -/
structure Unchanged (lm : LeaseManager) (s : KvStore) (after : LeaseManager × KvStore) : Prop where
  leases : ∀ id, after.1.find? id = lm.find? id
  heap : after.1.heap = lm.heap
  heapMap : after.1.heapMap = lm.heapMap
  currentRev : after.2.currentRev = s.currentRev

theorem Unchanged.refl (lm : LeaseManager) (s : KvStore) : Unchanged lm s (lm,s) := ⟨fun _ => rfl,rfl,rfl,rfl⟩

section

variable (faults : Faults) (env : Env) (lm : LeaseManager) (s : KvStore) (id : Int64) (ttl : Int)

/-- A `Grant` changes nothing exactly if it is refused at once. -/
theorem grantUnder_unchanged_iff :
    Unchanged lm s (grantUnder faults env lm s id ttl).1 ↔ id = 0 ∨ ttl ≤ 0 ∨ (lm.find? id).isSome := by
  unfold grantUnder
  by_cases zero : id = 0
  · rw [if_pos zero]
    exact iff_of_true (.refl lm s) (Or.inl zero)
  · rw [if_neg zero]
    by_cases short : ttl ≤ 0
    · rw [if_pos short]
      exact iff_of_true (.refl lm s) (Or.inr (Or.inl short))
    · rw [if_neg short]
      cases found : lm.find? id with
      | some l => exact iff_of_true (.refl lm s) (Or.inr (Or.inr rfl))
      | none =>
        refine iff_of_false (fun same => ?_) (by simp [zero,short])
        simp only at same
        -- the lease is in the map, whether it is saved or not
        split at same <;>
          · have there := same.leases id
            rw [find_pushToHeap,find_save,if_pos (by rfl),found] at there
            cases there

theorem grantUnder_panics (panicked : (grantUnder faults env lm s id ttl).2 = .panics) : ¬(id = 0 ∨ ttl ≤ 0 ∨ (lm.find? id).isSome) := by
  intro refused
  unfold grantUnder at panicked
  split at panicked
  · cases panicked
  next zero =>
    split at panicked
    · cases panicked
    next short =>
      cases found : lm.find? id with
      | some l =>
        rw [found] at panicked
        cases panicked
      | none => simp [zero,short,found] at refused

theorem find_dropUnder : (dropUnder faults lm s id).1.1.find? id = none := by
  have gone : ((lm.remove id).removeFromHeap id).find? id = none := by rw [find_removeFromHeap,find_remove,if_pos rfl]
  unfold dropUnder
  split <;> exact gone

/-- A `Revoke` changes nothing exactly if there is no such lease. -/
theorem revokeUnder_unchanged_iff : Unchanged lm s (revokeUnder faults env lm s id).1 ↔ lm.find? id = none := by
  unfold revokeUnder
  cases found : lm.find? id with
  | none => exact iff_of_true (.refl lm s) rfl
  | some l =>
    refine iff_of_false (fun same => ?_) (by simp)
    have dropped : ∀ lm' s', ¬ Unchanged lm s (dropUnder faults lm' s' id).1 := by
      intro lm' s' same
      have there := same.leases id
      rw [find_dropUnder,found] at there
      cases there
    simp only at same
    split at same
    · exact dropped _ _ same
    next some_ =>
      -- where the lease is not dropped, the keys are gone from its set
      have emptied : ∀ s', ¬ Unchanged lm s (lm.save { l with keySet := SortedMap.empty },s') := by
        intro s' same
        have there := same.leases id
        rw [find_save,if_pos (id_of_find found).symm,found,Option.some.injEq] at there
        refine some_ (List.perm_nil.mp ?_)
        rw [← there]
        exact env.perm []
      generalize Writer.revokeKeys faults (env.order l.keySet.keys) s.newWriter = run at same
      obtain ⟨w,e⟩ := run
      cases e with
      | some e => exact emptied _ same
      | none =>
        simp only at same
        split at same
        · exact emptied _ same
        · exact dropped _ _ same

theorem revokeUnder_panics (panicked : (revokeUnder faults env lm s id).2 = .panics) : lm.find? id ≠ none := by
  intro missing
  rw [revokeUnder,missing] at panicked
  cases panicked

end

end LeaseManager

/-- A call that returns an error leaves leases, heap, key sets and current revision as they were exactly if it is refused
    before it changes anything: a `Grant` for its id or its time, a `Revoke` because there is no such lease. A call that panics
    never does. -/
theorem failed_lease_call_changes_nothing_iff (faults : Faults) (env : Env) (lm : LeaseManager) (s : KvStore) (id : Int64) (ttl : Int) :
    let granted := LeaseManager.grantUnder faults env lm s id ttl
    let revoked := LeaseManager.revokeUnder faults env lm s id
    (∀ e, granted.2 = .returns (.error e) → (LeaseManager.Unchanged lm s granted.1 ↔ id = 0 ∨ ttl ≤ 0 ∨ (lm.find? id).isSome)) ∧
    (∀ r, revoked.2 = .returns r → r.err.isSome → (LeaseManager.Unchanged lm s revoked.1 ↔ lm.find? id = none)) ∧
    (granted.2 = .panics → ¬ LeaseManager.Unchanged lm s granted.1) ∧ (revoked.2 = .panics → ¬ LeaseManager.Unchanged lm s revoked.1) := by
  intro granted revoked
  have grants := LeaseManager.grantUnder_unchanged_iff faults env lm s id ttl
  have revokes := LeaseManager.revokeUnder_unchanged_iff faults env lm s id
  exact ⟨fun _ _ => grants,fun _ _ _ => revokes,
    fun panicked same => LeaseManager.grantUnder_panics faults env lm s id ttl panicked (grants.mp same),
    fun panicked same => LeaseManager.revokeUnder_panics faults env lm s id panicked (revokes.mp same)⟩

/-- A grant of an id that exists, on a storage that refuses everything. -/
theorem failed_lease_call_changes_nothing_conflict :
    let faults : Faults := ⟨fun _ => true,true,true,true⟩
    let lm := (LeaseManager.grant (.plain 0) .new (KvStore.new Backend.empty) 7 10).1.1
    let granted := LeaseManager.grantUnder faults (.plain 5) lm (KvStore.new Backend.empty) 7 10
    granted.2 = .returns (.error (.refused .idConflict)) ∧ LeaseManager.Unchanged lm (KvStore.new Backend.empty) granted.1 := by
  intro faults lm granted
  have conflict : granted.2 = .returns (.error (.refused .idConflict)) := by rfl
  exact ⟨conflict,((failed_lease_call_changes_nothing_iff faults (.plain 5) lm (KvStore.new Backend.empty) 7 10).1 _ conflict).mpr
    (Or.inr (Or.inr rfl))⟩

/-- A grant whose commit fails stays in the map and the heap, so that a second attempt finds its id taken. A revocation that
    cannot delete a key, or whose commit fails, has emptied the key set, so that a second attempt leaves the key alive; the failed
    commit has also used up a revision. With the repository's backend both failed commits panic and leave the same. -/
theorem failed_lease_calls_leave_traces :
    let refuses (panics : Bool) : Faults := ⟨fun _ => false,true,false,panics⟩
    let granted := fun panics => LeaseManager.grantUnder (refuses panics) (.plain 0) .new (KvStore.new Backend.empty) 7 10
    let f := (Fsm.new defaultOtOptions "a").applyAll
      [(.plain 0,.plain 1 (.lease (.grant 7 10))),(.plain 0,.plain 2 (.kv (.put (.plain [97] [1] 7))))]
    let revoked := fun faults => LeaseManager.revokeUnder faults (.plain 0) f.lm f.store 7
    let again := fun faults => LeaseManager.revokeUnder .none (.plain 0) (revoked faults).1.1 (revoked faults).1.2 7
    let undeleted : Faults := ⟨fun key => key = [97],false,false,true⟩
    (granted false).2 = .returns (.error .commit) ∧ (granted true).2 = .panics ∧
    (∀ panics, ((granted panics).1.1.find? 7).isSome ∧ (granted panics).1.1.heap.length = 1 ∧
      (LeaseManager.grant (.plain 0) (granted panics).1.1 (granted panics).1.2 7 10).2.toOption = none) ∧
    (revoked undeleted).2 = .returns ⟨true,false,some .put⟩ ∧ (revoked (refuses false)).2 = .returns ⟨false,false,some .commit⟩ ∧
    (revoked (refuses true)).2 = .panics ∧ f.lm.attached 7 [97] = true ∧ f.store.currentRev.main = 1 ∧
    (revoked undeleted).1.2.currentRev.main = 1 ∧ (∀ panics, (revoked (refuses panics)).1.2.currentRev.main = 2) ∧
    ∀ faults ∈ [undeleted,refuses false,refuses true], (revoked faults).1.1.attached 7 [97] = false ∧
      (again faults).2 = .returns ⟨true,true,none⟩ ∧ ((again faults).1.2.entryOf [97]).isSome :=
  ⟨rfl,rfl,by decide⟩

end Kave
