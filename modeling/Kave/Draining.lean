import Kave.Deadlines
import Kave.HeapOrder
import Kave.Replica

/-! What a drain returns: on a node where leases end only by being revoked, the heap holds one item for each lease in it, and
    a drain takes the items past their deadline, the earliest first. -/

namespace Kave

namespace LeaseManager

theorem less_eq (a b : HeapItem) : HeapItem.less a b = decide (a.expiry < b.expiry) := rfl

theorem expiry_place (i : Nat) (item : HeapItem) : (HeapItem.place i item).expiry = item.expiry := rfl

/-- The earliest deadline is at the root. -/
abbrev Ranked (lm : LeaseManager) : Prop := Heap.IsHeap HeapItem.expiry lm.heap

/-- The heap is one, every item in it is of a lease and the only one of its lease, and the map of items leads to the items
    and nowhere else. -/
structure Exact (lm : LeaseManager) : Prop where
  heaped : lm.Heaped
  ranked : lm.Ranked
  sole : lm.Sole
  known : ∀ x ∈ lm.items, (lm.find? x.2.1).isSome
  mapped : ∀ id, (lm.heapMap.find? (leaseBucketKey id)).isSome → (lm.find? id).isSome

section

variable {lm lm' : LeaseManager} {request : Request} {now : Int}

theorem Exact.new : LeaseManager.new.Exact where
  heaped := .new
  ranked c _ inside := by cases inside
  sole x inside := by cases inside
  known x inside := by cases inside
  mapped id there := by simp [LeaseManager.new] at there

theorem Exact.points (exact : lm.Exact) (id : Int64) (r : Nat) :
    lm.heapMap.find? (leaseBucketKey id) = some r ↔ ∃ e, (r,id,e) ∈ lm.items := by
  constructor
  · intro mapped
    have there := exact.mapped id (by rw [mapped]; rfl)
    rw [← isSome_deadline] at there
    obtain ⟨e,deadline⟩ := Option.isSome_iff_exists.mp there
    exact ⟨e,exact.heaped.tracked id e r deadline mapped⟩
  · rintro ⟨e,inside⟩
    exact exact.sole _ inside (exact.known _ inside)

theorem Exact.deadline (exact : lm.Exact) {r : Nat} {id : Int64} {e : Int} (inside : (r,id,e) ∈ lm.items) :
    lm.deadline? id = some e := by
  have there := exact.known _ inside
  rw [← isSome_deadline] at there
  obtain ⟨e',deadline⟩ := Option.isSome_iff_exists.mp there
  have mine := exact.heaped.tracked id e' r deadline (exact.sole _ inside (exact.known _ inside))
  obtain rfl : e = e' := congrArg (·.2.2) (exact.heaped.unique inside mine rfl)
  exact deadline

/-! ### Commands -/

theorem SameDeadlines.items_eq (same : lm.SameDeadlines lm') : lm'.items = lm.items := congrArg (List.map HeapItem.core) same.heap

theorem Exact.sameDeadlines (exact : lm.Exact) (same : lm.SameDeadlines lm') : lm'.Exact := by
  refine ⟨exact.heaped.sameDeadlines same,?_,?_,?_,?_⟩
  · rw [Ranked,same.heap]
    exact exact.ranked
  · intro x inside there
    rw [same.items_eq] at inside
    rw [same.isSome_find] at there
    rw [same.heapMap]
    exact exact.sole x inside there
  · intro x inside
    rw [same.items_eq] at inside
    rw [same.isSome_find]
    exact exact.known x inside
  · intro id there
    rw [same.heapMap] at there
    rw [same.isSome_find]
    exact exact.mapped id there

theorem Exact.clear_grant (exact : lm.Exact) {id : Int64} (new : lm.find? id = none) (ttl : Int) :
    lm.clear (.lease (.grant id ttl)) = true := by
  have none : ∀ item ∈ lm.heap, item.lease ≠ id := by
    intro item inside same
    have there := exact.known item.core (List.mem_map_of_mem inside)
    change (lm.find? item.lease).isSome = true at there
    rw [same,new] at there
    cases there
  simpa [clear,new] using Or.inr none

theorem heap_updateHeap (heap : lm'.heap = lm.heap) (heapMap : lm'.heapMap = lm.heapMap) (id : Int64) (t : Int) :
    (lm'.updateHeap id t).heap = (lm.updateHeap id t).heap := by
  have same : lm'.heapItem? id = lm.heapItem? id := by rw [heapItem?,heapItem?,heap,heapMap]
  rw [updateHeap,updateHeap,same,heap]
  cases lm.heapItem? id with
  | none => exact heap
  | some item => rfl

theorem heap_removeFromHeap (heap : lm'.heap = lm.heap) (heapMap : lm'.heapMap = lm.heapMap) (id : Int64) :
    (lm'.removeFromHeap id).heap = (lm.removeFromHeap id).heap ∧
      (lm'.removeFromHeap id).heapMap = (lm.removeFromHeap id).heapMap := by
  have same : lm'.heapItem? id = lm.heapItem? id := by rw [heapItem?,heapItem?,heap,heapMap]
  rw [removeFromHeap,removeFromHeap,same,heap,heapMap]
  cases lm.heapItem? id with
  | none => exact ⟨heap,heapMap⟩
  | some item => exact ⟨rfl,rfl⟩

theorem ranked_updateHeap (heaped : lm.Heaped) (ranked : lm.Ranked) (id : Int64) (t : Int) : (lm.updateHeap id t).Ranked := by
  rcases heapItem_spec lm id with ⟨none,-⟩ | ⟨item,points,inside,-⟩
  · rw [updateHeap,none]
    exact ranked
  · rw [updateHeap,points]
    have at_ := heaped.placed.getElem inside
    obtain ⟨bound,-⟩ := List.getElem?_eq_some_iff.mp at_
    refine Heap.isHeap_fix expiry_place less_eq ranked bound (by simp) fun c other => ?_
    -- the other positions hold other items, whose deadlines stay
    simp only [Heap.keys,List.getElem?_map]
    cases there : lm.heap[c]? with
    | none => rfl
    | some x =>
      have different : x.ref ≠ item.ref := by
        intro same
        have refs : (lm.heap.map (·.ref)).Nodup := by simpa [items,HeapItem.core,Function.comp_def] using heaped.refs
        obtain ⟨bound,-⟩ := List.getElem?_eq_some_iff.mp there
        refine other ((List.getElem?_inj (by simpa using bound) refs).mp ?_)
        rw [List.getElem?_map,List.getElem?_map,there,at_,Option.map_some,Option.map_some,same]
      simp [different]

theorem ranked_removeFromHeap (heaped : lm.Heaped) (ranked : lm.Ranked) (id : Int64) : (lm.removeFromHeap id).Ranked := by
  rcases heapItem_spec lm id with ⟨none,-⟩ | ⟨item,points,inside,-⟩
  · rw [removeFromHeap,none]
    exact ranked
  · rw [removeFromHeap,points]
    obtain ⟨bound,-⟩ := List.getElem?_eq_some_iff.mp (heaped.placed.getElem inside)
    exact Heap.isHeap_remove expiry_place less_eq ranked bound

theorem Exact.mem_removed (exact : lm.Exact) {id : Int64} {x : Nat × Int64 × Int} (inside : x ∈ (lm.removeFromHeap id).items) :
    x ∈ lm.items ∧ x.2.1 ≠ id := by
  have old := mem_removeFromHeap exact.heaped.placed inside
  refine ⟨old,fun same => ?_⟩
  subst same
  have mine := exact.sole x old (exact.known x old)
  rcases heapItem_spec lm x.2.1 with ⟨-,missing⟩ | ⟨item,points,there,mapped⟩
  · exact missing x.1 mine x old rfl
  · have refs := exact.heaped.refs
    rw [((items_removeFromHeap exact.heaped.placed points there).map (·.1)).nodup_iff,List.map_cons,List.nodup_cons] at refs
    rw [mine] at mapped
    exact refs.1 (List.mem_map.mpr ⟨x,inside,Option.some.inj mapped⟩)

theorem Exact.heapMap_removed (exact : lm.Exact) (id : Int64) :
    (lm.removeFromHeap id).heapMap.find? (leaseBucketKey id) = none := by
  rcases heapItem_spec lm id with ⟨none,missing⟩ | ⟨item,points,-,-⟩
  · rw [removeFromHeap,none]
    cases mapped : lm.heapMap.find? (leaseBucketKey id) with
    | none => rfl
    | some r =>
      obtain ⟨e,inside⟩ := (exact.points id r).mp mapped
      exact absurd rfl (missing r mapped _ inside)
  · rw [removeFromHeap,points]
    exact (SortedMap.find_erase _ _ _).trans (if_pos rfl)

end

end LeaseManager

/-- The command ends leases at their deadline. -/
def Request.expires : Request → Bool
  | .lease (.expire _) => true
  | _ => false

namespace LeaseManager

theorem Ticks.exact {lm lm' : LeaseManager} {request : Request} (ticks : lm.Ticks lm' request) (exact : lm.Exact)
    (unexpired : request.expires = false) : lm'.Exact := by
  have heaped := ticks.heaped exact.heaped
  cases ticks with
  | same same => exact exact.sameDeadlines same
  | @granted id ttl l named nonzero positive new after =>
    have sole := (Ticks.granted named nonzero positive new after).sole exact.heaped (exact.clear_grant new ttl) exact.sole
    subst named after
    have find : ∀ id, (((lm.save l).pushToHeap l).find? id).isSome = (decide (id = l.id) || (lm.find? id).isSome) := by
      intro id
      rw [find_pushToHeap,find_save]
      by_cases same : id = l.id <;> simp [same]
    refine ⟨heaped,Heap.isHeap_push expiry_place less_eq exact.ranked _,sole,fun x inside => ?_,fun id there => ?_⟩
    · rw [find,Bool.or_eq_true,decide_eq_true_eq]
      rcases List.mem_cons.mp ((items_pushToHeap (lm.save l) l).mem_iff.mp inside) with rfl | old
      · exact Or.inl rfl
      · exact Or.inr (exact.known x old)
    · change ((lm.heapMap.insert (leaseBucketKey l.id) lm.allocated).find? _).isSome at there
      rw [find,Bool.or_eq_true,decide_eq_true_eq]
      by_cases same : id = l.id
      · exact Or.inl same
      · rw [SortedMap.find_insert,if_neg fun other => same (leaseBucketKey_inj.mp other)] at there
        exact Or.inr (exact.mapped id there)
  | @renewed id l named old after =>
    have sole := (Ticks.renewed named old after).sole exact.heaped rfl exact.sole
    subst named after
    refine ⟨heaped,?_,sole,fun x inside => ?_,fun id there => ?_⟩
    · rw [Ranked,@heap_updateHeap lm (lm.save l) rfl rfl]
      exact ranked_updateHeap exact.heaped exact.ranked _ _
    · obtain ⟨y,member,-,lease⟩ := mem_updateHeap inside
      rw [isSome_find_renewed old,← lease]
      exact exact.known y member
    · rw [heapMap_updateHeap] at there
      rw [isSome_find_renewed old]
      exact exact.mapped id there
  | @revoked id l named old after =>
    have sole := (Ticks.revoked named old after).sole exact.heaped rfl exact.sole
    subst named after
    obtain ⟨heap,heapMap⟩ := @heap_removeFromHeap lm ((lm.save l).remove l.id) rfl rfl l.id
    refine ⟨heaped,?_,sole,fun x inside => ?_,fun id there => ?_⟩
    · rw [Ranked,heap]
      exact ranked_removeFromHeap exact.heaped exact.ranked _
    · rw [items,heap] at inside
      obtain ⟨member,other⟩ := exact.mem_removed inside
      rw [find_revoked,if_neg (by simpa using other)]
      exact exact.known x member
    · rw [heapMap] at there
      have other : id ≠ l.id := by
        rintro rfl
        rw [exact.heapMap_removed] at there
        cases there
      rw [heapMap_removeFromHeap _ other] at there
      rw [find_revoked,if_neg (by simpa using other)]
      exact exact.mapped id there
  | expired removed heap heapMap allocated => cases unexpired

/-! ### Restores -/

theorem sameDeadlines_reattachPages (kv : KvBucket) (fuel : Nat) (start : KvBucketKey) (lm : LeaseManager) :
    lm.SameDeadlines (reattachPages kv fuel start lm) := by
  induction fuel generalizing start lm with
  | zero => exact .refl lm
  | succ fuel ih =>
    rw [reattachPages]
    cases kv.ascend start fun _ => true with
    | nil => exact .refl lm
    | cons e rest =>
      have same : lm.SameDeadlines (reattach lm e.1 e.2) := by
        unfold reattach
        split
        · exact .refl lm
        · split
          · exact (SameLeases.attachKey lm _ _).sameDeadlines
          · exact .refl lm
      simp only
      split
      · exact same
      · exact same.trans (ih _ _)

theorem Exact.restore (now : Readings) (s : KvStore) : (LeaseManager.restore now s).1.Exact := by
  have granted : (regrantPages now (s.backend.buckets.lease.entries.length + 1) 0 Int64.minValue (LeaseManager.new,s)).1.Exact := by
    refine regrantPages_invariant (P := fun state => state.1.Exact) (fun state l exact => ?_) _ _ _ Exact.new
    unfold regrant
    split
    · exact exact
    next valid =>
      rw [not_or,not_le] at valid
      unfold addLease
      cases found : state.1.find? l.1 with
      | some _ => exact exact
      | none =>
        let lease := Lease.new (now l.1) l.1 (min l.2 maxTTL)
        have ticks : state.1.Ticks ((state.1.save lease).pushToHeap lease) (.lease (.grant l.1 l.2)) :=
          .granted rfl valid.2 valid.1 found rfl
        exact ticks.exact exact rfl
  exact granted.sameDeadlines (sameDeadlines_reattachPages _ _ _ _)

/-! ### Drains -/

theorem Popped.exact {now : Int} {lm lm' : LeaseManager} {x : Nat × Int64 × Int} (popped : Popped now lm lm' x)
    (ranked : lm'.Ranked) (exact : lm.Exact) : lm'.Exact := by
  refine ⟨popped.heaped exact.heaped,ranked,popped.sole exact.heaped exact.sole,fun y inside => ?_,fun id there => ?_⟩
  · rw [popped.find]
    exact exact.known y (popped.perm.mem_iff.mpr (List.mem_cons_of_mem _ inside))
  · rw [popped.find]
    refine exact.mapped id ?_
    rw [popped.heapMap,SortedMap.find_erase] at there
    split at there
    · cases there
    · exact there

/-- What a drain leaves and what it takes, the earliest first. -/
structure Drained (now : Int) (lm lm' : LeaseManager) (due : List (Nat × Int64 × Int)) : Prop where
  exact : lm'.Exact
  split : lm.items.Perm (due ++ lm'.items)
  before : ∀ x ∈ due, x.2.2 < now
  after : ∀ x ∈ lm'.items, now ≤ x.2.2
  ordered : due.Pairwise fun x y => x.2.2 ≤ y.2.2

theorem Exact.first_le {lm : LeaseManager} (exact : lm.Exact) {first : HeapItem} (at_ : lm.heap[0]? = some first)
    {x : Nat × Int64 × Int} (inside : x ∈ lm.items) : first.expiry ≤ x.2.2 := by
  obtain ⟨item,member,rfl⟩ := List.mem_map.mp inside
  exact exact.ranked.first_le at_ member

theorem Exact.drainLoop {lm : LeaseManager} (exact : lm.Exact) (now : Int) {fuel : Nat} (enough : lm.heap.length ≤ fuel) :
    ∃ due, (drainLoop now fuel lm).2 = due.map (·.2.1) ∧ Drained now lm (drainLoop now fuel lm).1 due := by
  induction fuel generalizing lm with
  | zero =>
    have empty : lm.items = [] := by
      rw [items,List.eq_nil_of_length_eq_zero (Nat.le_zero.mp enough)]
      rfl
    exact ⟨[],rfl,exact,.refl _,by simp,by simp [LeaseManager.drainLoop,empty],.nil⟩
  | succ fuel ih =>
    rcases drainLoop_step now fuel lm with ⟨stops,late⟩ | ⟨first,lm₁,at_,heap,popped,takes⟩
    · rw [stops]
      refine ⟨[],rfl,exact,.refl _,by simp,fun x inside => ?_,.nil⟩
      obtain ⟨item,member,-⟩ := List.mem_map.mp inside
      have filled : 0 < lm.heap.length := List.length_pos_of_mem member
      have at_ : lm.heap[0]? = some lm.heap[0] := List.getElem?_eq_getElem filled
      exact (late _ at_).trans (exact.first_le at_ inside)
    · have ranked : lm₁.Ranked := by
        rw [Ranked,heap]
        exact Heap.isHeap_pop expiry_place less_eq exact.ranked
      have shorter : lm₁.heap.length ≤ fuel := by
        have length := popped.perm.length_eq
        simp only [items,List.length_cons,List.length_map] at length
        omega
      obtain ⟨due,ids,drained⟩ := ih (popped.exact ranked exact) shorter
      rw [takes]
      refine ⟨first.core :: due,?_,drained.exact,?_,?_,drained.after,?_⟩
      · simp only [ids,List.map_cons]
        rfl
      · exact popped.perm.trans (List.Perm.cons _ drained.split)
      · exact List.forall_mem_cons.mpr ⟨popped.due,drained.before⟩
      · refine List.pairwise_cons.mpr ⟨fun x inside => ?_,drained.ordered⟩
        have there := drained.split.mem_iff.mpr (List.mem_append_left _ inside)
        exact exact.first_le at_ (popped.perm.mem_iff.mpr (List.mem_cons_of_mem _ there))

theorem Exact.drain {lm : LeaseManager} (exact : lm.Exact) (now : Int) : ∃ due, (lm.drainExpiredLeases now).2 = due.map (·.2.1) ∧
    Drained now lm (lm.drainExpiredLeases now).1 due := exact.drainLoop now le_rfl

theorem Drained.parts {now : Int} {lm lm' : LeaseManager} {due : List (Nat × Int64 × Int)} (drained : Drained now lm lm' due) :
    due.Perm (lm.items.filter (·.2.2 < now)) ∧ lm'.items.Perm (lm.items.filter (now ≤ ·.2.2)) := by
  have taken := drained.split.filter (·.2.2 < now)
  have left := drained.split.filter (now ≤ ·.2.2)
  rw [List.filter_append] at taken left
  have all : due.filter (·.2.2 < now) = due := by simpa using drained.before
  have none : lm'.items.filter (·.2.2 < now) = [] := by simpa using drained.after
  have all' : lm'.items.filter (now ≤ ·.2.2) = lm'.items := by simpa using drained.after
  have none' : due.filter (now ≤ ·.2.2) = [] := by simpa using drained.before
  rw [all,none,List.append_nil] at taken
  rw [none',all',List.nil_append] at left
  exact ⟨taken.symm,left.symm⟩

end LeaseManager

/-! ### Runs of a node -/

/-- What happens to the leases of one node: the steps of a replica, a `Restore` of the lease manager, a drain. -/
inductive LeaseEvent
  | replica (event : ReplicaEvent)
  | restore (now : Readings)
  | drain (now : Int)

namespace LeaseEvent

/-- The event is a command that ends leases at their deadline. -/
def expires : LeaseEvent → Bool
  | .replica (.apply _ log) => log.request?.any Request.expires
  | _ => false

end LeaseEvent

namespace Replica

def leaseStep (r : Replica) : LeaseEvent → Replica
  | .replica event => r.step event
  | .restore now =>
    let restored := LeaseManager.restore now r.fsm.store
    { r with fsm := { r.fsm with lm := restored.1, store := restored.2 } }
  | .drain now => { r with fsm := { r.fsm with lm := (r.fsm.lm.drainExpiredLeases now).1 } }

def leaseRun (r : Replica) (events : List LeaseEvent) : Replica := events.foldl leaseStep r

theorem leaseStep_orderly {r : Replica} (orderly : r.fsm.store.Orderly) (event : LeaseEvent) : (r.leaseStep event).fsm.store.Orderly := by
  cases event with
  | replica event => exact r.step_orderly event orderly
  | restore now => exact orderly.same (KvStore.SameKv.restoreLeases now _)
  | drain now => exact orderly

theorem leaseStep_exact {r : Replica} (orderly : r.fsm.store.Orderly) {event : LeaseEvent} (unexpired : event.expires = false)
    (exact : r.fsm.lm.Exact) : (r.leaseStep event).fsm.lm.Exact := by
  cases event with
  | replica event =>
    cases event with
    | apply env log =>
      rcases Fsm.apply_ticks orderly env log with same | ⟨request,is,-,ticks⟩
      · change (r.fsm.apply env log).1.lm.Exact
        rw [same]
        exact exact
      · refine ticks.exact exact ?_
        simpa [LeaseEvent.expires,is] using unexpired
    | advance i => exact exact
    | restart now => exact LeaseManager.Exact.restore now _
  | restore now => exact LeaseManager.Exact.restore now _
  | drain now =>
    obtain ⟨due,-,drained⟩ := exact.drain now
    exact drained.exact

theorem leaseRun_exact (opts : OtOptions) (nodeID : String) {events : List LeaseEvent}
    (unexpired : ∀ event ∈ events, event.expires = false) : ((new opts nodeID).leaseRun events).fsm.lm.Exact := by
  have general : ∀ (events : List LeaseEvent) (r : Replica), (∀ event ∈ events, event.expires = false) →
      r.fsm.store.Orderly → r.fsm.lm.Exact → (r.leaseRun events).fsm.lm.Exact := by
    intro events
    induction events with
    | nil => exact fun r _ _ exact => exact
    | cons event rest ih =>
      intro r unexpired orderly exact
      rw [List.forall_mem_cons] at unexpired
      exact ih _ unexpired.2 (leaseStep_orderly orderly event) (leaseStep_exact orderly unexpired.1 exact)
  exact general events _ unexpired KvStore.Orderly.new .new

end Replica

/-- In every run without an expiry, the items know their positions, the map of items leads to the one item of each lease in
    the heap, and a drain returns the leases in the heap that are past their deadline, the earliest first, and leaves the
    others. -/
theorem drain_returns_expired_in_order (opts : OtOptions) (nodeID : String) (events : List LeaseEvent)
    (unexpired : ∀ event ∈ events, event.expires = false) (now : Int) :
    let lm := ((Replica.new opts nodeID).leaseRun events).fsm.lm
    let drained := lm.drainExpiredLeases now
    (∀ (i : Nat) (item : HeapItem), lm.heap[i]? = some item → item.index = i) ∧
    (∀ id r, lm.heapMap.find? (leaseBucketKey id) = some r ↔ ∃ item ∈ lm.heap, item.ref = r ∧ item.lease = id) ∧
    (∀ item ∈ lm.heap, lm.deadline? item.lease = some item.expiry) ∧
    ∃ due : List (Nat × Int64 × Int), drained.2 = due.map (·.2.1) ∧ due.Perm (lm.items.filter (·.2.2 < now)) ∧
      due.Pairwise (fun x y => x.2.2 ≤ y.2.2) ∧ drained.1.items.Perm (lm.items.filter (now ≤ ·.2.2)) := by
  intro lm drained
  have exact : lm.Exact := Replica.leaseRun_exact opts nodeID unexpired
  refine ⟨exact.heaped.placed,fun id r => ?_,fun item inside => ?_,?_⟩
  · rw [exact.points]
    constructor
    · rintro ⟨e,inside⟩
      obtain ⟨item,member,same⟩ := List.mem_map.mp inside
      exact ⟨item,member,congrArg (·.1) same,congrArg (·.2.1) same⟩
    · rintro ⟨item,member,rfl,rfl⟩
      exact ⟨item.expiry,List.mem_map_of_mem member⟩
  · exact exact.deadline (List.mem_map_of_mem inside)
  · obtain ⟨due,ids,run⟩ := exact.drain now
    exact ⟨due,ids,run.parts.1,run.ordered,run.parts.2⟩

/-- Of four leases one is renewed and one revoked; a drain then takes the two that are due. -/
theorem drain_returns_expired_granted :
    let env : Int → Env := fun now => ⟨now,0,id,fun _ => .refl _⟩
    let grant : Nat → Int64 → Int → LeaseEvent := fun index id ttl =>
      .replica (.apply (env 0) (.plain index (.lease (.grant id ttl))))
    let events : List LeaseEvent := [grant 1 3 3,grant 2 1 1,grant 3 2 2,grant 4 4 1,
      .replica (.apply (env 5) (.plain 5 (.lease (.keepAlive 1)))),.replica (.apply (env 5) (.plain 6 (.lease (.revoke 4))))]
    let lm := ((Replica.new defaultOtOptions "n").leaseRun events).fsm.lm
    let drained := lm.drainExpiredLeases 3000000000
    (∀ event ∈ events, event.expires = false) ∧ drained.2 = [1,2] ∧ drained.1.items.map (·.2.1) = [3] ∧
      ∃ due : List (Nat × Int64 × Int), drained.2 = due.map (·.2.1) ∧ due.Pairwise (fun x y => x.2.2 ≤ y.2.2) := by
  intro env grant events lm drained
  have unexpired : ∀ event ∈ events, event.expires = false := by decide
  obtain ⟨-,-,-,due,ids,-,ordered,-⟩ := drain_returns_expired_in_order defaultOtOptions "n" events unexpired 3000000000
  exact ⟨unexpired,by decide,by decide,due,ids,ordered⟩

end Kave
