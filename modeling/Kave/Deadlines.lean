import Kave.Attachment

/-! The heap of deadlines beside the lease map: what a command and a drain do to both, and what holds of them in every
    run. -/

namespace Kave

/-- An item of the heap without its position. -/
def HeapItem.core (item : HeapItem) : Nat × Int64 × Int := (item.ref,item.lease,item.expiry)

theorem HeapItem.core_place (i : Nat) (item : HeapItem) : (place i item).core = item.core := rfl

theorem HeapItem.index_place (i : Nat) (item : HeapItem) : (place i item).index = i := rfl

namespace LeaseManager

/-- The items of the heap: which item, of which lease, with which deadline. -/
def items (lm : LeaseManager) : List (Nat × Int64 × Int) := lm.heap.map HeapItem.core

def deadline? (lm : LeaseManager) (id : Int64) : Option Int := (lm.find? id).map (·.expiry)

theorem isSome_deadline (lm : LeaseManager) (id : Int64) : (lm.deadline? id).isSome = (lm.find? id).isSome := Option.isSome_map

/-- The managers have the same leases with the same deadlines, and the same heap. -/
structure SameDeadlines (lm lm' : LeaseManager) : Prop where
  deadlines : ∀ id, lm'.deadline? id = lm.deadline? id
  heap : lm'.heap = lm.heap
  heapMap : lm'.heapMap = lm.heapMap
  allocated : lm'.allocated = lm.allocated

theorem SameDeadlines.refl (lm : LeaseManager) : lm.SameDeadlines lm := ⟨fun _ => rfl,rfl,rfl,rfl⟩

theorem SameDeadlines.trans {a b c : LeaseManager} (first : a.SameDeadlines b) (second : b.SameDeadlines c) : a.SameDeadlines c where
  deadlines id := (second.deadlines id).trans (first.deadlines id)
  heap := second.heap.trans first.heap
  heapMap := second.heapMap.trans first.heapMap
  allocated := second.allocated.trans first.allocated

theorem SameLeases.sameDeadlines {lm lm' : LeaseManager} (same : lm.SameLeases lm') : lm.SameDeadlines lm' where
  deadlines id := by
    have expiry : ∀ lm : LeaseManager, lm.deadline? id = ((lm.find? id).map Lease.bare).map (·.expiry) := by
      intro lm
      rw [Option.map_map]
      rfl
    rw [expiry,expiry,same.leases]
  heap := same.heap
  heapMap := same.heapMap
  allocated := same.allocated

theorem deadline_save (lm : LeaseManager) (l : Lease) (id : Int64) :
    (lm.save l).deadline? id = if id = l.id then some l.expiry else lm.deadline? id := by
  rw [deadline?,find_save]
  split <;> rfl

/-! ### The heap and the map into it -/

/-- The items know their positions and differ from each other, and where the map of items has an entry for a lease it is
    the item of the lease, with its deadline. -/
structure Heaped (lm : LeaseManager) : Prop where
  placed : Heap.Placed HeapItem.index lm.heap
  refs : (lm.items.map (·.1)).Nodup
  fresh : ∀ x ∈ lm.items, x.1 < lm.allocated
  tracked : ∀ id e r, lm.deadline? id = some e → lm.heapMap.find? (leaseBucketKey id) = some r → (r,id,e) ∈ lm.items

theorem Heaped.new : LeaseManager.new.Heaped where
  placed i a at_ := by simp [LeaseManager.new] at at_
  refs := List.nodup_nil
  fresh x inside := by cases inside
  tracked id e r found := by cases found

section

variable {lm lm' : LeaseManager}

theorem Heaped.unique (heaped : lm.Heaped) {x y : Nat × Int64 × Int} (inX : x ∈ lm.items) (inY : y ∈ lm.items) (same : x.1 = y.1) :
    x = y := List.inj_on_of_nodup_map heaped.refs inX inY same

theorem Heaped.sameDeadlines (heaped : lm.Heaped) (same : lm.SameDeadlines lm') : lm'.Heaped := by
  have items : lm'.items = lm.items := congrArg (List.map HeapItem.core) same.heap
  refine ⟨?_,?_,?_,?_⟩
  · rw [same.heap]
    exact heaped.placed
  · rw [items]
    exact heaped.refs
  · rw [items,same.allocated]
    exact heaped.fresh
  · intro id e r
    rw [items,same.deadlines,same.heapMap]
    exact heaped.tracked id e r

theorem items_pushToHeap (lm : LeaseManager) (l : Lease) :
    (lm.pushToHeap l).items.Perm ((lm.allocated,l.id,l.expiry) :: lm.items) :=
  Heap.map_push_perm HeapItem.core_place lm.heap _

/-- A grant adds its item, and the map of items points to it. -/
theorem Heaped.granted (heaped : lm.Heaped) (l : Lease) : ((lm.save l).pushToHeap l).Heaped := by
  have perm := items_pushToHeap (lm.save l) l
  refine ⟨Heap.placed_push HeapItem.index_place heaped.placed _,?_,?_,?_⟩
  · rw [(perm.map (·.1)).nodup_iff,List.map_cons,List.nodup_cons]
    refine ⟨fun inside => ?_,heaped.refs⟩
    obtain ⟨x,member,same⟩ := List.mem_map.mp inside
    exact absurd (heaped.fresh x member) (by rw [same]; exact lt_irrefl _)
  · intro x inside
    change x.1 < lm.allocated + 1
    rcases List.mem_cons.mp (perm.mem_iff.mp inside) with rfl | old
    · exact Nat.lt_succ_self _
    · exact (heaped.fresh x old).trans (Nat.lt_succ_self _)
  · intro id e r found mapped
    change (lm.save l).deadline? id = some e at found
    change (lm.heapMap.insert (leaseBucketKey l.id) lm.allocated).find? _ = some r at mapped
    rw [deadline_save] at found
    simp only [SortedMap.find_insert,leaseBucketKey_inj] at mapped
    rw [perm.mem_iff,List.mem_cons]
    by_cases same : id = l.id
    · rw [if_pos same] at found mapped
      cases found
      cases mapped
      rw [same]
      exact Or.inl rfl
    · rw [if_neg same] at found mapped
      exact Or.inr (heaped.tracked id e r found mapped)

theorem heapItem_spec (lm : LeaseManager) (id : Int64) :
    (lm.heapItem? id = none ∧ ∀ r, lm.heapMap.find? (leaseBucketKey id) = some r → ∀ x ∈ lm.items, x.1 ≠ r) ∨
    ∃ item, lm.heapItem? id = some item ∧ item ∈ lm.heap ∧ lm.heapMap.find? (leaseBucketKey id) = some item.ref := by
  unfold heapItem?
  cases mapped : lm.heapMap.find? (leaseBucketKey id) with
  | none => exact Or.inl ⟨rfl,fun r same => by cases same⟩
  | some ref =>
    rw [Option.bind_some]
    cases found : lm.heap.find? (·.ref = ref) with
    | none =>
      refine Or.inl ⟨rfl,fun r same x inside other => ?_⟩
      cases same
      obtain ⟨item,member,rfl⟩ := List.mem_map.mp inside
      exact List.find?_eq_none.mp found item member (decide_eq_true other)
    | some item =>
      have same : item.ref = ref := of_decide_eq_true (List.find?_some found :)
      exact Or.inr ⟨item,rfl,List.mem_of_find?_eq_some found,by rw [same]⟩

/-- The item with its new deadline, if it is the one. -/
def retimed (ref : Nat) (t : Int) (x : Nat × Int64 × Int) : Nat × Int64 × Int := if x.1 = ref then (x.1,x.2.1,t) else x

theorem retimed_ref (ref : Nat) (t : Int) (x : Nat × Int64 × Int) : (retimed ref t x).1 = x.1 := by
  by_cases here : x.1 = ref <;> simp [retimed,here]

theorem retimed_lease (ref : Nat) (t : Int) (x : Nat × Int64 × Int) : (retimed ref t x).2.1 = x.2.1 := by
  by_cases here : x.1 = ref <;> simp [retimed,here]

theorem items_updateHeap {id : Int64} {item : HeapItem} (points : lm.heapItem? id = some item) (t : Int) :
    (lm.updateHeap id t).items.Perm (lm.items.map (retimed item.ref t)) := by
  rw [updateHeap,points]
  refine (Heap.map_fix_perm HeapItem.core_place _ _).trans (List.Perm.of_eq ?_)
  rw [items,List.map_map,List.map_map]
  refine List.map_congr_left fun x _ => ?_
  by_cases here : x.ref = item.ref <;> simp [retimed,HeapItem.core,here]

theorem placed_updateHeap (placed : Heap.Placed HeapItem.index lm.heap) (id : Int64) (t : Int) :
    Heap.Placed HeapItem.index (lm.updateHeap id t).heap := by
  rw [updateHeap]
  split
  · exact placed
  next item points =>
    refine Heap.placed_fix HeapItem.index_place (fun i x at_ => ?_) _
    rw [List.getElem?_map] at at_
    obtain ⟨y,there,rfl⟩ := Option.map_eq_some_iff.mp at_
    rw [← placed i y there]
    by_cases here : y.ref = item.ref <;> simp [here]

theorem heapMap_updateHeap (lm : LeaseManager) (id : Int64) (t : Int) : (lm.updateHeap id t).heapMap = lm.heapMap := by
  rw [updateHeap]
  split <;> rfl

theorem allocated_updateHeap (lm : LeaseManager) (id : Int64) (t : Int) : (lm.updateHeap id t).allocated = lm.allocated := by
  rw [updateHeap]
  split <;> rfl

theorem mem_updateHeap {id : Int64} {t : Int} {y : Nat × Int64 × Int} (inside : y ∈ (lm.updateHeap id t).items) :
    ∃ x ∈ lm.items, x.1 = y.1 ∧ x.2.1 = y.2.1 := by
  cases points : lm.heapItem? id with
  | none =>
    rw [updateHeap,points] at inside
    exact ⟨y,inside,rfl,rfl⟩
  | some item =>
    obtain ⟨x,there,rfl⟩ := List.mem_map.mp ((items_updateHeap points t).mem_iff.mp inside)
    exact ⟨x,there,(retimed_ref _ _ _).symm,(retimed_lease _ _ _).symm⟩

/-- A renewal moves the item of its lease. -/
theorem Heaped.renewed (heaped : lm.Heaped) {l : Lease} (old : (lm.find? l.id).isSome) :
    ((lm.save l).updateHeap l.id l.expiry).Heaped := by
  obtain ⟨before,known⟩ := Option.isSome_iff_exists.mp ((isSome_deadline lm l.id).trans old)
  rcases heapItem_spec (lm.save l) l.id with ⟨none,missing⟩ | ⟨item,points,inside,mapped⟩
  · rw [updateHeap,none]
    refine ⟨heaped.placed,heaped.refs,heaped.fresh,fun id e r found mapped => ?_⟩
    rw [deadline_save] at found
    by_cases same : id = l.id
    · subst same
      exact absurd rfl (missing r mapped _ (heaped.tracked _ before r known mapped))
    · rw [if_neg same] at found
      exact heaped.tracked id e r found mapped
  · have placed : Heap.Placed HeapItem.index (lm.save l).heap := heaped.placed
    have perm := items_updateHeap points l.expiry
    have refs : (fun x => x.1) ∘ retimed item.ref l.expiry = fun x => x.1 := funext (retimed_ref item.ref l.expiry)
    have mine : (item.ref,l.id,before) ∈ lm.items := heaped.tracked l.id before item.ref known mapped
    refine ⟨placed_updateHeap placed _ _,?_,fun x inside => ?_,fun id e r found mapped' => ?_⟩
    · rw [(perm.map (·.1)).nodup_iff,List.map_map,refs]
      exact heaped.refs
    · obtain ⟨y,there,same,-⟩ := mem_updateHeap inside
      rw [allocated_updateHeap,← same]
      exact heaped.fresh y there
    · rw [heapMap_updateHeap] at mapped'
      rw [deadline?,find_updateHeap,← deadline?,deadline_save] at found
      rw [perm.mem_iff]
      by_cases same : id = l.id
      · subst same
        rw [if_pos rfl] at found
        cases found
        obtain rfl : item.ref = r := Option.some.inj (mapped.symm.trans mapped')
        exact List.mem_map.mpr ⟨_,mine,if_pos rfl⟩
      · rw [if_neg same] at found
        have there := heaped.tracked id e r found mapped'
        refine List.mem_map.mpr ⟨_,there,if_neg fun other => same ?_⟩
        exact congrArg (·.2.1) (heaped.unique there mine other)

theorem Heaped.shrunk (heaped : lm.Heaped) (fewer : ∀ id e, lm'.deadline? id = some e → lm.deadline? id = some e)
    (heap : lm'.heap = lm.heap) (heapMap : lm'.heapMap = lm.heapMap) (allocated : lm'.allocated = lm.allocated) : lm'.Heaped := by
  have items : lm'.items = lm.items := congrArg (List.map HeapItem.core) heap
  refine ⟨?_,?_,?_,?_⟩
  · rw [heap]
    exact heaped.placed
  · rw [items]
    exact heaped.refs
  · rw [items,allocated]
    exact heaped.fresh
  · intro id e r found
    rw [items,heapMap]
    exact heaped.tracked id e r (fewer id e found)

theorem items_removeFromHeap {id : Int64} (placed : Heap.Placed HeapItem.index lm.heap) {item : HeapItem}
    (points : lm.heapItem? id = some item) (inside : item ∈ lm.heap) :
    lm.items.Perm (item.core :: (lm.removeFromHeap id).items) := by
  rw [removeFromHeap,points]
  exact Heap.map_remove_perm HeapItem.core_place _ (placed.getElem inside)

theorem mem_removeFromHeap {id : Int64} (placed : Heap.Placed HeapItem.index lm.heap) {x : Nat × Int64 × Int}
    (inside : x ∈ (lm.removeFromHeap id).items) : x ∈ lm.items := by
  rcases heapItem_spec lm id with ⟨none,-⟩ | ⟨item,points,there,-⟩
  · rwa [removeFromHeap, none] at inside
  · exact (items_removeFromHeap placed points there).mem_iff.mpr (List.mem_cons_of_mem _ inside)

theorem heapMap_removeFromHeap (lm : LeaseManager) {id id' : Int64} (other : id' ≠ id) :
    (lm.removeFromHeap id).heapMap.find? (leaseBucketKey id') = lm.heapMap.find? (leaseBucketKey id') := by
  rw [removeFromHeap]
  split
  · rfl
  · exact (SortedMap.find_erase _ _ _).trans (if_neg fun same => other (leaseBucketKey_inj.mp same))

/-- A revocation removes the item of its lease. -/
theorem Heaped.revoked (heaped : lm.Heaped) {l : Lease} (old : (lm.find? l.id).isSome) :
    (((lm.save l).remove l.id).removeFromHeap l.id).Heaped := by
  obtain ⟨before,known⟩ := Option.isSome_iff_exists.mp ((isSome_deadline lm l.id).trans old)
  have fewer : ∀ id e, ((lm.save l).remove l.id).deadline? id = some e → id ≠ l.id ∧ lm.deadline? id = some e := by
    intro id e found
    rw [deadline?,find_remove,find_save] at found
    by_cases same : id = l.id
    · rw [if_pos same] at found
      cases found
    · rw [if_neg same,if_neg same] at found
      exact ⟨same,found⟩
  rcases heapItem_spec ((lm.save l).remove l.id) l.id with ⟨none,-⟩ | ⟨item,points,inside,mapped⟩
  · rw [removeFromHeap,none]
    exact heaped.shrunk (fun id e found => (fewer id e found).2) rfl rfl rfl
  · have after : ((lm.save l).remove l.id).removeFromHeap l.id =
        { (lm.save l).remove l.id with
          heap := Heap.remove HeapItem.less HeapItem.place lm.heap item.index
          heapMap := lm.heapMap.erase (leaseBucketKey l.id) } := by
      rw [removeFromHeap,points]
      rfl
    have mine : (item.ref,l.id,before) ∈ lm.items := heaped.tracked l.id before item.ref known mapped
    have placed : Heap.Placed HeapItem.index ((lm.save l).remove l.id).heap := heaped.placed
    have perm : lm.items.Perm (item.core :: (((lm.save l).remove l.id).removeFromHeap l.id).items) :=
      items_removeFromHeap placed points inside
    refine ⟨?_,?_,?_,?_⟩
    · rw [after]
      exact Heap.placed_remove HeapItem.index_place heaped.placed _
    · have refs := heaped.refs
      rw [(perm.map (·.1)).nodup_iff,List.map_cons,List.nodup_cons] at refs
      exact refs.2
    · intro x there
      rw [after]
      exact heaped.fresh x (perm.mem_iff.mpr (List.mem_cons_of_mem _ there))
    · intro id e r found mapped'
      rw [after] at mapped'
      change (lm.heapMap.erase (leaseBucketKey l.id)).find? (leaseBucketKey id) = some r at mapped'
      rw [deadline?,find_removeFromHeap,← deadline?] at found
      obtain ⟨different,found⟩ := fewer id e found
      simp only [SortedMap.find_erase,leaseBucketKey_inj,if_neg different] at mapped'
      have there := heaped.tracked id e r found mapped'
      rcases List.mem_cons.mp (perm.mem_iff.mp there) with same | kept
      · -- the item that is taken out is the one of the revoked lease
        have other := heaped.unique there mine (congrArg (·.1) same)
        exact absurd (congrArg (·.2.1) other) different
      · exact kept

end

/-! ### Draining -/

/-- One item taken from the heap by a drain at `now`. -/
structure Popped (now : Int) (lm lm' : LeaseManager) (x : Nat × Int64 × Int) : Prop where
  due : x.2.2 < now
  perm : lm.items.Perm (x :: lm'.items)
  heapMap : lm'.heapMap = lm.heapMap.erase (leaseBucketKey x.2.1)
  find : ∀ id, lm'.find? id = lm.find? id
  allocated : lm'.allocated = lm.allocated
  placed : Heap.Placed HeapItem.index lm.heap → Heap.Placed HeapItem.index lm'.heap

theorem drainLoop_step (now : Int) (fuel : Nat) (lm : LeaseManager) :
    (drainLoop now (fuel + 1) lm = (lm,[]) ∧ ∀ first, lm.heap[0]? = some first → now ≤ first.expiry) ∨
    ∃ first lm', lm.heap[0]? = some first ∧ lm'.heap = (Heap.pop HeapItem.less HeapItem.place lm.heap).2 ∧
      Popped now lm lm' first.core ∧
      drainLoop now (fuel + 1) lm = ((drainLoop now fuel lm').1,first.lease :: (drainLoop now fuel lm').2) := by
  rw [drainLoop,List.head?_eq_getElem?]
  cases at_ : lm.heap[0]? with
  | none => exact Or.inl ⟨rfl,fun first same => by cases same⟩
  | some first =>
    simp only
    by_cases due : first.expiry < now
    · rw [if_pos due]
      obtain ⟨item,popped,core,perm⟩ := @Heap.pop_spec _ _ HeapItem.less _ _ HeapItem.core_place _ _ at_
      have kept := @Heap.placed_pop _ HeapItem.less _ _ lm.heap HeapItem.index_place
      generalize Heap.pop HeapItem.less HeapItem.place lm.heap = run at popped perm kept ⊢
      obtain ⟨out,heap⟩ := run
      obtain rfl : out = some item := popped
      have lease : item.lease = first.lease := congrArg (·.2.1) core
      refine Or.inr ⟨first,{ lm with heap := heap, heapMap := lm.heapMap.erase (leaseBucketKey item.lease) },rfl,rfl,?_,?_⟩
      · exact ⟨due,perm,by rw [lease]; rfl,fun _ => rfl,rfl,kept⟩
      · rw [← lease]
    · rw [if_neg due]
      exact Or.inl ⟨rfl,fun other same => by cases same; exact not_lt.mp due⟩

/-- Induction over the items that a drain takes. -/
theorem drainLoop_induction {now : Int} {P : LeaseManager → LeaseManager → List Int64 → Prop} (done : ∀ lm, P lm lm [])
    (step : ∀ lm lm₁ lm' x ids, Popped now lm lm₁ x → P lm₁ lm' ids → P lm lm' (x.2.1 :: ids)) (fuel : Nat) (lm : LeaseManager) :
    P lm (drainLoop now fuel lm).1 (drainLoop now fuel lm).2 := by
  induction fuel generalizing lm with
  | zero => exact done lm
  | succ fuel ih =>
    rcases drainLoop_step now fuel lm with ⟨stops,-⟩ | ⟨first,lm₁,-,-,popped,takes⟩
    · rw [stops]
      exact done lm
    · rw [takes]
      exact step lm lm₁ _ first.core _ popped (ih lm₁)

section

variable {now : Int} {lm lm' : LeaseManager} {x : Nat × Int64 × Int}

theorem Popped.heaped (popped : Popped now lm lm' x) (heaped : lm.Heaped) : lm'.Heaped := by
  have refs := heaped.refs
  rw [(popped.perm.map (·.1)).nodup_iff,List.map_cons,List.nodup_cons] at refs
  refine ⟨popped.placed heaped.placed,refs.2,fun y inside => ?_,fun id e r found mapped => ?_⟩
  · rw [popped.allocated]
    exact heaped.fresh y (popped.perm.mem_iff.mpr (List.mem_cons_of_mem _ inside))
  · rw [deadline?,popped.find] at found
    rw [popped.heapMap,SortedMap.find_erase] at mapped
    split at mapped
    · cases mapped
    next other =>
      have there := heaped.tracked id e r found mapped
      rcases List.mem_cons.mp (popped.perm.mem_iff.mp there) with rfl | kept
      · exact absurd rfl other
      · exact kept

theorem find_drain (now : Int) (lm : LeaseManager) (id : Int64) : (drainExpiredLeases now lm).1.find? id = lm.find? id :=
  drainLoop_induction (P := fun lm lm' _ => lm'.find? id = lm.find? id) (fun _ => rfl)
    (fun _ _ _ _ _ popped rest => rest.trans (popped.find id)) _ lm

theorem Heaped.drain (heaped : lm.Heaped) (now : Int) : (drainExpiredLeases now lm).1.Heaped :=
  @drainLoop_induction now (fun lm lm' _ => lm.Heaped → lm'.Heaped) (fun _ heaped => heaped)
    (fun _ _ _ _ _ popped rest heaped => rest (popped.heaped heaped)) _ lm heaped

/-- A drained lease had an item that was due. -/
theorem due_of_drained {id : Int64} (drained : id ∈ (drainExpiredLeases now lm).2) : ∃ r e, (r,id,e) ∈ lm.items ∧ e < now := by
  refine drainLoop_induction (P := fun lm _ ids => id ∈ ids → ∃ r e, (r,id,e) ∈ lm.items ∧ e < now) ?_ ?_ _ lm drained
  · intro lm inside
    cases inside
  · intro lm lm₁ lm' x ids popped rest inside
    rcases List.mem_cons.mp inside with rfl | later
    · exact ⟨x.1,x.2.2,popped.perm.mem_iff.mpr List.mem_cons_self,popped.due⟩
    · obtain ⟨r,e,there,due⟩ := rest later
      exact ⟨r,e,popped.perm.mem_iff.mpr (List.mem_cons_of_mem _ there),due⟩

theorem heapMap_drain {id : Int64} (kept : id ∉ (drainExpiredLeases now lm).2) :
    (drainExpiredLeases now lm).1.heapMap.find? (leaseBucketKey id) = lm.heapMap.find? (leaseBucketKey id) := by
  refine @drainLoop_induction now (fun lm lm' ids => id ∉ ids →
    lm'.heapMap.find? (leaseBucketKey id) = lm.heapMap.find? (leaseBucketKey id)) (fun _ _ => rfl) ?_ _ lm kept
  intro lm lm₁ lm' x ids popped rest outside
  rw [List.mem_cons,not_or] at outside
  rw [rest outside.2,popped.heapMap,SortedMap.find_erase,if_neg]
  exact fun same => outside.1 (leaseBucketKey_inj.mp same)

end

/-! ### Commands -/

/-- What a command does to the deadlines and the heap. -/
inductive Ticks (lm lm' : LeaseManager) : Request → Prop
  | same {request : Request} (same : lm.SameDeadlines lm') : Ticks lm lm' request
  | granted {id : Int64} {ttl : Int} {l : Lease} (named : l.id = id) (nonzero : id ≠ 0) (positive : 0 < ttl)
      (new : lm.find? id = none) (after : lm' = (lm.save l).pushToHeap l) : Ticks lm lm' (.lease (.grant id ttl))
  | renewed {id : Int64} {l : Lease} (named : l.id = id) (old : (lm.find? id).isSome)
      (after : lm' = (lm.save l).updateHeap id l.expiry) : Ticks lm lm' (.lease (.keepAlive id))
  | revoked {id : Int64} {l : Lease} (named : l.id = id) (old : (lm.find? id).isSome)
      (after : lm' = ((lm.save l).remove id).removeFromHeap id) : Ticks lm lm' (.lease (.revoke id))
  | expired {ids : List Int64} (removed : ∀ id, lm'.find? id = if id ∈ ids then none else lm.find? id)
      (heap : lm'.heap = lm.heap) (heapMap : lm'.heapMap = lm.heapMap) (allocated : lm'.allocated = lm.allocated) :
      Ticks lm lm' (.lease (.expire ids))

theorem collectExpired_heap (env : Env) (ids : List Int64) (lm : LeaseManager) (keys : List Bytes) (count : Nat) :
    (collectExpired env ids lm keys count).1.heap = lm.heap ∧ (collectExpired env ids lm keys count).1.heapMap = lm.heapMap ∧
      (collectExpired env ids lm keys count).1.allocated = lm.allocated := by
  induction ids generalizing lm keys count with
  | nil => exact ⟨rfl,rfl,rfl⟩
  | cons id rest ih =>
    rw [collectExpired]
    cases lm.find? id with
    | none => exact ih lm keys count
    | some l => exact ih (lm.remove id) _ _

theorem sameDeadlines_checkpoint (checkpoints : List Checkpoint) (lm : LeaseManager) (s : KvStore) :
    lm.SameDeadlines (lm.applyCheckpoint s checkpoints).1 := by
  induction checkpoints generalizing lm s with
  | nil => exact .refl lm
  | cons ck rest ih =>
    rw [applyCheckpoint]
    cases found : lm.find? ck.leaseID with
    | none => exact ih lm s
    | some l =>
      simp only
      split
      · exact ih lm s
      · have step : lm.SameDeadlines (lm.save { l with remainingTTL := ck.remainingTTL }) := by
          refine ⟨fun id => ?_,rfl,rfl,rfl⟩
          rw [deadline_save]
          split
          next same =>
            obtain rfl : id = ck.leaseID := Eq.trans same (id_of_find found :)
            rw [deadline?,found]
            rfl
          next => rfl
        exact step.trans (ih _ _)

end LeaseManager

theorem Fsm.dispatch_ticks {f : Fsm} (settled : f.store.Settled) (env : Env) (request : Request) :
    f.lm.Ticks (f.dispatch env request).1.lm request := by
  cases request with
  | kv cmd => exact .same (Engine.applyWrite_sameLeases f.store f.lm cmd).sameDeadlines
  | compaction targetRev => exact .same (.refl _)
  | ot cmd => cases cmd <;> exact .same (.refl _)
  | lease cmd =>
    cases cmd with
    | grant id ttl =>
      change f.lm.Ticks (LeaseManager.grant env f.lm f.store id ttl).1.1 _
      unfold LeaseManager.grant
      split
      · exact .same (.refl _)
      next nonzero =>
        split
        · exact .same (.refl _)
        next positive =>
          unfold LeaseManager.addLease
          cases found : f.lm.find? id with
          | some l => exact .same (.refl _)
          | none => exact .granted rfl nonzero (not_le.mp positive) found rfl
    | revoke id =>
      change f.lm.Ticks (LeaseManager.revoke env f.lm f.store id).1.1 _
      rw [LeaseManager.revoke_eq settled]
      cases found : f.lm.find? id with
      | none => exact .same (.refl _)
      | some l =>
        exact .revoked (l := { l with keySet := SortedMap.empty }) (LeaseManager.id_of_find found :) (by rw [found]; rfl) rfl
    | keepAlive id =>
      change f.lm.Ticks (LeaseManager.keepAlive env f.lm f.store id).1.1 _
      unfold LeaseManager.keepAlive
      split
      · exact .same (.refl _)
      · cases found : f.lm.find? id with
        | none => exact .same (.refl _)
        | some l =>
          let renewed : Lease := { l with
            remainingTTL := (env.now + l.ttl * timeSecond - (env.now + env.elapsed)).tdiv timeSecond
            expiry := env.now + l.ttl * timeSecond }
          exact .renewed (l := renewed) (LeaseManager.id_of_find found :) (by rw [found]; rfl) rfl
    | lookup id => exact .same (.refl _)
    | checkpoint checkpoints => exact .same (LeaseManager.sameDeadlines_checkpoint checkpoints f.lm f.store)
    | expire ids =>
      change f.lm.Ticks (LeaseManager.applyExpired env f.lm f.store ids).1.1 _
      rw [LeaseManager.applyExpired_eq settled]
      obtain ⟨heap,heapMap,allocated⟩ := LeaseManager.collectExpired_heap env ids f.lm [] 0
      exact .expired (LeaseManager.find_collectExpired env ids f.lm [] 0) heap heapMap allocated

/-- An entry is skipped, or its command does to the deadlines what it may. -/
theorem Fsm.apply_ticks {f : Fsm} (orderly : f.store.Orderly) (env : Env) (log : Log) :
    (f.apply env log).1 = f ∨ ∃ request, log.request? = some request ∧ f.store.applyIndex < log.index ∧
      f.lm.Ticks (f.apply env log).1.lm request := by
  rcases f.apply_cases env log with ⟨same,-⟩ | ⟨request,decoded,new,g,started,outcome,run,-,ended⟩
  · exact Or.inl same
  · have ticks := dispatch_ticks (f := { f with store := f.store.updateInmemRaftMeta log.index log.term })
      (orderly.same (.updateInmemRaftMeta _ _ _)).settled env request
    rw [run] at ticks
    refine Or.inr ⟨request,by rw [Log.request?,decoded],new,?_⟩
    rcases ended with ⟨e,-,same⟩ | ⟨r,-,same⟩
    · rw [same]
      exact ticks
    · rw [same]
      exact ticks

theorem LeaseManager.Ticks.heaped {lm lm' : LeaseManager} {request : Request} (ticks : lm.Ticks lm' request) (heaped : lm.Heaped) :
    lm'.Heaped := by
  cases ticks with
  | same same => exact heaped.sameDeadlines same
  | granted named nonzero positive new after =>
    rw [after]
    exact heaped.granted _
  | renewed named old after =>
    subst named
    rw [after]
    exact heaped.renewed old
  | revoked named old after =>
    subst named
    rw [after]
    exact heaped.revoked old
  | expired removed heap heapMap allocated =>
    refine heaped.shrunk (fun id e found => ?_) heap heapMap allocated
    rw [deadline?,removed] at found
    split at found
    · cases found
    · exact found

namespace LeaseManager

/-- Every item of a lease that is there is the one its entry in the map of items points to. -/
def Sole (lm : LeaseManager) : Prop :=
  ∀ x ∈ lm.items, (lm.find? x.2.1).isSome → lm.heapMap.find? (leaseBucketKey x.2.1) = some x.1

/-- Every lease but these has an entry in the map of items. -/
def Mapped (lm : LeaseManager) (except : List Int64) : Prop :=
  ∀ id, (lm.find? id).isSome → id ∈ except ∨ (lm.heapMap.find? (leaseBucketKey id)).isSome

/-- A grant the manager accepts finds no item of its lease in the heap. -/
def clear (lm : LeaseManager) : Request → Bool
  | .lease (.grant id ttl) => id = 0 || ttl ≤ 0 || (lm.find? id).isSome || lm.heap.all (·.lease ≠ id)
  | _ => true

variable {lm lm' : LeaseManager} {request : Request}

theorem SameDeadlines.isSome_find (same : lm.SameDeadlines lm') (id : Int64) : (lm'.find? id).isSome = (lm.find? id).isSome := by
  rw [← isSome_deadline,← isSome_deadline,same.deadlines]

theorem isSome_find_removed {ids : List Int64} (removed : ∀ id, lm'.find? id = if id ∈ ids then none else lm.find? id) {id : Int64}
    (there : (lm'.find? id).isSome) : id ∉ ids ∧ (lm.find? id).isSome := by
  rw [removed] at there
  split at there
  · cases there
  next kept => exact ⟨kept,there⟩

theorem find_revoked (lm : LeaseManager) (l : Lease) (id : Int64) :
    (((lm.save l).remove l.id).removeFromHeap l.id).find? id = if id ∈ [l.id] then none else lm.find? id := by
  rw [find_removeFromHeap,find_remove,find_save]
  by_cases same : id = l.id <;> simp [same]

theorem isSome_find_renewed {l : Lease} (old : (lm.find? l.id).isSome) (id : Int64) :
    (((lm.save l).updateHeap l.id l.expiry).find? id).isSome = (lm.find? id).isSome := by
  rw [find_updateHeap,find_save]
  split
  next same => rw [same,old]; rfl
  next => rfl

/-- A command keeps the items of the leases single, if a grant finds none. -/
theorem Ticks.sole (ticks : lm.Ticks lm' request) (heaped : lm.Heaped) (fresh : lm.clear request = true) (sole : lm.Sole) :
    lm'.Sole := by
  intro x inside there
  cases ticks with
  | same same =>
    rw [same.isSome_find] at there
    rw [items,same.heap] at inside
    rw [same.heapMap]
    exact sole x inside there
  | @granted id ttl l named nonzero positive new after =>
    subst named after
    have none : ∀ item ∈ lm.heap, item.lease ≠ l.id := by
      have positive' : ¬ ttl ≤ 0 := not_le.mpr positive
      simpa [clear,nonzero,positive',new] using fresh
    change (lm.heapMap.insert (leaseBucketKey l.id) lm.allocated).find? _ = _
    rcases List.mem_cons.mp ((items_pushToHeap (lm.save l) l).mem_iff.mp inside) with rfl | old
    · rw [SortedMap.find_insert,if_pos rfl]
      rfl
    · have other : x.2.1 ≠ l.id := by
        obtain ⟨item,member,rfl⟩ := List.mem_map.mp old
        exact none item member
      rw [find_pushToHeap,find_save,if_neg other] at there
      rw [SortedMap.find_insert,if_neg fun same => other (leaseBucketKey_inj.mp same)]
      exact sole x old there
  | renewed named old after =>
    subst named after
    obtain ⟨y,member,ref,lease⟩ := mem_updateHeap inside
    rw [isSome_find_renewed old,← lease] at there
    rw [heapMap_updateHeap,← ref,← lease]
    exact sole y member there
  | @revoked id l named old after =>
    subst named after
    obtain ⟨other,there⟩ := isSome_find_removed (find_revoked lm l) there
    have placed : Heap.Placed HeapItem.index ((lm.save l).remove l.id).heap := heaped.placed
    rw [heapMap_removeFromHeap _ (by simpa using other)]
    exact sole x (mem_removeFromHeap placed inside :) there
  | expired removed heap heapMap allocated =>
    rw [items,heap] at inside
    rw [heapMap]
    exact sole x inside (isSome_find_removed removed there).2

theorem Popped.sole {now : Int} {x : Nat × Int64 × Int} (popped : Popped now lm lm' x) (heaped : lm.Heaped) (sole : lm.Sole) :
    lm'.Sole := by
  intro y inside there
  have old := popped.perm.mem_iff.mpr (List.mem_cons_of_mem _ inside)
  rw [popped.find] at there
  have mine := sole y old there
  rw [popped.heapMap,SortedMap.find_erase,if_neg,mine]
  intro same
  -- the item taken out would be the one item of this lease, too
  have lease : y.2.1 = x.2.1 := leaseBucketKey_inj.mp same
  have first := sole x (popped.perm.mem_iff.mpr List.mem_cons_self) (by rwa [← lease])
  rw [← lease,mine] at first
  have refs := heaped.refs
  rw [(popped.perm.map (·.1)).nodup_iff,List.map_cons,List.nodup_cons] at refs
  exact refs.1 (List.mem_map.mpr ⟨y,inside,Option.some.inj first⟩)

theorem Sole.drain (sole : lm.Sole) (heaped : lm.Heaped) (now : Int) : (drainExpiredLeases now lm).1.Sole :=
  @drainLoop_induction now (fun lm lm' _ => lm.Heaped → lm.Sole → lm'.Sole) (fun _ _ sole => sole)
    (fun _ _ _ _ _ popped rest heaped sole => rest (popped.heaped heaped) (popped.sole heaped sole)) _ lm heaped sole

theorem Sole.overdue (sole : lm.Sole) (heaped : lm.Heaped) {now : Int} {id : Int64} (drained : id ∈ (drainExpiredLeases now lm).2)
    {l : Lease} (found : lm.find? id = some l) : l.expiry < now := by
  obtain ⟨r,e,there,due⟩ := due_of_drained drained
  have mapped := sole _ there (by rw [found]; rfl)
  have mine := heaped.tracked id l.expiry r (by rw [deadline?,found]; rfl) mapped
  obtain rfl : e = l.expiry := congrArg (·.2.2) (heaped.unique there mine rfl)
  exact due

theorem Ticks.mapped (ticks : lm.Ticks lm' request) {except : List Int64} (mapped : lm.Mapped except) : lm'.Mapped except := by
  intro id there
  cases ticks with
  | same same =>
    rw [same.isSome_find] at there
    rw [same.heapMap]
    exact mapped id there
  | @granted id' ttl l named nonzero positive new after =>
    subst named after
    change _ ∨ ((lm.heapMap.insert (leaseBucketKey l.id) lm.allocated).find? _).isSome
    by_cases same : id = l.id
    · rw [same,SortedMap.find_insert,if_pos rfl]
      exact Or.inr rfl
    · rw [find_pushToHeap,find_save,if_neg same] at there
      rw [SortedMap.find_insert,if_neg fun other => same (leaseBucketKey_inj.mp other)]
      exact mapped id there
  | renewed named old after =>
    subst named after
    rw [isSome_find_renewed old] at there
    rw [heapMap_updateHeap]
    exact mapped id there
  | @revoked id' l named old after =>
    subst named after
    obtain ⟨other,there⟩ := isSome_find_removed (find_revoked lm l) there
    rw [heapMap_removeFromHeap _ (by simpa using other)]
    exact mapped id there
  | expired removed heap heapMap allocated =>
    rw [heapMap]
    exact mapped id (isSome_find_removed removed there).2

theorem Mapped.drain (mapped : lm.Mapped []) (now : Int) : (drainExpiredLeases now lm).1.Mapped (drainExpiredLeases now lm).2 := by
  intro id there
  rw [find_drain] at there
  by_cases drained : id ∈ (drainExpiredLeases now lm).2
  · exact Or.inl drained
  · rw [heapMap_drain drained]
    rcases mapped id there with absent | present
    · cases absent
    · exact Or.inr present

/-- A lease with an entry in the map of items is in the heap. -/
theorem Mapped.inHeap (mapped : lm.Mapped []) (heaped : lm.Heaped) {id : Int64} {l : Lease} (found : lm.find? id = some l) :
    ∃ item ∈ lm.heap, item.lease = id ∧ item.expiry = l.expiry := by
  rcases mapped id (by rw [found]; rfl) with absent | present
  · cases absent
  · obtain ⟨r,points⟩ := Option.isSome_iff_exists.mp present
    have there := heaped.tracked id l.expiry r (by rw [deadline?,found]; rfl) points
    obtain ⟨item,member,same⟩ := List.mem_map.mp there
    exact ⟨item,member,congrArg (·.2.1) same,congrArg (·.2.2) same⟩

end LeaseManager

end Kave
