import Kave.SortedMap

/-! A binary heap in an array, as `container/heap` keeps it. Every element is told the position it is put at; what an
    element is otherwise never changes, so up to positions each operation is one on the multiset of elements. -/

namespace Kave

namespace Heap

variable {α : Type} (less : α → α → Bool) (place : Nat → α → α)

/-- `Less` on two positions. -/
def lessAt (h : List α) (i j : Nat) : Bool :=
  match h[i]?, h[j]? with
  | some a, some b => less a b
  | _, _ => false

/-- `Swap`: both elements learn their new positions. -/
def swap (h : List α) (i j : Nat) : List α :=
  match h[i]?, h[j]? with
  | some a, some b => (h.set i (place i b)).set j (place j a)
  | _, _ => h

/-- The loop of `up`; the fuel only has to reach the position. -/
def up : Nat → List α → Nat → List α
  | 0, h, _ => h
  | fuel + 1, h, j =>
    let i := (j - 1) / 2
    if i = j ∨ lessAt less h j i = false then h else up fuel (swap place h i j) i

/-- The smaller child of position `i` among the first `n`, if it has one. -/
def child (h : List α) (i n : Nat) : Option Nat :=
  let j1 := 2 * i + 1
  if n ≤ j1 then none
  else if j1 + 1 < n ∧ lessAt less h (j1 + 1) j1 then some (j1 + 1) else some j1

/-- The loop of `down` with the position it ends at; the fuel only has to exceed the length. -/
def down : Nat → List α → Nat → Nat → List α × Nat
  | 0, h, i, _ => (h,i)
  | fuel + 1, h, i, n =>
    match child less h i n with
    | none => (h,i)
    | some j => if lessAt less h j i = false then (h,i) else down fuel (swap place h i j) j n

def push (h : List α) (x : α) : List α := up less place h.length (h ++ [place h.length x]) h.length

/-- `down` from `i`, and `up` if that has not moved it. -/
def sift (h : List α) (i n : Nat) : List α :=
  let moved := down less place (h.length + 1) h i n
  if moved.2 > i then moved.1 else up less place i moved.1 i

/-- `Pop`, with what is left of the heap. -/
def pop (h : List α) : Option α × List α :=
  let n := h.length - 1
  let h := (down less place (h.length + 1) (swap place h 0 n) 0 n).1
  (h.getLast?,h.dropLast)

def remove (h : List α) (i : Nat) : List α :=
  let n := h.length - 1
  if n = i then h.dropLast else (sift less place (swap place h i n) i n).dropLast

def fix (h : List α) (i : Nat) : List α := sift less place h i h.length

/-! ### What the operations do, up to positions -/

section

variable {β : Type} {less : α → α → Bool} {place : Nat → α → α} {f : α → β}

@[simp] theorem length_swap (h : List α) (i j : Nat) : (swap place h i j).length = h.length := by
  rw [swap]
  split <;> simp

theorem getElem_swap_of_ne (h : List α) {i j k : Nat} (notI : k ≠ i) (notJ : k ≠ j) :
    (swap place h i j)[k]? = h[k]? := by
  rw [swap]
  split
  · rw [List.getElem?_set_ne notJ.symm,List.getElem?_set_ne notI.symm]
  · rfl

@[simp] theorem length_up (fuel : Nat) (h : List α) (j : Nat) : (up less place fuel h j).length = h.length := by
  induction fuel generalizing h j with
  | zero => rfl
  | succ fuel ih =>
    rw [up]
    split
    · rfl
    · rw [ih,length_swap]

@[simp] theorem length_down (fuel : Nat) (h : List α) (i n : Nat) : (down less place fuel h i n).1.length = h.length := by
  induction fuel generalizing h i with
  | zero => rfl
  | succ fuel ih =>
    rw [down]
    split
    · rfl
    · split
      · rfl
      · rw [ih,length_swap]

theorem child_lt {h : List α} {i n j : Nat} (found : child less h i n = some j) : i < j ∧ j < n := by
  rw [child] at found
  split at found
  · cases found
  · split at found <;> cases found <;> omega

/-- The elements outside of the part that is sifted stay. -/
theorem getElem_down_of_outside (fuel : Nat) (h : List α) {i n k : Nat} (outside : n ≤ k ∨ k < i) :
    (down less place fuel h i n).1[k]? = h[k]? := by
  induction fuel generalizing h i with
  | zero => rfl
  | succ fuel ih =>
    rw [down]
    split
    · rfl
    next j found =>
      obtain ⟨below,bound⟩ := child_lt found
      split
      · rfl
      · rw [ih _ (by omega),getElem_swap_of_ne] <;> omega

theorem getElem_up_of_lt (fuel : Nat) (h : List α) {j k : Nat} (below : j < k) : (up less place fuel h j)[k]? = h[k]? := by
  induction fuel generalizing h j with
  | zero => rfl
  | succ fuel ih =>
    rw [up]
    split
    · rfl
    · rw [ih _ (by omega),getElem_swap_of_ne] <;> omega

theorem getElem_sift_of_le (h : List α) {i n k : Nat} (outside : n ≤ k) (inside : i < n) :
    (sift less place h i n)[k]? = h[k]? := by
  rw [sift]
  split
  · exact getElem_down_of_outside _ h (Or.inl outside)
  · rw [getElem_up_of_lt _ _ (by omega)]
    exact getElem_down_of_outside _ h (Or.inl outside)

@[simp] theorem length_sift (h : List α) (i n : Nat) : (sift less place h i n).length = h.length := by
  rw [sift]
  split <;> simp

private theorem getLast_swap (h : List α) {i : Nat} {a : α} (at_ : h[i]? = some a) :
    (swap place h i (h.length - 1))[h.length - 1]? = some (place (h.length - 1) a) := by
  obtain ⟨inside,-⟩ := List.getElem?_eq_some_iff.mp at_
  have last : h[h.length - 1]? = some h[h.length - 1] := List.getElem?_eq_getElem (by omega)
  rw [swap,at_,last]
  simp only
  rw [List.getElem?_set_self]
  rw [List.length_set]
  omega

private theorem map_perm_of_last {h h' : List α} {a : α} (perm : (h'.map f).Perm (h.map f))
    (last : h'.getLast? = some a) : (h.map f).Perm (f a :: h'.dropLast.map f) := by
  refine perm.symm.trans ?_
  have split := List.dropLast_append_getLast? a last
  have image : h'.map f = h'.dropLast.map f ++ [f a] := by
    conv_lhs => rw [← split]
    rw [List.map_append,List.map_singleton]
  rw [image]
  exact List.perm_append_comm

section

variable (forgets : ∀ i a, f (place i a) = f a)

include forgets

theorem map_swap_perm (h : List α) (i j : Nat) :
    ((swap place h i j).map f).Perm (h.map f) := by
  rw [swap]
  split
  next a b atI atJ =>
    obtain ⟨ltI,rfl⟩ := List.getElem?_eq_some_iff.mp atI
    obtain ⟨ltJ,rfl⟩ := List.getElem?_eq_some_iff.mp atJ
    rw [List.map_set,List.map_set,forgets,forgets]
    have perm := @List.set_set_perm _ (h.map f) i j (by simpa using ltI) (by simpa using ltJ)
    simpa using perm
  next => exact List.Perm.refl _

theorem map_up_perm (fuel : Nat) (h : List α) (j : Nat) :
    ((up less place fuel h j).map f).Perm (h.map f) := by
  induction fuel generalizing h j with
  | zero => exact List.Perm.refl _
  | succ fuel ih =>
    rw [up]
    split
    · exact List.Perm.refl _
    · exact (ih _ _).trans (map_swap_perm forgets h _ j)

theorem map_down_perm (fuel : Nat) (h : List α) (i n : Nat) :
    ((down less place fuel h i n).1.map f).Perm (h.map f) := by
  induction fuel generalizing h i with
  | zero => exact List.Perm.refl _
  | succ fuel ih =>
    rw [down]
    split
    · exact List.Perm.refl _
    · split
      · exact List.Perm.refl _
      · exact (ih _ _).trans (map_swap_perm forgets h i _)

theorem map_sift_perm (h : List α) (i n : Nat) :
    ((sift less place h i n).map f).Perm (h.map f) := by
  rw [sift]
  split
  · exact map_down_perm forgets _ h i n
  · exact (map_up_perm forgets _ _ _).trans (map_down_perm forgets _ h i n)

/-- A push adds its element. -/
theorem map_push_perm (h : List α) (x : α) :
    ((push less place h x).map f).Perm (f x :: h.map f) := by
  refine (map_up_perm forgets _ _ _).trans ?_
  rw [List.map_append,List.map_singleton,forgets]
  exact List.perm_append_comm

/-- A fix only moves elements. -/
theorem map_fix_perm (h : List α) (i : Nat) :
    ((fix less place h i).map f).Perm (h.map f) := map_sift_perm forgets h i h.length

/-- A removal takes away the element at its position. -/
theorem map_remove_perm (h : List α) {i : Nat} {a : α} (at_ : h[i]? = some a) :
    (h.map f).Perm (f a :: (remove less place h i).map f) := by
  obtain ⟨inside,-⟩ := List.getElem?_eq_some_iff.mp at_
  rw [remove]
  split
  next last =>
    subst last
    exact map_perm_of_last (List.Perm.refl _) (List.getLast?_eq_getElem?.trans at_)
  next other =>
    have perm := (@map_sift_perm _ _ less _ _ forgets (swap place h i (h.length - 1)) i (h.length - 1)).trans
      (map_swap_perm forgets h i (h.length - 1))
    rw [← forgets (h.length - 1) a]
    refine map_perm_of_last perm ?_
    rw [List.getLast?_eq_getElem?,length_sift,length_swap,getElem_sift_of_le _ le_rfl (by omega)]
    exact getLast_swap h at_

/-- A pop takes the first element. -/
theorem pop_spec {h : List α} {a : α} (first : h[0]? = some a) :
    ∃ b, (pop less place h).1 = some b ∧ f b = f a ∧ (h.map f).Perm (f a :: (pop less place h).2.map f) := by
  have perm := (@map_down_perm _ _ less _ _ forgets (h.length + 1) (swap place h 0 (h.length - 1)) 0 (h.length - 1)).trans
    (map_swap_perm forgets h 0 (h.length - 1))
  have last : (pop less place h).1 = some (place (h.length - 1) a) := by
    rw [pop]
    simp only
    rw [List.getLast?_eq_getElem?,length_down,length_swap,getElem_down_of_outside _ _ (Or.inl le_rfl)]
    exact getLast_swap h first
  refine ⟨_,last,forgets _ _,?_⟩
  rw [← forgets (h.length - 1) a]
  exact map_perm_of_last perm last

end

/-! ### Positions -/

/-- Every element knows its position. -/
def Placed (position : α → Nat) (h : List α) : Prop := ∀ i a, h[i]? = some a → position a = i

variable {position : α → Nat} {h : List α}

theorem placed_dropLast (placed : Placed position h) : Placed position h.dropLast := by
  intro i a at_
  obtain ⟨inside,here⟩ := List.getElem?_eq_some_iff.mp at_
  refine placed i a ?_
  rw [List.getElem_dropLast] at here
  rw [List.length_dropLast] at inside
  exact List.getElem?_eq_some_iff.mpr ⟨by omega,here⟩

/-- An element is where it says. -/
theorem Placed.getElem (placed : Placed position h) {a : α} (inside : a ∈ h) : h[position a]? = some a := by
  obtain ⟨i,at_⟩ := List.mem_iff_getElem?.mp inside
  rw [placed i a at_]
  exact at_

variable (tells : ∀ i a, position (place i a) = i)

include tells

/-- A swap keeps the positions known. -/
theorem placed_swap (placed : Placed position h) (i j : Nat) :
    Placed position (swap place h i j) := by
  rw [swap]
  split
  next a b atI atJ =>
    intro k x at_
    by_cases here : j = k
    · subst here
      rw [List.getElem?_set_self' ] at at_
      obtain ⟨y,-,rfl⟩ := Option.map_eq_some_iff.mp at_
      exact tells _ _
    · rw [List.getElem?_set_ne here] at at_
      by_cases there : i = k
      · subst there
        rw [List.getElem?_set_self'] at at_
        obtain ⟨y,-,rfl⟩ := Option.map_eq_some_iff.mp at_
        exact tells _ _
      · rw [List.getElem?_set_ne there] at at_
        exact placed k x at_
  next => exact placed

theorem placed_up (fuel : Nat) (placed : Placed position h) (j : Nat) :
    Placed position (up less place fuel h j) := by
  induction fuel generalizing h j with
  | zero => exact placed
  | succ fuel ih =>
    rw [up]
    split
    · exact placed
    · exact ih (placed_swap tells placed _ _) _

theorem placed_down (fuel : Nat) (placed : Placed position h) (i n : Nat) :
    Placed position (down less place fuel h i n).1 := by
  induction fuel generalizing h i with
  | zero => exact placed
  | succ fuel ih =>
    rw [down]
    split
    · exact placed
    · split
      · exact placed
      · exact ih (placed_swap tells placed _ _) _

theorem placed_sift (placed : Placed position h) (i n : Nat) :
    Placed position (sift less place h i n) := by
  rw [sift]
  split
  · exact placed_down tells _ placed i n
  · exact placed_up tells _ (placed_down tells _ placed i n) i

theorem placed_push (placed : Placed position h) (x : α) :
    Placed position (push less place h x) := by
  refine placed_up tells _ ?_ _
  intro i a at_
  rw [List.getElem?_append] at at_
  split at at_
  · exact placed i a at_
  next outside =>
    obtain ⟨last,rfl⟩ := List.getElem?_eq_some_iff.mp at_
    rw [List.length_singleton] at last
    simp only [List.getElem_singleton,tells]
    omega

theorem placed_pop (placed : Placed position h) :
    Placed position (pop less place h).2 :=
  placed_dropLast (placed_down tells _ (placed_swap tells placed _ _) _ _)

theorem placed_remove (placed : Placed position h) (i : Nat) :
    Placed position (remove less place h i) := by
  rw [remove]
  split
  · exact placed_dropLast placed
  · exact placed_dropLast (placed_sift tells (placed_swap tells placed _ _) _ _)

theorem placed_fix (placed : Placed position h) (i : Nat) :
    Placed position (fix less place h i) := placed_sift tells placed i h.length

end

end Heap

end Kave
