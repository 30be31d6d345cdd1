import Kave.Heap
import Mathlib.Order.WithBot
import Mathlib.Logic.Equiv.Basic

/-! The order of a binary heap: no element is less than its parent. A sift works on an array that is ordered except around
    one position, and leaves it ordered. -/

namespace Kave

namespace Heap

/-- The parent of a position; the root is its own. -/
def parent (c : Nat) : Nat := (c - 1) / 2

theorem parent_lt {c : Nat} (inner : 0 < c) : parent c < c := by
  unfold parent
  omega

section Keys

variable {κ : Type} [LinearOrder κ]

/-- The first `n` positions are ordered. -/
def Ordered (n : Nat) (k : Nat → κ) : Prop := ∀ c, 0 < c → c < n → k (parent c) ≤ k c

/-- They are ordered where the position `i` is not involved, and would be without it. -/
structure Hole (n : Nat) (k : Nat → κ) (i : Nat) : Prop where
  off : ∀ c, 0 < c → c < n → c ≠ i → parent c ≠ i → k (parent c) ≤ k c
  across : ∀ c, 0 < c → c < n → parent c = i → 0 < i → k (parent i) ≤ k c

/-- The position is in order with its children. -/
def Below (n : Nat) (k : Nat → κ) (i : Nat) : Prop := ∀ c, 0 < c → c < n → parent c = i → k i ≤ k c

/-- The position is in order with its parent. -/
def Above (k : Nat → κ) (i : Nat) : Prop := 0 < i → k (parent i) ≤ k i

variable {n : Nat} {k : Nat → κ} {i j : Nat}

/-- A hole whose key fits is none. -/
theorem Hole.ordered (hole : Hole n k i) (below : Below n k i) (above : Above k i) : Ordered n k := by
  intro c inner inside
  by_cases here : c = i
  · subst here
    exact above inner
  · by_cases child : parent c = i
    · rw [child]
      exact below c inner inside child
    · exact hole.off c inner inside here child

theorem Ordered.hole {k' : Nat → κ} (ordered : Ordered n k) (same : ∀ c, c < n → c ≠ i → k' c = k c) : Hole n k' i := by
  refine ⟨fun c inner inside here child => ?_,fun c inner inside child up => ?_⟩
  · rw [same c inside here,same (parent c) ((parent_lt inner).trans inside) child]
    exact ordered c inner inside
  · have between := parent_lt inner
    have next := parent_lt up
    rw [same c inside (by omega),same (parent i) (by omega) (by omega)]
    refine (ordered i up (by omega)).trans ?_
    rw [← child]
    exact ordered c inner inside

theorem Ordered.mono {m : Nat} (ordered : Ordered n k) (fewer : m ≤ n) : Ordered m k :=
  fun c inner inside => ordered c inner (by omega)

theorem Ordered.congr {k' : Nat → κ} (ordered : Ordered n k) (same : ∀ c, c < n → k' c = k c) : Ordered n k' := by
  intro c inner inside
  rw [same c inside,same _ ((parent_lt inner).trans inside)]
  exact ordered c inner inside

/-- The root has a least key. -/
theorem Ordered.root_le (ordered : Ordered n k) (c : Nat) (inside : c < n) : k 0 ≤ k c := by
  induction c using Nat.strong_induction_on with
  | _ c ih =>
    by_cases root : c = 0
    · rw [root]
    · have inner : 0 < c := Nat.pos_of_ne_zero root
      have up := parent_lt inner
      exact (ih _ up (by omega)).trans (ordered c inner inside)

/-- A swap with a larger parent moves the hole up. -/
theorem Hole.moveUp (hole : Hole n k j) (inner : 0 < j) (inside : j < n) (less : k j < k (parent j)) :
    Hole n (k ∘ Equiv.swap (parent j) j) (parent j) ∧ Below n (k ∘ Equiv.swap (parent j) j) (parent j) := by
  have up := parent_lt inner
  have other : ∀ c, c ≠ parent j → c ≠ j → (k ∘ Equiv.swap (parent j) j) c = k c :=
    fun c notI notJ => congrArg k (Equiv.swap_apply_of_ne_of_ne notI notJ)
  have atI : (k ∘ Equiv.swap (parent j) j) (parent j) = k j := congrArg k (Equiv.swap_apply_left _ _)
  have atJ : (k ∘ Equiv.swap (parent j) j) j = k (parent j) := congrArg k (Equiv.swap_apply_right _ _)
  -- the other children of the parent were in order with it
  have sibling : ∀ c, 0 < c → c < n → parent c = parent j → c ≠ j → k (parent j) ≤ k c := by
    intro c positive bound child notJ
    have order := hole.off c positive bound notJ (by omega)
    rwa [child] at order
  have grand : 0 < parent j → k (parent (parent j)) ≤ k (parent j) := by
    intro positive
    have next := parent_lt positive
    exact hole.off (parent j) positive (by omega) (by omega) (by omega)
  refine ⟨⟨fun c positive bound here child => ?_,fun c positive bound child top => ?_⟩,fun c positive bound child => ?_⟩
  · have notJ : c ≠ j := fun same => child (by rw [same])
    rw [other c here notJ]
    by_cases inner : parent c = j
    · rw [inner,atJ]
      exact hole.across c positive bound inner (by omega)
    · rw [other _ child inner]
      exact hole.off c positive bound notJ inner
  · have next := parent_lt top
    rw [other (parent (parent j)) (by omega) (by omega)]
    refine (grand top).trans ?_
    by_cases same : c = j
    · rw [same,atJ]
    · rw [other c (by have := parent_lt positive; omega) same]
      exact sibling c positive bound child same
  · rw [atI]
    by_cases same : c = j
    · rw [same,atJ]
      exact less.le
    · rw [other c (by have := parent_lt positive; omega) same]
      exact less.le.trans (sibling c positive bound child same)

/-- A swap with a smaller child, the smallest one, moves the hole down. -/
theorem Hole.moveDown (hole : Hole n k i) (inner : 0 < j) (inside : j < n) (child : parent j = i) (less : k j < k i)
    (least : ∀ c, 0 < c → c < n → parent c = i → k j ≤ k c) :
    Hole n (k ∘ Equiv.swap i j) j ∧ Above (k ∘ Equiv.swap i j) j := by
  have up := parent_lt inner
  have other : ∀ c, c ≠ i → c ≠ j → (k ∘ Equiv.swap i j) c = k c :=
    fun c notI notJ => congrArg k (Equiv.swap_apply_of_ne_of_ne notI notJ)
  have atI : (k ∘ Equiv.swap i j) i = k j := congrArg k (Equiv.swap_apply_left _ _)
  have atJ : (k ∘ Equiv.swap i j) j = k i := congrArg k (Equiv.swap_apply_right _ _)
  refine ⟨⟨fun c positive bound here notChild => ?_,fun c positive bound below top => ?_⟩,fun top => ?_⟩
  · by_cases same : c = i
    · subst same
      have next := parent_lt positive
      rw [atI,other (parent c) (by omega) notChild]
      exact hole.across j inner inside child positive
    · rw [other c same here]
      by_cases sibling : parent c = i
      · rw [sibling,atI]
        exact least c positive bound sibling
      · rw [other _ sibling notChild]
        exact hole.off c positive bound same sibling
  · have next := parent_lt positive
    rw [child,atI,other c (by omega) (by omega)]
    have order := hole.off c positive bound (by omega) (by omega)
    rwa [below] at order
  · rw [child,atI,atJ]
    exact less.le

end Keys

section

variable {α κ : Type} {less : α → α → Bool} {place : Nat → α → α} {key : α → κ}

/-- The keys of the positions, with nothing above those outside. -/
def keys (key : α → κ) (h : List α) (i : Nat) : WithTop κ := (h[i]?).elim ⊤ fun a => (key a : WithTop κ)

variable {h : List α} {i : Nat}

theorem keys_of_getElem {a : α} (at_ : h[i]? = some a) : keys key h i = key a := by
  rw [keys,at_]
  rfl

theorem keys_congr {h h' : List α} (same : h'[i]? = h[i]?) : keys key h' i = keys key h i := by
  rw [keys,keys,same]

theorem keys_swap (forgets : ∀ i a, key (place i a) = key a) {i j : Nat} (inI : i < h.length) (inJ : j < h.length) :
    keys key (swap place h i j) = keys key h ∘ Equiv.swap i j := by
  have atI : h[i]? = some h[i] := List.getElem?_eq_getElem inI
  have atJ : h[j]? = some h[j] := List.getElem?_eq_getElem inJ
  funext c
  rw [Function.comp_apply]
  by_cases isJ : c = j
  · subst isJ
    rw [Equiv.swap_apply_right,keys_of_getElem atI,← forgets c h[i]]
    refine keys_of_getElem ?_
    rw [swap,atI,atJ]
    exact List.getElem?_set_self (by simpa using inJ)
  · by_cases isI : c = i
    · subst isI
      rw [Equiv.swap_apply_left,keys_of_getElem atJ,← forgets c h[j]]
      refine keys_of_getElem ?_
      rw [swap,atI,atJ]
      exact (List.getElem?_set_ne (Ne.symm isJ)).trans (List.getElem?_set_self inI)
    · rw [Equiv.swap_apply_of_ne_of_ne isI isJ]
      exact keys_congr (getElem_swap_of_ne h isI isJ)

variable [LinearOrder κ]

/-- No element is less than its parent. -/
def IsHeap (key : α → κ) (h : List α) : Prop := Ordered h.length (keys key h)

/-- The first element of a heap has a least key. -/
theorem IsHeap.first_le (heap : IsHeap key h) {a b : α} (first : h[0]? = some a) (inside : b ∈ h) : key a ≤ key b := by
  obtain ⟨i,at_⟩ := List.mem_iff_getElem?.mp inside
  obtain ⟨bound,-⟩ := List.getElem?_eq_some_iff.mp at_
  have order := heap.root_le i bound
  rw [keys_of_getElem first,keys_of_getElem at_] at order
  exact WithTop.coe_le_coe.mp order

variable (forgets : ∀ i a, key (place i a) = key a) (compares : ∀ a b, less a b = decide (key a < key b))

include compares in
theorem lessAt_iff {i j : Nat} (inI : i < h.length) (inJ : j < h.length) :
    lessAt less h i j = true ↔ keys key h i < keys key h j := by
  have atI : h[i]? = some h[i] := List.getElem?_eq_getElem inI
  have atJ : h[j]? = some h[j] := List.getElem?_eq_getElem inJ
  rw [keys_of_getElem atI,keys_of_getElem atJ,lessAt,atI,atJ,WithTop.coe_lt_coe]
  simp only [compares,decide_eq_true_eq]

include compares in
theorem lessAt_eq_false {i j : Nat} (inI : i < h.length) (inJ : j < h.length) :
    lessAt less h i j = false ↔ keys key h j ≤ keys key h i := by
  rw [← not_lt,← lessAt_iff compares inI inJ,Bool.not_eq_true]

theorem up_succ (fuel : Nat) (h : List α) (j : Nat) : up less place (fuel + 1) h j =
    if parent j = j ∨ lessAt less h j (parent j) = false then h else up less place fuel (swap place h (parent j) j) (parent j) := rfl

include forgets compares in
/-- `up` closes a hole that is in order with its children. -/
theorem ordered_up {fuel n : Nat} {j : Nat} (bound : n ≤ h.length) (inside : j < n) (enough : j ≤ fuel)
    (hole : Hole n (keys key h) j) (below : Below n (keys key h) j) : Ordered n (keys key (up less place fuel h j)) := by
  induction fuel generalizing h j with
  | zero =>
    refine hole.ordered below fun inner => ?_
    omega
  | succ fuel ih =>
    rw [up_succ]
    by_cases root : j = 0
    · subst root
      rw [if_pos (Or.inl (by rfl : parent 0 = 0))]
      exact hole.ordered below fun inner => absurd inner (lt_irrefl _)
    · have inner : 0 < j := Nat.pos_of_ne_zero root
      have next := parent_lt inner
      split
      next stop =>
        have kept := stop.resolve_left next.ne
        exact hole.ordered below fun _ => (lessAt_eq_false compares (by omega) (by omega)).mp kept
      next go =>
        rw [not_or,Bool.not_eq_false] at go
        have smaller := (lessAt_iff compares (by omega) (by omega)).mp go.2
        have moved := hole.moveUp inner inside smaller
        rw [← keys_swap forgets (by omega) (by omega)] at moved
        exact ih (by rwa [length_swap]) (by omega) (by omega) moved.1 moved.2

theorem child_spec (compares : ∀ a b, less a b = decide (key a < key b)) {i n : Nat} (bound : n ≤ h.length) :
    (child less h i n = none ∧ ∀ c, 0 < c → c < n → parent c ≠ i) ∨
    ∃ j, child less h i n = some j ∧ 0 < j ∧ j < n ∧ parent j = i ∧
      ∀ c, 0 < c → c < n → parent c = i → keys key h j ≤ keys key h c := by
  unfold child parent
  simp only
  by_cases leaf : n ≤ 2 * i + 1
  · rw [if_pos leaf]
    exact Or.inl ⟨rfl,fun c inner inside => by omega⟩
  · rw [if_neg leaf]
    refine Or.inr ?_
    have children : ∀ c, 0 < c → (c - 1) / 2 = i → c = 2 * i + 1 ∨ c = 2 * i + 1 + 1 := by omega
    split
    next right =>
      have order := (lessAt_iff compares (by omega) (by omega)).mp right.2
      refine ⟨_,rfl,by omega,by omega,by omega,fun c inner inside isChild => ?_⟩
      rcases children c inner isChild with rfl | rfl
      · exact order.le
      · exact le_rfl
    next left =>
      refine ⟨_,rfl,by omega,by omega,by omega,fun c inner inside isChild => ?_⟩
      rcases children c inner isChild with rfl | rfl
      · exact le_rfl
      · refine (lessAt_eq_false compares (by omega) (by omega)).mp ?_
        rw [not_and,Bool.not_eq_true] at left
        exact left (by omega)

theorem down_of_none {fuel : Nat} {i n : Nat} (leaf : child less h i n = none) :
    down less place (fuel + 1) h i n = (h,i) := by
  rw [down,leaf]

theorem down_of_child {fuel : Nat} {h : List α} {i j n : Nat} (found : child less h i n = some j) :
    down less place (fuel + 1) h i n =
      if lessAt less h j i = false then (h,i) else down less place fuel (swap place h i j) j n := by
  rw [down,found]

theorem le_down (fuel : Nat) (h : List α) (i n : Nat) : i ≤ (down less place fuel h i n).2 := by
  induction fuel generalizing h i with
  | zero => exact le_rfl
  | succ fuel ih =>
    rw [down]
    split
    · exact le_rfl
    next j found =>
      split
      · exact le_rfl
      · exact (child_lt found).1.le.trans (ih _ j)

include forgets compares in
/-- `down` closes a hole that is in order with its parent. -/
theorem ordered_down {fuel n : Nat} (bound : n ≤ h.length) (enough : n ≤ i + fuel)
    (hole : Hole n (keys key h) i) (above : Above (keys key h) i) : Ordered n (keys key (down less place fuel h i n).1) := by
  induction fuel generalizing h i with
  | zero =>
    refine hole.ordered (fun c inner inside child => ?_) above
    have := parent_lt inner
    omega
  | succ fuel ih =>
    rcases child_spec compares bound with ⟨none,leaf⟩ | ⟨j,found,inner,inside,child,least⟩
    · rw [down_of_none none]
      exact hole.ordered (fun c inner inside child => absurd child (leaf c inner inside)) above
    · have next := parent_lt inner
      rw [down_of_child found]
      split
      next stop =>
        have kept := (lessAt_eq_false compares (by omega) (by omega)).mp stop
        exact hole.ordered (fun c inner inside child => kept.trans (least c inner inside child)) above
      next go =>
        rw [Bool.not_eq_false] at go
        have smaller := (lessAt_iff compares (by omega) (by omega)).mp go
        have moved := hole.moveDown inner inside child smaller least
        rw [← keys_swap forgets (by omega) (by omega)] at moved
        exact ih (by rwa [length_swap]) (by omega) moved.1 moved.2

include forgets compares in
/-- `sift` closes any hole. -/
theorem ordered_sift {n : Nat} (bound : n ≤ h.length) (inside : i < n) (hole : Hole n (keys key h) i) :
    Ordered n (keys key (sift less place h i n)) := by
  have still : down less place (h.length + 1) h i n = (h,i) → Below n (keys key h) i →
      Ordered n (keys key (sift less place h i n)) := by
    intro stays below
    rw [sift,stays]
    simp only [gt_iff_lt,lt_irrefl,if_false]
    exact ordered_up forgets compares bound inside le_rfl hole below
  rcases child_spec compares bound with ⟨none,leaf⟩ | ⟨j,found,inner,inJ,child,least⟩
  · exact still (down_of_none none) fun c inner inside child => absurd child (leaf c inner inside)
  · have next := parent_lt inner
    have unfolded := @down_of_child _ less place h.length h i j n found
    split at unfolded
    next stop =>
      have kept := (lessAt_eq_false compares (by omega) (by omega)).mp stop
      exact still unfolded fun c inner inside child => kept.trans (least c inner inside child)
    next go =>
      rw [Bool.not_eq_false] at go
      have smaller := (lessAt_iff compares (by omega) (by omega)).mp go
      have moved := hole.moveDown inner inJ child smaller least
      rw [← keys_swap forgets (by omega) (by omega)] at moved
      have lower := @le_down _ less place h.length (swap place h i j) j n
      rw [sift,unfolded,if_pos (by omega)]
      exact ordered_down forgets compares (by rwa [length_swap]) (by omega) moved.1 moved.2

theorem isHeap_dropLast (ordered : Ordered (h.length - 1) (keys key h)) : IsHeap key h.dropLast := by
  rw [IsHeap,List.length_dropLast]
  refine ordered.congr fun c inside => keys_congr ?_
  rw [List.dropLast_eq_take,List.getElem?_take_of_lt inside]

include forgets compares in
/-- A push keeps the heap. -/
theorem isHeap_push (heap : IsHeap key h) (x : α) : IsHeap key (push less place h x) := by
  have length : (h ++ [place h.length x]).length = h.length + 1 := by simp
  rw [IsHeap,push,length_up,length]
  refine ordered_up forgets compares length.ge (Nat.lt_succ_self _) le_rfl ?_ ?_
  · refine ⟨fun c inner inside here child => ?_,fun c inner inside child _ => ?_⟩
    · have before : ∀ i, i < h.length → keys key (h ++ [place h.length x]) i = keys key h i :=
        fun i bound => keys_congr (List.getElem?_append_left bound)
      have := parent_lt inner
      rw [before c (by omega),before _ (by omega)]
      exact heap c inner (by omega)
    · have := parent_lt inner
      omega
  · intro c inner inside child
    have := parent_lt inner
    omega

include forgets compares in
/-- A pop keeps the heap. -/
theorem isHeap_pop (heap : IsHeap key h) : IsHeap key (pop less place h).2 := by
  rcases Nat.eq_zero_or_pos h.length with empty | some
  · obtain rfl := List.eq_nil_of_length_eq_zero empty
    exact heap
  · refine isHeap_dropLast ?_
    rw [length_down,length_swap]
    refine ordered_down forgets compares (by rw [length_swap]; omega) (by omega) ?_ fun inner => absurd inner (lt_irrefl _)
    rw [keys_swap forgets some (by omega)]
    refine (heap.mono (Nat.sub_le _ 1)).hole fun c inside other => ?_
    exact congrArg _ (Equiv.swap_apply_of_ne_of_ne other (by omega))

include forgets compares in
/-- A removal keeps the heap. -/
theorem isHeap_remove (heap : IsHeap key h) (inside : i < h.length) :
    IsHeap key (remove less place h i) := by
  have fewer : Ordered (h.length - 1) (keys key h) := heap.mono (Nat.sub_le _ 1)
  unfold remove
  simp only
  split
  · exact isHeap_dropLast fewer
  · refine isHeap_dropLast ?_
    rw [length_sift,length_swap]
    refine ordered_sift forgets compares (by rw [length_swap]; omega) (by omega) ?_
    rw [keys_swap forgets inside (by omega)]
    refine fewer.hole fun c bound other => ?_
    exact congrArg _ (Equiv.swap_apply_of_ne_of_ne other (by omega))

include forgets compares in
/-- A fix repairs a heap in which one key has changed. -/
theorem isHeap_fix {h h' : List α} (heap : IsHeap key h) (inside : i < h.length) (length : h'.length = h.length)
    (same : ∀ c, c ≠ i → keys key h' c = keys key h c) : IsHeap key (fix less place h' i) := by
  rw [IsHeap,fix,length_sift,length]
  exact ordered_sift forgets compares length.ge inside (heap.hole fun c _ other => same c other)

end

end Heap

end Kave
