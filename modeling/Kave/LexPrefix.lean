import Mathlib.Data.List.Lex
import Mathlib.Order.Cover
import Mathlib.Order.Interval.Set.Defs

/-! The lists that start with a given one, as an interval of the lexicographic order. -/

namespace LexPrefix

variable {α : Type} [LinearOrder α]

theorem cons_le_cons_iff {a b : α} {l m : List α} : a :: l ≤ b :: m ↔ a < b ∨ a = b ∧ l ≤ m := by
  rw [← not_lt,List.cons_lt_cons_iff]
  rcases lt_trichotomy a b with less | same | more
  · simp [less,less.asymm,less.ne']
  · simp [same]
  · simp [more,more.asymm,more.ne']

theorem nil_le (k : List α) : [] ≤ k := not_lt.mp (List.not_lt_nil k)

theorem not_cons_le_nil (a : α) (l : List α) : ¬ a :: l ≤ [] := not_le.mpr (List.nil_lt_cons a l)

theorem le_append (p k : List α) : p ≤ p ++ k := by
  induction p with
  | nil => exact nil_le k
  | cons a p ih => exact cons_le_cons_iff.mpr (Or.inr ⟨rfl,ih⟩)

/-- Of lists with fronts of one length the fronts decide, and what comes after them only if they are the same. -/
theorem append_lt_append_iff {l m x y : List α} (length : l.length = m.length) : l ++ x < m ++ y ↔ l < m ∨ l = m ∧ x < y := by
  induction l generalizing m with
  | nil =>
    cases m with
    | nil => simp
    | cons b m => cases length
  | cons a l ih =>
    cases m with
    | nil => cases length
    | cons b m =>
      rw [List.cons_append,List.cons_append,List.cons_lt_cons_iff,List.cons_lt_cons_iff,ih (Nat.succ.inj length),
        List.cons_eq_cons,and_or_left,or_assoc,and_assoc]

theorem isPrefix_iff_le {tops : List α} (greatest : ∀ t ∈ tops, ∀ x, x ≤ t) (k : List α) : tops <+: k ↔ tops ≤ k := by
  induction tops generalizing k with
  | nil => simp [nil_le]
  | cons t tops ih =>
    cases k with
    | nil => simp [not_cons_le_nil]
    | cons x k =>
      have last : ¬ t < x := not_lt.mpr (greatest t List.mem_cons_self x)
      rw [List.cons_prefix_cons,cons_le_cons_iff,ih fun t' inside => greatest t' (List.mem_cons_of_mem t inside)]
      simp [last]

theorem isPrefix_of_le_of_le {p a b : List α} (above : p ≤ a) (below : a ≤ b) (extends_ : p <+: b) : p <+: a := by
  induction p generalizing a b with
  | nil => exact List.nil_prefix
  | cons x p ih =>
    cases b with
    | nil => simp at extends_
    | cons y b =>
      cases a with
      | nil => exact absurd above (not_cons_le_nil x p)
      | cons z a =>
        obtain ⟨rfl,rest⟩ := List.cons_prefix_cons.mp extends_
        rcases cons_le_cons_iff.mp above with less | ⟨rfl,le⟩
        · rcases cons_le_cons_iff.mp below with less' | ⟨rfl,-⟩
          · exact absurd less less'.asymm
          · exact absurd less (lt_irrefl z)
        · rcases cons_le_cons_iff.mp below with less' | ⟨-,le'⟩
          · exact absurd less' (lt_irrefl x)
          · exact List.cons_prefix_cons.mpr ⟨rfl,ih le le' rest⟩

theorem isPrefix_iff_mem_Ico {front tops : List α} {b c : α} (next : b ⋖ c) (greatest : ∀ t ∈ tops, ∀ x, x ≤ t)
    (k : List α) : front ++ b :: tops <+: k ↔ k ∈ Set.Ico (front ++ b :: tops) (front ++ [c]) := by
  induction front generalizing k with
  | nil =>
    cases k with
    | nil => simp [not_cons_le_nil]
    | cons x k =>
      have nothing : ¬ (b < x ∧ x < c) := fun between => next.2 between.1 between.2
      rw [List.nil_append,List.nil_append,List.cons_prefix_cons,isPrefix_iff_le greatest,Set.mem_Ico,
        cons_le_cons_iff,List.cons_lt_cons_iff]
      constructor
      · rintro ⟨rfl,le⟩
        exact ⟨Or.inr ⟨rfl,le⟩,Or.inl next.1⟩
      · rintro ⟨above | same,below | ⟨-,below⟩⟩
        · exact absurd ⟨above,below⟩ nothing
        · exact absurd below (List.not_lt_nil k)
        · exact same
        · exact absurd below (List.not_lt_nil k)
  | cons a front ih =>
    cases k with
    | nil => simp [not_cons_le_nil]
    | cons x k =>
      rw [List.cons_append,List.cons_append,List.cons_prefix_cons,ih,Set.mem_Ico,Set.mem_Ico,cons_le_cons_iff,
        List.cons_lt_cons_iff]
      constructor
      · rintro ⟨rfl,low,high⟩
        exact ⟨Or.inr ⟨rfl,low⟩,Or.inr ⟨rfl,high⟩⟩
      · rintro ⟨above | ⟨rfl,low⟩,below | ⟨same,high⟩⟩
        · exact absurd above below.asymm
        · exact absurd above (same ▸ lt_irrefl _)
        · exact absurd below (lt_irrefl _)
        · exact ⟨rfl,low,high⟩

end LexPrefix
