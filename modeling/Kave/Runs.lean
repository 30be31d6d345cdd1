import Kave.SortedMap

/-! Runs of a machine that is given by its step function, with a condition that every step meets in the state it is taken in. -/

namespace Runs

variable {S A : Type*} (step : S → A → S)

/-- Every step of the run meets `ok`. -/
def Along (ok : S → A → Prop) : S → List A → Prop
  | _, [] => True
  | s, a :: rest => ok s a ∧ Along ok (step s a) rest

instance decidableAlong (ok : S → A → Prop) [∀ s a, Decidable (ok s a)] :
    (s : S) → (acts : List A) → Decidable (Along step ok s acts)
  | _, [] => isTrue trivial
  | s, a :: rest =>
    have := decidableAlong ok (step s a) rest
    inferInstanceAs (Decidable (ok s a ∧ Along step ok (step s a) rest))

variable {step} {ok : S → A → Prop} {s : S} {acts acts' : List A}

/-- What every such step keeps holds at the end of the run. -/
theorem Along.invariant {P : S → Prop} (along : Along step ok s acts) (start : P s)
    (keeps : ∀ s a, P s → ok s a → P (step s a)) : P (acts.foldl step s) := by
  induction acts generalizing s with
  | nil => exact start
  | cons a rest ih => exact ih along.2 (keeps s a start along.1)

@[simp] theorem along_append : Along step ok s (acts ++ acts') ↔ Along step ok s acts ∧ Along step ok (acts.foldl step s) acts' := by
  induction acts generalizing s with
  | nil => exact ⟨fun along => ⟨trivial,along⟩,And.right⟩
  | cons a rest ih =>
    change _ ∧ Along step ok _ (rest ++ acts') ↔ (_ ∧ _) ∧ _
    rw [ih,and_assoc]
    rfl

theorem Along.of_all (all : ∀ a ∈ acts, ∀ s, ok s a) : Along step ok s acts := by
  induction acts generalizing s with
  | nil => trivial
  | cons b rest ih => exact ⟨all b List.mem_cons_self s,ih fun a member => all a (List.mem_cons_of_mem b member)⟩

/-- Two conditions that say the same wherever an invariant holds say the same along runs, if one of them keeps it. -/
theorem along_congr {ok' : S → A → Prop} {P : S → Prop} (start : P s) (same : ∀ s, P s → ∀ a ∈ acts, (ok s a ↔ ok' s a))
    (keeps : ∀ s, P s → ∀ a ∈ acts, ok s a → P (step s a)) : Along step ok s acts ↔ Along step ok' s acts := by
  induction acts generalizing s with
  | nil => exact Iff.rfl
  | cons a rest ih =>
    change ok s a ∧ _ ↔ ok' s a ∧ _
    rw [← same s start a List.mem_cons_self]
    refine and_congr_right fun meets => ih (keeps s start a List.mem_cons_self meets) ?_ ?_
    · exact fun s reached b member => same s reached b (List.mem_cons_of_mem a member)
    · exact fun s reached b member => keeps s reached b (List.mem_cons_of_mem a member)

theorem Along.concat (along : Along step ok s acts) {a : A} (last : ok (acts.foldl step s) a) : Along step ok s (acts ++ [a]) :=
  along_append.mpr ⟨along,last,trivial⟩

end Runs
