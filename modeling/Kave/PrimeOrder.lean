import Mathlib.GroupTheory.OrderOfElement

/-! Groups of prime order, written additively, and the identity behind a blinded choice: a point `b•G + c•A` lets the owner of `a`,
    with `A = a•G`, derive the key `b•A` for the choice `c` and another one for every other choice. -/

/-- A group of prime order with a generator. -/
structure PrimeGroup (P : Type*) [AddCommGroup P] where
  order : ℕ
  prime : order.Prime
  card : Nat.card P = order
  generator : P
  generates : ∀ x, x ∈ AddSubgroup.zmultiples generator

namespace PrimeGroup

variable {P : Type*} [AddCommGroup P] (g : PrimeGroup P)

theorem addOrderOf_eq {x : P} (nonzero : x ≠ 0) : addOrderOf x = g.order := by
  have divides : addOrderOf x ∣ g.order := g.card ▸ addOrderOf_dvd_natCard x
  rcases (Nat.dvd_prime g.prime).mp divides with one | whole
  · exact absurd (AddMonoid.addOrderOf_eq_one_iff.mp one) nonzero
  · exact whole

theorem mod_nsmul (n : ℕ) (x : P) : (n % g.order) • x = n • x := by
  by_cases zero : x = 0
  · rw [zero,nsmul_zero,nsmul_zero]
  · rw [← g.addOrderOf_eq zero,mod_addOrderOf_nsmul]

theorem generator_ne_zero : g.generator ≠ 0 := by
  intro zero
  have one : Nat.card P = 1 := by
    refine Nat.card_eq_one_iff_exists.mpr ⟨0,fun x => ?_⟩
    have multiple := g.generates x
    rwa [zero, AddSubgroup.zmultiples_zero_eq_bot, AddSubgroup.mem_bot] at multiple
  rw [g.card] at one
  exact g.prime.ne_one one

theorem nsmul_eq_zero_iff {x : P} (nonzero : x ≠ 0) (n : ℕ) : n • x = 0 ↔ g.order ∣ n := by
  rw [← g.addOrderOf_eq nonzero,addOrderOf_dvd_iff_nsmul_eq_zero]

theorem nsmul_ne_zero {x : P} (nonzero : x ≠ 0) {n : ℕ} (proper : ¬ g.order ∣ n) : n • x ≠ 0 :=
  mt (g.nsmul_eq_zero_iff nonzero n).mp proper

theorem nsmul_eq_nsmul_iff {x : P} (nonzero : x ≠ 0) (m n : ℕ) : m • x = n • x ↔ m ≡ n [MOD g.order] := by
  rw [← g.addOrderOf_eq nonzero]
  exact nsmul_eq_nsmul_iff_modEq

/-- The key for the choice `e` is the key of the chooser just for its own choice. -/
theorem blinded_key_iff {a : ℕ} (proper : ¬ g.order ∣ a) (b c e : ℕ) :
    a • (b • g.generator + c • a • g.generator) + -(e • a • a • g.generator) = b • a • g.generator ↔ c ≡ e [MOD g.order] := by
  have public_ : a • g.generator ≠ 0 := g.nsmul_ne_zero g.generator_ne_zero proper
  have moved : a • (b • g.generator + c • a • g.generator) = b • a • g.generator + c • a • a • g.generator := by
    rw [nsmul_add,nsmul_left_comm g.generator b a,nsmul_left_comm (a • g.generator) c a]
  rw [moved,← sub_eq_add_neg,add_sub_assoc,add_eq_left,sub_eq_zero]
  exact g.nsmul_eq_nsmul_iff (g.nsmul_ne_zero public_ proper) c e

/-- Every point is a multiple of the generator by just one reduced scalar. -/
theorem existsUnique_nsmul (x : P) : ∃! n, n < g.order ∧ n • g.generator = x := by
  classical
  have order := g.addOrderOf_eq g.generator_ne_zero
  have finite : IsOfFinAddOrder g.generator := addOrderOf_pos_iff.mp (order ▸ g.prime.pos)
  obtain ⟨n,less,same⟩ := Finset.mem_image.mp (finite.mem_zmultiples_iff_mem_range_addOrderOf.mp (g.generates x))
  rw [order,Finset.mem_range] at less
  refine ⟨n,⟨less,same⟩,fun m other => ?_⟩
  have congruent := (g.nsmul_eq_nsmul_iff g.generator_ne_zero m n).mp (other.2.trans same.symm)
  exact congruent.eq_of_lt_of_lt other.1 less

end PrimeGroup
