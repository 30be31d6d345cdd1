import Mathlib

/-! UTF-8 as a decoder reads it. A byte string is cut into characters from the left; where no character starts, one byte is cut off
    and read as the replacement character. -/

namespace Utf8

/-- How many bytes follow the first byte of a character of more than one, and the range of the first of these. No byte follows one
    that starts no such character. -/
def lead (b : UInt8) : Nat × UInt8 × UInt8 :=
  if 0xC2 ≤ b ∧ b ≤ 0xDF then (1,0x80,0xBF)
  else if b = 0xE0 then (2,0xA0,0xBF)
  else if b = 0xED then (2,0x80,0x9F)
  else if 0xE1 ≤ b ∧ b ≤ 0xEF then (2,0x80,0xBF)
  else if b = 0xF0 then (3,0x90,0xBF)
  else if b = 0xF4 then (3,0x80,0x8F)
  else if 0xF1 ≤ b ∧ b ≤ 0xF3 then (3,0x80,0xBF)
  else (0,0x80,0xBF)

/-- The bytes make a character with the first one. -/
def Continues (b : UInt8) : List UInt8 → Prop
  | [] => False
  | c :: rest => rest.length + 1 = (lead b).1 ∧ (lead b).2.1 ≤ c ∧ c ≤ (lead b).2.2 ∧ ∀ d ∈ rest, 0x80 ≤ d ∧ d ≤ 0xBF

instance (b : UInt8) : DecidablePred (Continues b)
  | [] => inferInstanceAs (Decidable False)
  | c :: rest => inferInstanceAs (Decidable
      (rest.length + 1 = (lead b).1 ∧ (lead b).2.1 ≤ c ∧ c ≤ (lead b).2.2 ∧ ∀ d ∈ rest, 0x80 ≤ d ∧ d ≤ 0xBF))

/-- What is cut off: a character of one byte or of more, or a byte that is none. -/
inductive Rune
  | ascii (b : UInt8) (small : b < 0x80)
  | wide (b : UInt8) (more : List UInt8) (valid : Continues b more)
  | bad (b : UInt8)
deriving DecidableEq

namespace Rune

/-- The bytes that are cut off. -/
def raw : Rune → List UInt8
  | ascii b _ => [b]
  | wide b more _ => b :: more
  | bad b => [b]

/-- The replacement character. -/
def replacement : Rune := wide 0xEF [0xBF,0xBD] (by simp [Continues,lead])

def read : Rune → Rune
  | bad _ => replacement
  | r => r

/-- A character of one byte. -/
def is : Rune → UInt8 → Bool
  | ascii c _, b => c = b
  | _, _ => false

end Rune

/-- The characters after so many bytes that belong to one before. -/
def runesFrom : Nat → List UInt8 → List Rune
  | _, [] => []
  | k + 1, _ :: rest => runesFrom k rest
  | 0, b :: rest =>
    if small : b < 0x80 then .ascii b small :: runesFrom 0 rest
    else if valid : Continues b (rest.take (lead b).1) then .wide b (rest.take (lead b).1) valid :: runesFrom (lead b).1 rest
    else .bad b :: runesFrom 0 rest

def runes (l : List UInt8) : List Rune := runesFrom 0 l

/-! ### What follows the first byte -/

variable {b : UInt8} {more : List UInt8} {n : Nat}

theorem Continues.length (valid : Continues b more) : more.length = (lead b).1 := by
  cases more with
  | nil => exact valid.elim
  | cons c rest => exact valid.1

theorem le_lead (b : UInt8) : 0x80 ≤ (lead b).2.1 := by
  unfold lead
  split_ifs <;> decide

theorem Continues.high (valid : Continues b more) : ∀ d ∈ more, 0x80 ≤ d := by
  cases more with
  | nil => exact valid.elim
  | cons c rest =>
    obtain ⟨_,low,_,others⟩ := valid
    intro d member
    rcases List.mem_cons.mp member with rfl | later
    · exact UInt8.le_trans (le_lead b) low
    · exact (others d later).1

theorem Continues.not_small (valid : Continues b more) : ¬ b < 0x80 := by
  intro small
  have none : (lead b).1 = 0 := by
    unfold lead
    grind
  have length := valid.length
  rw [none,List.length_eq_zero_iff] at length
  rw [length] at valid
  exact valid

/-! ### Cutting -/

theorem runesFrom_eq (k : Nat) (l : List UInt8) : runesFrom k l = runes (l.drop k) := by
  induction k generalizing l with
  | zero => rfl
  | succ k step =>
    cases l with
    | nil => rfl
    | cons b rest => exact step rest

theorem runes_ascii (small : b < 0x80) (rest : List UInt8) : runes (b :: rest) = .ascii b small :: runes rest := by
  rw [runes,runesFrom,dif_pos small]
  rfl

theorem runes_wide (valid : Continues b more) (rest : List UInt8) :
    runes (b :: (more ++ rest)) = .wide b more valid :: runes rest := by
  have taken : (more ++ rest).take (lead b).1 = more := List.take_left' valid.length
  have dropped : (more ++ rest).drop (lead b).1 = rest := List.drop_left' valid.length
  rw [runes,runesFrom,dif_neg valid.not_small,dif_pos (by rwa [taken]),runesFrom_eq,dropped]
  congr 2

theorem runes_bad {rest : List UInt8} (large : ¬ b < 0x80) (invalid : ¬ Continues b (rest.take (lead b).1)) :
    runes (b :: rest) = .bad b :: runes rest := by
  rw [runes,runesFrom,dif_neg large,dif_neg invalid]
  rfl

theorem cut_induction {motive : List UInt8 → Prop} (nil : motive [])
    (ascii : ∀ b rest, b < 0x80 → motive rest → motive (b :: rest))
    (wide : ∀ b more rest, Continues b more → motive rest → motive (b :: (more ++ rest)))
    (bad : ∀ b rest, ¬ b < 0x80 → ¬ Continues b (rest.take (lead b).1) → motive rest → motive (b :: rest))
    (l : List UInt8) : motive l := by
  induction size : l.length using Nat.strong_induction_on generalizing l with
  | _ n shorter =>
  cases l with
  | nil => exact nil
  | cons b rest =>
    subst size
    by_cases small : b < 0x80
    · exact ascii b rest small (shorter _ (Nat.lt_succ_self _) rest rfl)
    by_cases valid : Continues b (rest.take (lead b).1)
    · have smaller : (rest.drop (lead b).1).length < (b :: rest).length := by
        simp only [List.length_drop,List.length_cons]
        omega
      have cut := wide b _ (rest.drop (lead b).1) valid (shorter _ smaller _ rfl)
      rwa [List.take_append_drop] at cut
    · exact bad b rest small valid (shorter _ (Nat.lt_succ_self _) rest rfl)

theorem flatMap_raw_runes (l : List UInt8) : (runes l).flatMap Rune.raw = l := by
  induction l using cut_induction with
  | nil => rfl
  | ascii b rest small step => rw [runes_ascii small,List.flatMap_cons,step]; rfl
  | wide b more rest valid step => rw [runes_wide valid,List.flatMap_cons,step]; rfl
  | bad b rest large invalid step => rw [runes_bad large invalid,List.flatMap_cons,step]; rfl

theorem runes_append_ascii (l : List UInt8) {c : UInt8} (small : c < 0x80) (rest : List UInt8) :
    runes (l ++ c :: rest) = runes l ++ .ascii c small :: runes rest := by
  induction l using cut_induction with
  | nil => exact runes_ascii small rest
  | ascii b l first step =>
    rw [List.cons_append,runes_ascii first,runes_ascii first,step]
    rfl
  | wide b more l valid step =>
    rw [List.cons_append,List.append_assoc,runes_wide valid,runes_wide valid,step]
    rfl
  | bad b l large invalid step =>
    -- The character that could start here would have to go on over the one byte.
    have open_ : ¬ Continues b ((l ++ c :: rest).take (lead b).1) := by
      intro valid
      rcases le_or_gt (lead b).1 l.length with within | past
      · rw [List.take_append_of_le_length within] at valid
        exact invalid valid
      · have member : c ∈ (l ++ c :: rest).take (lead b).1 := by
          rw [List.take_append,List.mem_append]
          right
          obtain ⟨k,more⟩ : ∃ k, (lead b).1 - l.length = k + 1 := ⟨(lead b).1 - l.length - 1,by omega⟩
          rw [more,List.take_succ_cons]
          exact List.mem_cons_self
        exact UInt8.not_lt.mpr (valid.high c member) small
    rw [List.cons_append,runes_bad large open_,runes_bad large invalid,step]
    rfl

/-! ### Writing what was read -/

theorem runes_raw_append {r : Rune} (good : r.read = r) (rest : List UInt8) : runes (r.raw ++ rest) = r :: runes rest := by
  cases r with
  | ascii b small => exact runes_ascii small rest
  | wide b more valid => exact runes_wide valid rest
  | bad b => cases good

theorem Rune.read_read (r : Rune) : r.read.read = r.read := by
  cases r <;> rfl

theorem runes_flatMap_raw {rs : List Rune} (good : ∀ r ∈ rs, r.read = r) : runes (rs.flatMap Rune.raw) = rs := by
  induction rs with
  | nil => rfl
  | cons r rs step =>
    rw [List.forall_mem_cons] at good
    rw [List.flatMap_cons,runes_raw_append good.1,step good.2]

/-! ### The character with a number -/

/-- A byte after the first, with the last six bits of the number. -/
def trail (n : Nat) : UInt8 := .ofNat (0x80 + n % 64)

theorem toNat_ofNat_of_le (small : n ≤ 0xFF) : (UInt8.ofNat n).toNat = n := by
  rw [UInt8.toNat_ofNat']
  omega

theorem toNat_trail (n : Nat) : (trail n).toNat = 0x80 + n % 64 := toNat_ofNat_of_le (by omega)

theorem trail_range (n : Nat) : 0x80 ≤ trail n ∧ trail n ≤ 0xBF := by
  rw [UInt8.le_iff_toNat_le,UInt8.le_iff_toNat_le,toNat_trail]
  constructor
  · exact Nat.le_add_right _ _
  · exact Nat.add_le_add_left (Nat.le_of_lt_succ (Nat.mod_lt n (by decide))) _

theorem continues_of {first second : Nat} {rest : List UInt8}
    (fits : rest.length + 1 = (lead (.ofNat first)).1 ∧
      (lead (.ofNat first)).2.1.toNat ≤ 0x80 + second % 64 ∧ 0x80 + second % 64 ≤ (lead (.ofNat first)).2.2.toNat)
    (others : ∀ d ∈ rest, ∃ n, d = trail n) : Continues (.ofNat first) (trail second :: rest) := by
  refine ⟨fits.1,?_,?_,?_⟩
  · exact UInt8.le_iff_toNat_le.mpr (by rw [toNat_trail]; exact fits.2.1)
  · exact UInt8.le_iff_toNat_le.mpr (by rw [toNat_trail]; exact fits.2.2)
  · intro d member
    obtain ⟨n,rfl⟩ := others d member
    exact trail_range n

theorem continues_two (low : 0x80 ≤ n) (high : n < 0x800) : Continues (.ofNat (0xC0 + n / 64)) [trail n] := by
  have first := toNat_ofNat_of_le (n := 0xC0 + n / 64) (by omega)
  refine continues_of ?_ (by simp)
  simp only [lead,UInt8.le_iff_toNat_le,← UInt8.toNat_inj,first,UInt8.reduceToNat,List.length_nil]
  split_ifs <;> simp only [UInt8.reduceToNat,true_and] <;> omega

/-- The numbers left out are the halves of a pair. -/
theorem continues_three (low : 0x800 ≤ n) (high : n < 0x10000) (single : ¬ (0xD800 ≤ n ∧ n ≤ 0xDFFF)) :
    Continues (.ofNat (0xE0 + n / 4096)) [trail (n / 64),trail n] := by
  have first := toNat_ofNat_of_le (n := 0xE0 + n / 4096) (by omega)
  refine continues_of ?_ (by simp)
  simp only [lead,UInt8.le_iff_toNat_le,← UInt8.toNat_inj,first,UInt8.reduceToNat,List.length_singleton]
  split_ifs <;> simp only [UInt8.reduceToNat,true_and] <;> omega

theorem continues_four (low : 0x10000 ≤ n) (high : n < 0x110000) :
    Continues (.ofNat (0xF0 + n / 262144)) [trail (n / 4096),trail (n / 64),trail n] := by
  have first := toNat_ofNat_of_le (n := 0xF0 + n / 262144) (by omega)
  refine continues_of ?_ (by simp)
  simp only [lead,UInt8.le_iff_toNat_le,← UInt8.toNat_inj,first,UInt8.reduceToNat,List.length_cons,List.length_nil]
  split_ifs <;> simp only [UInt8.reduceToNat,true_and] <;> omega

theorem ofNat_small (small : n < 0x80) : UInt8.ofNat n < 0x80 := by
  rw [UInt8.lt_iff_toNat_lt,toNat_ofNat_of_le (by omega)]
  exact small

/-- The character with the number, the replacement character where there is none. -/
def encode (n : Nat) : Rune :=
  if one : n < 0x80 then .ascii (.ofNat n) (ofNat_small one)
  else if two : n < 0x800 then .wide (.ofNat (0xC0 + n / 64)) [trail n] (continues_two (not_lt.mp one) two)
  else if single : 0xD800 ≤ n ∧ n ≤ 0xDFFF then .replacement
  else if three : n < 0x10000 then
    .wide (.ofNat (0xE0 + n / 4096)) [trail (n / 64),trail n] (continues_three (not_lt.mp two) three single)
  else if four : n < 0x110000 then
    .wide (.ofNat (0xF0 + n / 262144)) [trail (n / 4096),trail (n / 64),trail n] (continues_four (not_lt.mp three) four)
  else .replacement

theorem read_encode (n : Nat) : (encode n).read = encode n := by
  unfold encode
  split_ifs <;> rfl

end Utf8
