import Mathlib.Data.Int.Basic
import Mathlib.Data.List.Basic
import Mathlib.Data.List.Induction
import Mathlib.Tactic.Ring

/-! Authenticated encryption as its users see it, and integers as bytes. Nothing here depends on a particular cipher. -/

namespace Sealing

/-- A cipher that encrypts under a key and a nonce. Under the same key and nonce it opens what it has sealed, and a sealed text is
    longer by its tag. -/
structure Aead where
  tagSize : Nat
  encrypt : List UInt8 → List UInt8 → List UInt8 → List UInt8
  decrypt : List UInt8 → List UInt8 → List UInt8 → Option (List UInt8)
  decrypt_encrypt : ∀ key nonce text, decrypt key nonce (encrypt key nonce text) = some text
  length_encrypt : ∀ key nonce text, (encrypt key nonce text).length = text.length + tagSize

/-! ### Big-endian integers -/

/-- The low bytes of a number, the most significant first. -/
def bigEndian : Nat → Nat → List UInt8
  | 0, _ => []
  | n + 1, v => bigEndian n (v / 256) ++ [UInt8.ofNat v]

def ofBigEndian (bytes : List UInt8) : Nat := bytes.foldl (fun v b => v * 256 + b.toNat) 0

@[simp] theorem length_bigEndian (n v : Nat) : (bigEndian n v).length = n := by
  induction n generalizing v with
  | zero => rfl
  | succ n ih => simp [bigEndian,ih]

theorem ofBigEndian_snoc (bytes : List UInt8) (b : UInt8) : ofBigEndian (bytes ++ [b]) = ofBigEndian bytes * 256 + b.toNat := by
  simp [ofBigEndian]

theorem ofBigEndian_bigEndian (n v : Nat) : ofBigEndian (bigEndian n v) = v % 256 ^ n := by
  induction n generalizing v with
  | zero => simp [bigEndian,ofBigEndian,Nat.mod_one]
  | succ n ih =>
    have last : (UInt8.ofNat v).toNat = v % 256 := by simp
    rw [bigEndian,ofBigEndian_snoc,ih,last,Nat.pow_succ',Nat.mod_mul,Nat.mul_comm,Nat.add_comm]

theorem ofBigEndian_of_lt {n v : Nat} (fits : v < 256 ^ n) : ofBigEndian (bigEndian n v) = v := by
  rw [ofBigEndian_bigEndian,Nat.mod_eq_of_lt fits]

/-- Bytes are read and written back without loss. -/
theorem bigEndian_ofBigEndian (bytes : List UInt8) : bigEndian bytes.length (ofBigEndian bytes) = bytes := by
  induction bytes using List.reverseRecOn with
  | nil => rfl
  | append_singleton bytes b ih =>
    have bound := b.toNat_lt
    have high : (ofBigEndian bytes * 256 + b.toNat) / 256 = ofBigEndian bytes := by omega
    have low : UInt8.ofNat (ofBigEndian bytes * 256 + b.toNat) = b := by
      apply UInt8.toNat_inj.mp
      rw [UInt8.toNat_ofNat']
      omega
    rw [List.length_append,List.length_singleton,bigEndian,ofBigEndian_snoc,high,low,ih]

theorem ofBigEndian_lt (bytes : List UInt8) : ofBigEndian bytes < 256 ^ bytes.length := by
  induction bytes using List.reverseRecOn with
  | nil => simp [ofBigEndian]
  | append_singleton bytes b ih =>
    have bound := b.toNat_lt
    rw [ofBigEndian_snoc,List.length_append,List.length_singleton,Nat.pow_succ]
    omega

theorem uint64_bigEndian (v : UInt64) : UInt64.ofNat (ofBigEndian (bigEndian 8 v.toNat)) = v := by
  rw [ofBigEndian_of_lt (by simpa using v.toNat_lt)]
  exact UInt64.ofNat_toNat

end Sealing
