import Kave.SortedMap

/-! Revisions, bucket keys and byte strings with their orders. A Go `int64` is an unbounded `Int` here: revisions
    count transactions from zero, so the overflow guards of the source never fire, and on non-negative
    revisions the order of the big-endian encoding is the order of the numbers. -/

namespace Kave

/-- Machine bytes in their numeric order. -/
instance linearOrderUInt8 : LinearOrder UInt8 where
  le_refl := UInt8.le_refl
  le_trans _ _ _ := UInt8.le_trans
  le_antisymm _ _ := UInt8.le_antisymm
  le_total := UInt8.le_total
  lt_iff_le_not_ge a b := by rw [UInt8.lt_iff_le_and_ne]; grind [UInt8.le_antisymm, UInt8.le_refl]
  toDecidableLE := inferInstance
  toDecidableLT := inferInstance
  toDecidableEq := inferInstance

/-- Machine words in their numeric order. -/
instance linearOrderUInt64 : LinearOrder UInt64 where
  le_refl := UInt64.le_refl
  le_trans _ _ _ := UInt64.le_trans
  le_antisymm _ _ := UInt64.le_antisymm
  le_total := UInt64.le_total
  lt_iff_le_not_ge a b := by rw [UInt64.lt_iff_le_and_ne]; grind [UInt64.le_antisymm, UInt64.le_refl]
  toDecidableLE := inferInstance
  toDecidableLT := inferInstance
  toDecidableEq := inferInstance

/-- A byte string, ordered lexicographically as `bytes.Compare` does. -/
abbrev Bytes := List UInt8

/-- A transaction number and the position of one change inside the transaction. -/
structure Revision where
  main : Int
  sub : Int
deriving DecidableEq, Repr

namespace Revision

/-- The zero value `Revision{}`. -/
def zero : Revision := ⟨0,0⟩

def greaterThan (r b : Revision) : Bool :=
  if r.main > b.main then true
  else if r.main < b.main then false
  else r.sub > b.sub

private def pair (r : Revision) : Int ×ₗ Int := toLex (r.main,r.sub)

private theorem pair_injective : Function.Injective pair := by
  rintro ⟨m,s⟩ ⟨m',s'⟩ same
  simpa [pair] using same

instance : LinearOrder Revision := LinearOrder.lift' pair pair_injective

theorem lt_iff {a b : Revision} : a < b ↔ a.main < b.main ∨ a.main = b.main ∧ a.sub < b.sub :=
  Prod.Lex.lt_iff

theorem le_iff {a b : Revision} : a ≤ b ↔ a.main < b.main ∨ a.main = b.main ∧ a.sub ≤ b.sub :=
  Prod.Lex.le_iff

theorem main_le_of_le {a b : Revision} (le : a ≤ b) : a.main ≤ b.main := by
  rcases le_iff.mp le with less | same <;> omega

theorem main_le_of_lt {a b : Revision} (less : a < b) : a.main ≤ b.main := main_le_of_le less.le

theorem lt_of_main_lt {a b : Revision} (less : a.main < b.main) : a < b := lt_iff.mpr (Or.inl less)

theorem greaterThan_iff {a b : Revision} : a.greaterThan b = true ↔ b < a := by
  rw [lt_iff,greaterThan]
  split
  · simp only [true_iff]; omega
  · split
    · simp only [Bool.false_eq_true,false_iff]; omega
    · simp only [decide_eq_true_eq]; omega

end Revision

/-- The key of a record in the key/value bucket: a revision and the tombstone marker. -/
structure KvBucketKey where
  rev : Revision
  tombstone : Bool
deriving DecidableEq, Repr

namespace KvBucketKey

def newKvBucketKey (main sub : Int) (isTombstone : Bool) : KvBucketKey := ⟨⟨main,sub⟩,isTombstone⟩

/-- The bucket key of an unmarked record. -/
def encodeRevisionAsBucketKey (rev : Revision) : KvBucketKey := ⟨rev,false⟩

private def bucketPair (k : KvBucketKey) : Revision ×ₗ Bool := toLex (k.rev,k.tombstone)

private theorem bucketPair_injective : Function.Injective bucketPair := by
  rintro ⟨r,t⟩ ⟨r',t'⟩ same
  simpa [bucketPair] using same

/-- The order of the encoded keys: the marker is one more byte after the revision. -/
instance : LinearOrder KvBucketKey := LinearOrder.lift' bucketPair bucketPair_injective

theorem lt_iff {a b : KvBucketKey} : a < b ↔ a.rev < b.rev ∨ a.rev = b.rev ∧ a.tombstone < b.tombstone :=
  Prod.Lex.lt_iff

theorem rev_le_of_lt {a b : KvBucketKey} (less : a < b) : a.rev ≤ b.rev := by
  rcases lt_iff.mp less with below | same
  · exact below.le
  · exact same.1.le

/-- The unmarked key is the least of its revision. -/
theorem unmarked_le_iff {r : Revision} {k : KvBucketKey} : (⟨r,false⟩ : KvBucketKey) ≤ k ↔ r ≤ k.rev := by
  rw [← not_lt,← not_lt,lt_iff]
  simp

theorem lt_unmarked_iff {r : Revision} {k : KvBucketKey} : k < ⟨r,false⟩ ↔ k.rev < r := by
  rw [← not_le,unmarked_le_iff,not_le]

end KvBucketKey

end Kave
