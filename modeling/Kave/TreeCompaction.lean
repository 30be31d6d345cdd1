import Kave.TreeIndex

/-! Compaction of the tree: key by key, each visit changing one item. -/

namespace Kave

namespace TreeIndex

open KeyIndex

/-- The records of an item of the tree that may be missing. -/
def keysOf (item : Option KeyIndex) : List KvBucketKey := (item.map bucketKeys).getD []

/-- What compaction at `c` makes of one item of the tree, which may leave it. -/
structure ItemCompacted (c : Int) (item item' : Option KeyIndex) (kept : List Revision) : Prop where
  shape : ∀ ki', item' = some ki' → ki'.isEmpty = false ∧ ki'.WellFormed ∧ ∃ ki, item = some ki ∧ ki.key = ki'.key
  view : ∀ t, c ≤ t → item'.bind (·.view t) = item.bind (·.view t)
  keys : ∃ gone, keysOf item = gone ++ keysOf item' ∧ ∀ bk ∈ gone, bk.rev.main ≤ c ∧ Superseded c (keysOf item) bk
  retains : ¬ DeletedThenPut c (keysOf item) → ∀ bk ∈ keysOf item', bk.rev.main ≤ c → bk.rev ∈ kept
  stays : ¬ DeletedThenPut c (keysOf item) → ∀ bk ∈ keysOf item,
    bk ∈ keysOf item' ↔ ¬(bk.rev.main ≤ c ∧ Superseded c (keysOf item) bk)
  tombs : ∀ bk ∈ keysOf item', bk.tombstone = true → c ≤ bk.rev.main
  keeper : ∀ bk, keeper c (keysOf item) = some bk → bk ∈ keysOf item' ∧ bk.rev ∈ kept

theorem ItemCompacted.mono {c : Int} {item item' : Option KeyIndex} {kept more : List Revision}
    (compacted : ItemCompacted c item item' kept) (subset : kept ⊆ more) : ItemCompacted c item item' more where
  shape := compacted.shape
  view := compacted.view
  keys := compacted.keys
  retains clean bk member le := subset (compacted.retains clean bk member le)
  stays := compacted.stays
  tombs := compacted.tombs
  keeper bk found := ⟨(compacted.keeper bk found).1,subset (compacted.keeper bk found).2⟩

theorem ItemCompacted.missing (c : Int) (kept : List Revision) : ItemCompacted c none none kept := by
  constructor <;> simp [keysOf,KeyIndex.keeper]

theorem ItemCompacted.subset {c : Int} {item item' : Option KeyIndex} {kept : List Revision}
    (compacted : ItemCompacted c item item' kept) {bk : KvBucketKey} (member : bk ∈ keysOf item') : bk ∈ keysOf item := by
  obtain ⟨gone,keys,-⟩ := compacted.keys
  rw [keys]
  exact List.mem_append_right _ member

theorem item_compacted {c : Int} {ki ki' : KeyIndex} {kept : List Revision} (wellFormed : ki.WellFormed)
    (compacted : Compacted c ki ki' kept) :
    ItemCompacted c (some ki) (if ki'.isEmpty then none else some ki') kept := by
  have keys : keysOf (if ki'.isEmpty then none else some ki') = ki'.bucketKeys := by
    rcases compacted.shape with ⟨empty,none⟩ | ⟨full,-⟩
    · simp [empty,keysOf,none]
    · simp [full,keysOf]
  constructor
  · intro ki₂ after
    rcases compacted.shape with ⟨empty,-⟩ | ⟨full,shape⟩
    · simp [empty] at after
    · simp only [full,Bool.false_eq_true,if_false,Option.some.injEq] at after
      subst after
      exact ⟨full,shape,ki,rfl,compacted.key.symm⟩
  · intro t le
    rw [Option.bind_some,← compacted.view t le]
    rcases compacted.shape with ⟨empty,-⟩ | ⟨full,-⟩
    · have dead : ki'.view t = none := by simp [KeyIndex.view,KeyIndex.get,empty,Except.toOption]
      simp [empty,dead]
    · simp [full]
  · rw [keys]; exact compacted.keys
  · rw [keys]; exact compacted.retains
  · rw [keys]; exact fun clean bk member => compacted.mem_iff wellFormed clean member
  · rw [keys]; exact compacted.tombs
  · rw [keys]
    intro bk found
    have here := compacted.keeper bk found
    obtain ⟨bk',inside,same⟩ := compacted.kept_mem bk.rev here
    obtain ⟨gone,split,-⟩ := compacted.keys
    obtain ⟨ended,current,lives⟩ := wellFormed
    have both : bk' ∈ ki.bucketKeys := by
      rw [split]
      exact List.mem_append_right _ inside
    have equal := eq_of_rev_eq lives.keys_sorted both (keeper_cases lives.keys_sorted found).1 same
    rw [← equal]
    exact ⟨inside,by rw [equal]; exact here⟩

/-- The visit of one key: only its item changes, and what joins the kept revisions is still in the tree. -/
structure KeyVisited (c : Int) (ti ti' : TreeIndex) (key : Bytes) (kept : List Revision) : Prop where
  valid : ti'.Valid
  other : ∀ k, k ≠ key → ti'.find? k = ti.find? k
  item : ItemCompacted c (ti.find? key) (ti'.find? key) kept
  kept_mem : ∀ rev ∈ kept, rev.main ≤ c ∧ ∃ bk ∈ ti'.records key, bk.rev = rev

theorem compactKey_visited {ti : TreeIndex} (valid : ti.Valid) (c : Int) {key : Bytes} (avail : List Revision)
    (present : (ti.find? key).isSome) :
    ∃ ti' kept, ti.compactKey c key avail = .ok (ti',avail ++ kept) ∧ KeyVisited c ti ti' key kept := by
  obtain ⟨ki,found⟩ := Option.isSome_iff_exists.mp present
  obtain ⟨named,wellFormed⟩ := valid key ki found
  obtain ⟨ki',kept,run,compacted⟩ := wellFormed.compact c avail
  have item := item_compacted wellFormed compacted
  have after : SortedMap.find? (if ki'.isEmpty then ti.erase key else ti.insert key ki') key
      = if ki'.isEmpty then none else some ki' := by
    split <;> simp
  have visit : ti.compactKey c key avail =
      .ok (if ki'.isEmpty then ti.erase key else ti.insert key ki',avail ++ kept) := by
    simp only [compactKey,found,run,Except.map]
  refine ⟨_,kept,visit,?_,?_,?_,?_⟩
  · intro k ki₂ found₂
    by_cases same : k = key
    · subst same
      rw [after] at found₂
      obtain ⟨-,shape,ki₁,first,name⟩ := item.shape ki₂ found₂
      cases first
      exact ⟨name.symm.trans named,shape⟩
    · refine valid k ki₂ ?_
      revert found₂
      split <;> simp [same]
  · intro k different
    split <;> simp [different]
  · rw [after,found]; exact item
  · intro rev member
    refine ⟨compacted.kept_le rev member,?_⟩
    obtain ⟨bk,inside,same⟩ := compacted.kept_mem rev member
    refine ⟨bk,?_,same⟩
    rw [records,after]
    rcases compacted.shape with ⟨empty,none⟩ | ⟨full,-⟩
    · simp [none] at inside
    · simpa [full] using inside

/-- The loop compacts every key it visits and leaves the others. -/
theorem compactLoop_spec (c : Int) {keys : List Bytes} (distinct : keys.Nodup) {ti : TreeIndex} (valid : ti.Valid)
    (present : ∀ key ∈ keys, (ti.find? key).isSome) (avail : List Revision) :
    ∃ ti' kept, compactLoop c keys ti avail = (ti',.ok (avail ++ kept)) ∧ ti'.Valid ∧
      (∀ key ∈ keys, ItemCompacted c (ti.find? key) (ti'.find? key) kept) ∧
      (∀ key, key ∉ keys → ti'.find? key = ti.find? key) ∧
      ∀ rev ∈ kept, rev.main ≤ c ∧ ∃ key ∈ keys, ∃ bk ∈ ti'.records key, bk.rev = rev := by
  induction keys generalizing ti avail with
  | nil => exact ⟨ti,[],by simp [compactLoop],valid,by simp,by simp,by simp⟩
  | cons key rest ih =>
    obtain ⟨notIn,distinctRest⟩ := List.nodup_cons.mp distinct
    obtain ⟨ti₁,kept₁,run₁,visited⟩ := compactKey_visited valid c avail (present key (by simp))
    have present₁ : ∀ k ∈ rest, (ti₁.find? k).isSome := by
      intro k inside
      rw [visited.other k fun same => notIn (same ▸ inside)]
      exact present k (by simp [inside])
    obtain ⟨ti₂,kept₂,run₂,valid₂,items,others,sound⟩ := ih distinctRest visited.valid present₁ (avail ++ kept₁)
    have here : ti₂.find? key = ti₁.find? key := others key notIn
    refine ⟨ti₂,kept₁ ++ kept₂,by simp [compactLoop,run₁,run₂],valid₂,?_,?_,?_⟩
    · intro k inside
      rcases List.mem_cons.mp inside with same | later
      · rw [same,here]
        exact visited.item.mono (by simp)
      · have different : k ≠ key := fun same => notIn (same ▸ later)
        rw [← visited.other k different]
        exact (items k later).mono (by simp)
    · intro k notInside
      rw [List.mem_cons,not_or] at notInside
      rw [others k notInside.2,visited.other k notInside.1]
    · intro rev member
      rcases List.mem_append.mp member with first | later
      · obtain ⟨le,bk,inside,same⟩ := visited.kept_mem rev first
        refine ⟨le,key,by simp,bk,?_,same⟩
        rw [records,here]
        exact inside
      · obtain ⟨le,k,inside,bk,bkIn,same⟩ := sound rev later
        exact ⟨le,k,by simp [inside],bk,bkIn,same⟩

/-- A well-formed index is compacted without an error, key by key. -/
theorem Valid.compact {ti : TreeIndex} (valid : ti.Valid) (c : Int) :
    ∃ ti' kept, ti.compact c = (ti',.ok kept) ∧ ti'.Valid ∧
      (∀ key, ItemCompacted c (ti.find? key) (ti'.find? key) kept) ∧
      ∀ rev ∈ kept, rev.main ≤ c ∧ ∃ key, ∃ bk ∈ ti'.records key, bk.rev = rev := by
  obtain ⟨ti',kept,run,valid',items,others,sound⟩ :=
    compactLoop_spec c ti.keys_sorted.nodup valid (fun key => SortedMap.mem_keys.mp) []
  refine ⟨ti',kept,run,valid',fun key => ?_,fun rev member => ?_⟩
  · by_cases inside : key ∈ ti.keys
    · exact items key inside
    · have gone : ti.find? key = none := by
        rwa [SortedMap.mem_keys, Bool.not_eq_true, Option.isSome_eq_false_iff, Option.isNone_iff_eq_none] at inside
      rw [others key inside,gone]
      exact .missing c kept
  · obtain ⟨le,key,-,bk,inside,same⟩ := sound rev member
    exact ⟨le,key,bk,inside,same⟩

end TreeIndex

end Kave
