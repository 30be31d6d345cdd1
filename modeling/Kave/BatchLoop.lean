import Kave.DeleteLoop

/-! The batch loop of `doCompact` with its overflow branch, against one unbounded scan. The bucket orders its keys by
    their bytes, so main and sub revisions are read as unsigned numbers here. -/

namespace Kave

/-- `math.MaxInt64`. -/
def maxInt64 : Int := 2 ^ 63 - 1

/-- `nextMainRevOverflowing` with its check: nothing where the sum would leave int64. -/
def nextMainRevChecked (r : Revision) (delta : Int) : Option Revision :=
  if r.main > maxInt64 - delta then none else some (nextMainRevOverflowing r delta)

theorem nextMainRevChecked_some {r nextRev : Revision} {delta : Int} (checked : nextMainRevChecked r delta = some nextRev) :
    nextRev = nextMainRevOverflowing r delta := by
  rw [nextMainRevChecked] at checked
  split at checked
  · cases checked
  · exact (Option.some.inj checked).symm

namespace KvStore

/-- The loop with the check. -/
def deleteLoop (targetRev : Int) (retain : List Revision) : Nat → KvBucketKey → Bool → KvStore → Option KvStore :=
  batchLoop (nextMainRevChecked · 1) targetRev retain

theorem batchLoop_mono {next : Revision → Option Revision} {targetRev : Int} {retain : List Revision} {fuel more : Nat}
    {start : KvBucketKey} {done : Bool} {s out : KvStore} (ran : batchLoop next targetRev retain fuel start done s = some out)
    (le : fuel ≤ more) : batchLoop next targetRev retain more start done s = some out := by
  induction fuel generalizing more start done s with
  | zero => cases ran
  | succ fuel ih =>
    obtain ⟨more,rfl⟩ := Nat.exists_eq_add_of_lt (Nat.lt_of_succ_le le)
    rw [batchLoop] at ran ⊢
    split at ran
    · exact ran
    · split at ran
      · exact ih ran (by omega)
      · exact ih ran (by omega)

end KvStore

/-- Every full batch of the list ends at a record from which the next scan, with the check, skips nothing. -/
def Fits (keys : List KvBucketKey) : Prop := ReachesAll (nextMainRevChecked · 1) keys

instance (keys : List KvBucketKey) : Decidable (Fits keys) := inferInstanceAs (Decidable (ReachesAll _ keys))

variable {kv kv' : KvBucket} {targetRev : Int} {retain : List Revision}

/-- The bytes of a revision are unsigned numbers. -/
def Unsigned (kv : KvBucket) : Prop := ∀ bk, (kv.find? bk).isSome → 0 ≤ bk.rev.main ∧ 0 ≤ bk.rev.sub

instance (kv : KvBucket) : Decidable (Unsigned kv) :=
  decidable_of_iff (∀ bk ∈ kv.keys, 0 ≤ bk.rev.main ∧ 0 ≤ bk.rev.sub) (by simp only [SortedMap.mem_keys, Unsigned])

theorem Unsigned.pruned {may : KvBucketKey → Prop} (unsigned : Unsigned kv)
    (pruned : Pruned may kv kv') : Unsigned kv' := fun bk present => by
  obtain ⟨entry,found⟩ := Option.isSome_iff_exists.mp present
  exact unsigned bk (by rw [pruned.mem found]; rfl)

theorem Unsigned.main_le (unsigned : Unsigned kv) {bk : KvBucketKey} (present : (kv.find? bk).isSome) :
    bk.rev < ⟨targetRev + 1,0⟩ ↔ bk.rev.main ≤ targetRev := by
  have sub := (unsigned bk present).2
  rw [Revision.lt_iff]
  simp only
  omega

/-- The first `n` puts of a key whose puts have the given revisions. -/
def putsAt (rev : Nat → Revision) (ascending : StrictMono rev) (n : Nat) : KvBucket :=
  ⟨(List.range n).map fun i => (⟨rev i,false⟩,⟨[97],some [1],(rev 0).main,(rev i).main,i + 1,0⟩),
    List.pairwise_map.mpr (List.pairwise_lt_range.imp fun less => KvBucketKey.lt_iff.mpr (Or.inl (ascending less)))⟩

namespace KvStore

/-- Below the largest main revision the check never fails. -/
theorem batchLoop_checked (below : targetRev < maxInt64) (fuel : Nat) (start : KvBucketKey) (s : KvStore)
    (unsigned : Unsigned s.backend.buckets.kv) : batchLoop (nextMainRevChecked · 1) targetRev retain fuel start false s =
      batchLoop (fun r => some (nextMainRevOverflowing r 1)) targetRev retain fuel start false s := by
  induction fuel generalizing start s with
  | zero => rfl
  | succ fuel ih =>
    rw [batchLoop,batchLoop]
    rcases s.deleteBatch_cases targetRev retain start false with
      ⟨b,last,run,-⟩ | ⟨b,earlier,hundredth,rest,split,size,run,kv,batched⟩
    · rw [run]
    · have checked : nextMainRevChecked hundredth.rev 1 = some (nextMainRevOverflowing hundredth.rev 1) := by
        have here : hundredth ∈ doomed targetRev retain start s.backend.buckets.kv := by rw [split]; simp
        obtain ⟨present,-,upTo,-⟩ := mem_doomed.mp here
        have main := (unsigned.main_le present).mp upTo
        exact if_neg (by omega)
      rw [run]
      simp only [checked]
      exact ih _ _ (unsigned.pruned batched.kv)

/-- Below the largest main revision the loop is `compactBatches`. -/
theorem deleteLoop_compactBatches (below : targetRev < maxInt64) (fuel : Nat) (start : KvBucketKey) (s : KvStore)
    (unsigned : Unsigned s.backend.buckets.kv)
    (enough : (doomed targetRev retain start s.backend.buckets.kv).length < fuel) :
    deleteLoop targetRev retain fuel start false s = some (compactBatches targetRev retain fuel start s) := by
  obtain ⟨b,loop,-⟩ := @batchLoop_spec retain targetRev (nextMainRevChecked · 1) nextMainRevChecked_some fuel start s enough
  rw [compactBatches,← batchLoop_checked below fuel start s unsigned,deleteLoop,loop]
  rfl

/-- A hundred and fifty transactions that put one key: the second batch takes the last forty-nine records. -/
theorem deleteLoop_compactBatches_two_batches :
    let kv := putsAt (fun i => ⟨i + 1,0⟩) (fun i j less => Revision.lt_of_main_lt (by simpa using less)) 150
    let s := KvStore.new ⟨{ Buckets.empty with kv := kv },[]⟩
    deleteLoop 150 [⟨150,0⟩] 200 ⟨⟨0,0⟩,false⟩ false s = some (compactBatches 150 [⟨150,0⟩] 200 ⟨⟨0,0⟩,false⟩ s) ∧
      (s.deleteBatch 150 [⟨150,0⟩] ⟨⟨0,0⟩,false⟩ false).2.1 = false ∧
      (compactBatches 150 [⟨150,0⟩] 200 ⟨⟨0,0⟩,false⟩ s).backend.buckets.kv.keys = [⟨⟨150,0⟩,false⟩] :=
  ⟨deleteLoop_compactBatches (by decide) 200 _ _ (by decide +kernel) (by decide +kernel),by decide +kernel,by decide +kernel⟩

end KvStore

/-! ### One unbounded scan -/

/-- The bucket without the records of the range that are not retained. -/
def Compaction.onePass (c : Compaction) (retain : List Revision) (kv : KvBucket) : KvBucket :=
  kv.filter fun bk _ => !(c.compactedRev ≤ bk.rev.main && bk.rev.main ≤ c.targetRev && bk.rev ∉ retain)

/-- Where the loop starts. -/
def Compaction.start (c : Compaction) : KvBucketKey := KvBucketKey.encodeRevisionAsBucketKey ⟨c.compactedRev,0⟩

theorem Unsigned.mem_doomed_start (unsigned : Unsigned kv) (c : Compaction) (retain : List Revision)
    (bk : KvBucketKey) : bk ∈ doomed c.targetRev retain c.start kv ↔
      (kv.find? bk).isSome ∧ c.compactedRev ≤ bk.rev.main ∧ bk.rev.main ≤ c.targetRev ∧ bk.rev ∉ retain := by
  rw [mem_doomed]
  refine and_congr_right fun present => ?_
  rw [unsigned.main_le present,Compaction.start,KvBucketKey.encodeRevisionAsBucketKey,KvBucketKey.unmarked_le_iff,
    Revision.le_iff]
  have sub := (unsigned bk present).2
  refine and_congr_left fun _ => ?_
  simp only
  omega

theorem Unsigned.eq_onePass_iff (unsigned : Unsigned kv) (c : Compaction) (retain : List Revision)
    (pruned : Pruned (Removable c.targetRev retain c.start) kv kv') :
    kv' = c.onePass retain kv ↔ Cleared (doomed c.targetRev retain c.start kv) kv' := by
  have kept : ∀ bk, (c.onePass retain kv).find? bk =
      if bk ∈ doomed c.targetRev retain c.start kv then none else kv.find? bk := by
    intro bk
    rw [Compaction.onePass,SortedMap.find_filter]
    cases found : kv.find? bk with
    | none => simp
    | some entry =>
      have member := unsigned.mem_doomed_start c retain bk
      rw [found] at member
      by_cases inside : bk ∈ doomed c.targetRev retain c.start kv
      · obtain ⟨-,low,high,notKept⟩ := member.mp inside
        simp [inside,low,high,notKept]
      · rw [if_neg inside]
        rw [member] at inside
        simpa [imp_iff_not_or,or_assoc] using inside
  constructor
  · rintro rfl bk member
    rw [kept,if_pos member]
  · intro cleared
    refine SortedMap.ext_find fun bk => ?_
    rw [kept]
    split
    next member => exact cleared bk member
    next spared =>
      rcases pruned bk with same | ⟨gone,removable⟩
      · exact same
      · cases found : kv.find? bk with
        | none => exact gone
        | some entry => exact absurd (mem_doomed.mpr ⟨by rw [found]; rfl,removable⟩) spared

namespace KvStore

/-- For every bucket, retained set and range the loop returns, and what it leaves is what a single scan leaves exactly if
    every full batch ends at a record from which the next scan does not skip anything. -/
theorem batched_compaction_is_one_pass_iff (s : KvStore) (unsigned : Unsigned s.backend.buckets.kv) (c : Compaction)
    (retain : List Revision) :
    ∃ out, (∀ fuel > s.backend.buckets.kv.entries.length, deleteLoop c.targetRev retain fuel c.start false s = some out) ∧
      (out.backend.buckets.kv = c.onePass retain s.backend.buckets.kv ↔
        Fits (doomed c.targetRev retain c.start s.backend.buckets.kv)) := by
  obtain ⟨b,loop,batched,cleared⟩ := @batchLoop_spec retain c.targetRev (nextMainRevChecked · 1) nextMainRevChecked_some
    (s.backend.buckets.kv.entries.length + 1) c.start s
    (Nat.lt_succ_of_le (doomed_length_le c.targetRev retain c.start s.backend.buckets.kv))
  refine ⟨{ s with backend := b },fun fuel more => batchLoop_mono loop more,?_⟩
  exact (unsigned.eq_onePass_iff c retain batched.kv).trans cleared

/-- A hundred and fifty transactions that put one key. -/
theorem batched_compaction_is_one_pass_plain :
    let kv := putsAt (fun i => ⟨i + 1,0⟩) (fun i j less => Revision.lt_of_main_lt (by simpa using less)) 150
    let s := KvStore.new ⟨{ Buckets.empty with kv := kv },[]⟩
    ∃ out, (∀ fuel > 150, deleteLoop 150 [⟨150,0⟩] fuel (Compaction.mk 150 0).start false s = some out) ∧
      out.backend.buckets.kv = (Compaction.mk 150 0).onePass [⟨150,0⟩] kv := by
  intro kv s
  obtain ⟨out,loop,exact_⟩ := batched_compaction_is_one_pass_iff s (by decide +kernel) ⟨150,0⟩ [⟨150,0⟩]
  have length : s.backend.buckets.kv.entries.length = 150 := by decide +kernel
  rw [length] at loop
  exact ⟨out,loop,exact_.mpr (by decide +kernel)⟩

/-- One transaction puts a key a hundred and two times; a compaction there retains the last put, but the loop restarts
    behind the transaction and leaves the put before it as well. -/
theorem batched_compaction_skips_sub_revisions :
    let kv := putsAt (fun i => ⟨1,i⟩) (fun i j less => Revision.lt_iff.mpr (Or.inr ⟨rfl,by simpa using less⟩)) 102
    let s := KvStore.new ⟨{ Buckets.empty with kv := kv },[]⟩
    (deleteLoop 1 [⟨1,101⟩] 200 (Compaction.mk 1 0).start false s).map (fun out => out.backend.buckets.kv.keys) =
        some [⟨⟨1,100⟩,false⟩,⟨⟨1,101⟩,false⟩] ∧
      ((Compaction.mk 1 0).onePass [⟨1,101⟩] kv).keys = [⟨⟨1,101⟩,false⟩] := by
  decide +kernel

end KvStore

end Kave
