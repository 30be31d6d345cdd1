import Kave.Compaction

/-! The delete loop of a compaction: what one committed batch removes, that the loop ends, and when it removes
    everything it should. -/

namespace Kave

/-- The records up to `targetRev` from `start` on that are not retained, in the order of the scan. -/
def doomed (targetRev : Int) (retain : List Revision) (start : KvBucketKey) (kv : KvBucket) : List KvBucketKey :=
  ((kv.ascend start fun bk => bk < KvBucketKey.encodeRevisionAsBucketKey ⟨targetRev + 1,0⟩).map (·.1)).filter
    fun bk => bk.rev ∉ retain

variable {bk : KvBucketKey} {retain : List Revision} {start : KvBucketKey} {targetRev : Int} {kv kv' kv'' : KvBucket}
    {may more : KvBucketKey → Prop} {earlier rest keys : List KvBucketKey} {hundredth : KvBucketKey}

theorem mem_doomed :
    bk ∈ doomed targetRev retain start kv ↔
      (kv.find? bk).isSome ∧ start ≤ bk ∧ bk.rev < ⟨targetRev + 1,0⟩ ∧ bk.rev ∉ retain := by
  rw [doomed,SortedMap.ascend_eq_filter]
  · change bk ∈ (SortedMap.keys _).filter _ ↔ _
    rw [List.mem_filter,SortedMap.mem_keys,SortedMap.isSome_find_filter kv fun k =>
      decide (start ≤ k) && decide (k < KvBucketKey.encodeRevisionAsBucketKey ⟨targetRev + 1,0⟩)]
    simp [KvBucketKey.encodeRevisionAsBucketKey,KvBucketKey.lt_unmarked_iff,and_assoc]
  · intro a b _ le below
    simp only [decide_eq_true_eq] at below ⊢
    exact lt_of_le_of_lt le below

theorem doomed_sorted (targetRev : Int) (retain : List Revision) (start : KvBucketKey) (kv : KvBucket) :
    (doomed targetRev retain start kv).Pairwise (· < ·) := by
  refine List.Pairwise.filter _ (List.pairwise_map.mpr ?_)
  rw [SortedMap.ascend_eq_filter]
  · exact SortedMap.sorted _
  · intro a b _ le below
    simp only [decide_eq_true_eq] at below ⊢
    exact lt_of_le_of_lt le below

theorem doomed_length_le (targetRev : Int) (retain : List Revision) (start : KvBucketKey) (kv : KvBucket) :
    (doomed targetRev retain start kv).length ≤ kv.entries.length := by
  refine (List.length_filter_le _ _).trans ?_
  rw [List.length_map]
  exact ((List.takeWhile_sublist _).trans (List.dropWhile_sublist _)).length_le

/-- The scan either sees everything and collects all it should, or stops behind the hundredth record collected. -/
theorem scanBatch_cases (retain : List Revision) (visited batch : List KvBucketKey) (last : Revision)
    (room : batch.length ≤ maxCompactionBatchSize)
    (full : batch.length = maxCompactionBatchSize → batch.getLast?.map (·.rev) = some last) :
    (∃ last', scanBatch retain visited batch last = (false,batch ++ visited.filter (fun bk => bk.rev ∉ retain),last') ∧
      (batch ++ visited.filter (fun bk => bk.rev ∉ retain)).length ≤ maxCompactionBatchSize) ∨
    ∃ earlier hundredth rest, batch ++ visited.filter (fun bk => bk.rev ∉ retain) = earlier ++ hundredth :: rest ∧
      earlier.length + 1 = maxCompactionBatchSize ∧
      scanBatch retain visited batch last = (true,earlier ++ [hundredth],hundredth.rev) := by
  induction visited generalizing batch last with
  | nil => exact Or.inl ⟨last,by simp [scanBatch],by simpa using room⟩
  | cons bk rest ih =>
    rw [scanBatch]
    by_cases stop : batch.length = maxCompactionBatchSize
    · obtain ⟨hundredth,lastIs,rev⟩ := Option.map_eq_some_iff.mp (full stop)
      obtain ⟨earlier,split⟩ := List.getLast?_eq_some_iff.mp lastIs
      refine Or.inr ⟨earlier,hundredth,_,by rw [split,List.append_assoc]; rfl,by simpa [split] using stop,?_⟩
      rw [if_pos stop,split,rev]
    · rw [if_neg stop]
      by_cases kept : bk.rev ∈ retain
      · simpa [kept] using ih batch bk.rev room fun same => absurd same stop
      · have more := ih (batch ++ [bk]) bk.rev (by simp only [List.length_append,List.length_singleton]; omega)
          (fun _ => by simp)
        simpa [kept] using more

/-! ### What a batch may change -/

/-- `kv'` is `kv` without some records that `may` be removed. -/
def Pruned (may : KvBucketKey → Prop) (kv kv' : KvBucket) : Prop :=
  ∀ bk, kv'.find? bk = kv.find? bk ∨ kv'.find? bk = none ∧ may bk

theorem Pruned.trans (first : Pruned may kv kv') (second : Pruned may kv' kv'') : Pruned may kv kv'' := fun bk => by
  rcases second bk with same | gone
  · rw [same]; exact first bk
  · exact Or.inr gone

theorem Pruned.mono (pruned : Pruned may kv kv') (implies_ : ∀ bk, may bk → more bk) : Pruned more kv kv' := fun bk =>
  (pruned bk).imp_right fun gone => ⟨gone.1,implies_ bk gone.2⟩

theorem Pruned.keeps (pruned : Pruned may kv kv') (never : ¬ may bk) : kv'.find? bk = kv.find? bk :=
  (pruned bk).resolve_right fun gone => never gone.2

theorem Pruned.mem (pruned : Pruned may kv kv') {entry : Entry} (found : kv'.find? bk = some entry) :
    kv.find? bk = some entry := by
  rcases pruned bk with same | ⟨gone,-⟩
  · rw [← same]; exact found
  · rw [gone] at found; cases found

theorem pruned_erase (only : ∀ bk ∈ keys, may bk) (kv : KvBucket) :
    Pruned may kv (keys.foldl SortedMap.erase kv) := fun bk => by
  rw [SortedMap.find_foldl_erase]
  by_cases inside : bk ∈ keys
  · exact Or.inr ⟨if_pos inside,only bk inside⟩
  · exact Or.inl (if_neg inside)

/-- The records a compaction that scans from `start` may remove at all. -/
def Removable (targetRev : Int) (retain : List Revision) (start bk : KvBucketKey) : Prop :=
  start ≤ bk ∧ bk.rev < ⟨targetRev + 1,0⟩ ∧ bk.rev ∉ retain

/-- Every record to remove is gone. -/
def Cleared (keys : List KvBucketKey) (kv : KvBucket) : Prop := ∀ bk ∈ keys, kv.find? bk = none

theorem cleared_erase (keys : List KvBucketKey) (kv : KvBucket) : Cleared keys (keys.foldl SortedMap.erase kv) :=
  fun bk member => by rw [SortedMap.find_foldl_erase,if_pos member]

theorem cleared_append : Cleared (earlier ++ rest) kv ↔ Cleared earlier kv ∧ Cleared rest kv := List.forall_mem_append

theorem Cleared.pruned (cleared : Cleared keys kv) (pruned : Pruned may kv kv') : Cleared keys kv' := fun bk member =>
  (pruned bk).elim (fun same => same.trans (cleared bk member)) fun gone => gone.1

/-- Of the buckets only records that `may` be removed go, and the target is persisted exactly if the loop is `done`. -/
structure Buckets.Batched (may : KvBucketKey → Prop) (targetRev : Int) (done : Bool) (b b' : Buckets) : Prop where
  kv : Pruned may b.kv b'.kv
  lease : b'.lease = b.lease
  ot : b'.ot = b.ot
  scheduled : b'.metadata.scheduledCompactedRev = b.metadata.scheduledCompactedRev
  finished : b'.metadata.finishedCompactedRev = if done then some targetRev else b.metadata.finishedCompactedRev

theorem Buckets.Batched.trans {done : Bool} {b b' b'' : Buckets} (first : b.Batched may targetRev false b')
    (second : b'.Batched may targetRev done b'') : b.Batched may targetRev done b'' where
  kv := first.kv.trans second.kv
  lease := second.lease.trans first.lease
  ot := second.ot.trans first.ot
  scheduled := second.scheduled.trans first.scheduled
  finished := by rw [second.finished,first.finished]; rfl

theorem Buckets.Batched.mono {done : Bool} {b b' : Buckets} (batched : b.Batched may targetRev done b')
    (implies_ : ∀ bk, may bk → more bk) : b.Batched more targetRev done b' :=
  { batched with kv := batched.kv.mono implies_ }

theorem Buckets.applyBatch_deleteKv (b : Buckets) (ks : List KvBucketKey) :
    b.applyBatch (ks.map .deleteKv) = { b with kv := ks.foldl SortedMap.erase b.kv } := by
  induction ks generalizing b with
  | nil => rfl
  | cons k rest ih => simp [ih,Buckets.apply]

theorem Backend.commit_batch (b : Backend) (batch : List KvBucketKey) (targetRev : Int) (done : Bool)
    (only : ∀ bk ∈ batch, may bk) :
    let b' := b.commit (batch.map .deleteKv ++ if done then [.putFinishedCompactedRev targetRev] else [])
    b'.buckets.kv = batch.foldl SortedMap.erase b.buckets.kv ∧ b.buckets.Batched may targetRev done b'.buckets := by
  intro b'
  have kv : b'.buckets.kv = batch.foldl SortedMap.erase b.buckets.kv := by
    rw [Backend.commit_buckets,Buckets.applyBatch_append,Buckets.applyBatch_deleteKv]
    cases done <;> rfl
  refine ⟨kv,kv ▸ pruned_erase only _,?_,?_,?_,?_⟩
  all_goals
    rw [Backend.commit_buckets,Buckets.applyBatch_append,Buckets.applyBatch_deleteKv]
    cases done <;> rfl

/-- A batch ends the loop with all records that are left, or it is full. -/
theorem KvStore.deleteBatch_cases (s : KvStore) (targetRev : Int) (retain : List Revision) (start : KvBucketKey) (done : Bool) :
    (∃ b last, s.deleteBatch targetRev retain start done = ({ s with backend := b },true,last) ∧
      (doomed targetRev retain start s.backend.buckets.kv).length ≤ maxCompactionBatchSize ∧
      b.buckets.kv = (doomed targetRev retain start s.backend.buckets.kv).foldl SortedMap.erase s.backend.buckets.kv ∧
      s.backend.buckets.Batched (Removable targetRev retain start) targetRev true b.buckets) ∨
    ∃ b earlier hundredth rest, doomed targetRev retain start s.backend.buckets.kv = earlier ++ hundredth :: rest ∧
      earlier.length + 1 = maxCompactionBatchSize ∧
      s.deleteBatch targetRev retain start done = ({ s with backend := b },done,hundredth.rev) ∧
      b.buckets.kv = (earlier ++ [hundredth]).foldl SortedMap.erase s.backend.buckets.kv ∧
      s.backend.buckets.Batched (Removable targetRev retain start) targetRev done b.buckets := by
  have removable : ∀ bk ∈ doomed targetRev retain start s.backend.buckets.kv, Removable targetRev retain start bk :=
    fun bk member => (mem_doomed.mp member).2
  rcases scanBatch_cases retain
    ((s.backend.buckets.kv.ascend start fun bk => bk < KvBucketKey.encodeRevisionAsBucketKey ⟨targetRev + 1,0⟩).map (·.1))
    [] Revision.zero (by simp) (by simp [maxCompactionBatchSize]) with ⟨last,scan,short⟩ | ⟨earlier,hundredth,rest,split,size,scan⟩
  · refine Or.inl ⟨_,last,?_,short,s.backend.commit_batch _ targetRev true removable⟩
    simp [deleteBatch,scan,doomed]
  · have only : ∀ bk ∈ earlier ++ [hundredth], Removable targetRev retain start bk := fun bk inside => removable bk (by
      rw [doomed,← List.nil_append (List.filter _ _),split,List.append_cons]
      exact List.mem_append_left _ inside)
    refine Or.inr ⟨_,earlier,hundredth,rest,split,size,?_,s.backend.commit_batch _ targetRev done only⟩
    have count : ¬ (earlier.length + 1 < maxCompactionBatchSize) := by omega
    simp only [deleteBatch,scan]
    simp [count]

theorem KvStore.compactBatch_batched (s : KvStore) (targetRev : Int) (retain : List Revision) (start : KvBucketKey) :
    ∃ b, (s.compactBatch targetRev retain start).1 = { s with backend := b } ∧ s.backend.buckets.Batched
      (Removable targetRev retain start) targetRev (s.compactBatch targetRev retain start).2.isNone b.buckets := by
  rcases s.deleteBatch_cases targetRev retain start false with ⟨b,last,run,-,-,batched⟩ | ⟨b,earlier,hundredth,rest,-,-,run,-,batched⟩
  · exact ⟨b,by rw [compactBatch,run],by rw [compactBatch,run]; exact batched⟩
  · exact ⟨b,by rw [compactBatch,run],by rw [compactBatch,run]; exact batched⟩

/-! ### Where the next batch starts -/

section

variable (split : doomed targetRev retain start kv = earlier ++ hundredth :: rest)

include split

theorem doomed_shrinks_mem
    (member : bk ∈ doomed targetRev retain ⟨⟨hundredth.rev.main + 1,hundredth.rev.sub⟩,false⟩
      ((earlier ++ [hundredth]).foldl SortedMap.erase kv)) : bk ∈ rest := by
  obtain ⟨present,after,below,notKept⟩ := mem_doomed.mp member
  have here : hundredth ∈ doomed targetRev retain start kv := by rw [split]; simp
  have later : hundredth < bk := by
    rw [KvBucketKey.unmarked_le_iff] at after
    refine KvBucketKey.lt_iff.mpr (Or.inl (lt_of_lt_of_le (Revision.lt_of_main_lt ?_) after))
    exact Int.lt_succ _
  rw [SortedMap.find_foldl_erase] at present
  have notGone : bk ∉ earlier ++ [hundredth] := fun inside => by simp [inside] at present
  have old : bk ∈ doomed targetRev retain start kv :=
    mem_doomed.mpr ⟨by simpa [notGone] using present,(mem_doomed.mp here).2.1.trans later.le,below,notKept⟩
  rw [split,List.append_cons] at old
  exact (List.mem_append.mp old).resolve_left notGone

theorem doomed_shrinks :
    (doomed targetRev retain ⟨⟨hundredth.rev.main + 1,hundredth.rev.sub⟩,false⟩
      ((earlier ++ [hundredth]).foldl SortedMap.erase kv)).length ≤ rest.length :=
  ((doomed_sorted _ _ _ _).nodup.subperm fun _ => doomed_shrinks_mem split).length_le

/-- After a full batch whose next scan reaches the next record, what is left to remove is the rest of the list. -/
theorem doomed_rest (reach : ∀ next ∈ rest.head?, nextMainRevOverflowing hundredth.rev 1 ≤ next.rev) :
    doomed targetRev retain ⟨⟨hundredth.rev.main + 1,hundredth.rev.sub⟩,false⟩
      ((earlier ++ [hundredth]).foldl SortedMap.erase kv) = rest := by
  have sorted := doomed_sorted targetRev retain start kv
  rw [split] at sorted
  have behind := (List.pairwise_cons.mp (List.pairwise_append.mp sorted).2.1).2
  refine (doomed_sorted _ _ _ _).eq_of_mem_iff behind fun bk => ⟨doomed_shrinks_mem split,fun member => ?_⟩
  have old : bk ∈ doomed targetRev retain start kv := by rw [split]; simp [member]
  obtain ⟨present,-,below,notKept⟩ := mem_doomed.mp old
  have notGone : bk ∉ earlier ++ [hundredth] := by
    intro inside
    rw [List.append_cons] at sorted
    exact lt_irrefl bk ((List.pairwise_append.mp sorted).2.2 bk inside bk member)
  refine mem_doomed.mpr ⟨by rw [SortedMap.find_foldl_erase,if_neg notGone]; exact present,?_,below,notKept⟩
  obtain ⟨next,others,rfl⟩ := List.exists_cons_of_ne_nil (List.ne_nil_of_mem member)
  rw [KvBucketKey.unmarked_le_iff]
  refine (reach next rfl).trans ?_
  rcases List.mem_cons.mp member with same | later
  · rw [same]
  · exact KvBucketKey.rev_le_of_lt ((List.pairwise_cons.mp behind).1 bk later)

end

/-- A second batch from the same start finds what the first one has left. -/
theorem doomed_same_start (split : doomed targetRev retain start kv = earlier ++ rest) :
    doomed targetRev retain start (earlier.foldl SortedMap.erase kv) = rest := by
  have sorted := doomed_sorted targetRev retain start kv
  rw [split] at sorted
  have apart := (List.pairwise_append.mp sorted).2.2
  refine (doomed_sorted _ _ _ _).eq_of_mem_iff (List.pairwise_append.mp sorted).2.1 fun bk => ?_
  have old : bk ∈ earlier ++ rest ↔ _ := split ▸ mem_doomed
  rw [mem_doomed,SortedMap.find_foldl_erase]
  by_cases gone : bk ∈ earlier
  · have notLater : bk ∉ rest := fun later => lt_irrefl bk (apart bk gone bk later)
    simp [gone,notLater]
  · rw [if_neg gone,← old,List.mem_append,or_iff_right gone]

/-- The scan behind a full batch reaches the next record. Where there is no next start, one more batch takes what is left. -/
def reaches (next : Revision → Option Revision) (hundredth following : KvBucketKey) (left : Nat) : Bool :=
  match next hundredth.rev with
  | some start => start ≤ following.rev
  | none => left ≤ maxCompactionBatchSize

/-- The `i`-th cut of the list into batches is at a record whose following scan reaches the next one. -/
def reachesAt (next : Revision → Option Revision) (keys : List KvBucketKey) (i : Nat) : Bool :=
  match keys[maxCompactionBatchSize * (i + 1) - 1]?,keys[maxCompactionBatchSize * (i + 1)]? with
  | some hundredth,some following => reaches next hundredth following (keys.length - maxCompactionBatchSize * (i + 1))
  | _,_ => true

def ReachesAll (next : Revision → Option Revision) (keys : List KvBucketKey) : Prop := ∀ i < keys.length, reachesAt next keys i = true

instance (next : Revision → Option Revision) (keys : List KvBucketKey) : Decidable (ReachesAll next keys) := by
  unfold ReachesAll
  infer_instance

/-- No batch ends in the middle of what the following scan skips: it starts one transaction later, at the same
    position inside the transaction. -/
def Aligned (keys : List KvBucketKey) : Prop := ReachesAll (fun r => some (nextMainRevOverflowing r 1)) keys

instance (keys : List KvBucketKey) : Decidable (Aligned keys) := inferInstanceAs (Decidable (ReachesAll _ keys))

section

variable {next : Revision → Option Revision}

theorem reachesAt_beyond {i : Nat} (beyond : keys.length ≤ maxCompactionBatchSize * (i + 1)) : reachesAt next keys i = true := by
  rw [reachesAt,List.getElem?_eq_none beyond]
  split
  next found => cases found
  · rfl

theorem reachesAll_of_length_le (short : keys.length ≤ maxCompactionBatchSize) : ReachesAll next keys :=
  fun i _ => reachesAt_beyond (short.trans (Nat.le_mul_of_pos_right _ (Nat.succ_pos i)))

variable (size : earlier.length + 1 = maxCompactionBatchSize)

include size

theorem getElem?_behind_batch (j : Nat) : (earlier ++ hundredth :: rest)[maxCompactionBatchSize + j]? = rest[j]? := by
  rw [← size,List.getElem?_append_right (by omega),show earlier.length + 1 + j - earlier.length = j + 1 by omega]
  rfl

theorem reachesAt_behind_batch (i : Nat) : reachesAt next (earlier ++ hundredth :: rest) (i + 1) = reachesAt next rest i := by
  have cut₁ : maxCompactionBatchSize * (i + 1 + 1) - 1 = maxCompactionBatchSize + (maxCompactionBatchSize * (i + 1) - 1) := by
    simp only [maxCompactionBatchSize]; omega
  have cut₂ : maxCompactionBatchSize * (i + 1 + 1) = maxCompactionBatchSize + maxCompactionBatchSize * (i + 1) := by
    simp only [maxCompactionBatchSize]; omega
  have left : (earlier ++ hundredth :: rest).length - maxCompactionBatchSize * (i + 1 + 1) =
      rest.length - maxCompactionBatchSize * (i + 1) := by
    rw [cut₂,List.length_append,List.length_cons]
    omega
  rw [reachesAt,reachesAt,left,cut₁,cut₂,getElem?_behind_batch size,getElem?_behind_batch size]

theorem reachesAt_zero : reachesAt next (earlier ++ hundredth :: rest) 0 = true ↔
    ∀ following ∈ rest.head?, reaches next hundredth following rest.length = true := by
  have at₁ : (earlier ++ hundredth :: rest)[maxCompactionBatchSize * (0 + 1) - 1]? = some hundredth := by
    rw [← size]
    simp
  have at₂ : (earlier ++ hundredth :: rest)[maxCompactionBatchSize * (0 + 1)]? = rest.head? := by
    rw [List.head?_eq_getElem?]
    exact getElem?_behind_batch size 0
  have left : (earlier ++ hundredth :: rest).length - maxCompactionBatchSize * (0 + 1) = rest.length := by
    rw [List.length_append,List.length_cons]
    omega
  rw [reachesAt,at₁,at₂,left]
  cases rest.head? <;> simp

theorem reachesAll_batch : ReachesAll next (earlier ++ hundredth :: rest) ↔
    (∀ following ∈ rest.head?, reaches next hundredth following rest.length = true) ∧ ReachesAll next rest := by
  have length : (earlier ++ hundredth :: rest).length = maxCompactionBatchSize + rest.length := by
    rw [List.length_append,List.length_cons]
    omega
  constructor
  · intro all
    refine ⟨(reachesAt_zero size).mp (all 0 (by rw [length,← size]; omega)),fun i bound => ?_⟩
    rw [← reachesAt_behind_batch size]
    exact all (i + 1) (by rw [length,← size]; omega)
  · rintro ⟨first,later⟩ i bound
    cases i with
    | zero => exact (reachesAt_zero size).mpr first
    | succ i =>
      rw [reachesAt_behind_batch size]
      by_cases inside : i < rest.length
      · exact later i inside
      · refine reachesAt_beyond ?_
        simp only [maxCompactionBatchSize]
        omega

/-! ### The whole loop -/

theorem cleared_next (split : doomed targetRev retain start kv = earlier ++ hundredth :: rest)
    (erased : kv' = (earlier ++ [hundredth]).foldl SortedMap.erase kv)
    (checked : next hundredth.rev = some (nextMainRevOverflowing hundredth.rev 1))
    (later : Pruned (Removable targetRev retain ⟨⟨hundredth.rev.main + 1,hundredth.rev.sub⟩,false⟩) kv' kv'')
    (cleared : Cleared (doomed targetRev retain ⟨⟨hundredth.rev.main + 1,hundredth.rev.sub⟩,false⟩ kv') kv'' ↔
      ReachesAll next (doomed targetRev retain ⟨⟨hundredth.rev.main + 1,hundredth.rev.sub⟩,false⟩ kv')) :
    Cleared (doomed targetRev retain start kv) kv'' ↔ ReachesAll next (doomed targetRev retain start kv) := by
  subst erased
  have first := (cleared_erase (earlier ++ [hundredth]) kv).pruned later
  rw [split,reachesAll_batch size,List.append_cons,cleared_append,and_iff_right first]
  by_cases reach : ∀ following ∈ rest.head?, nextMainRevOverflowing hundredth.rev 1 ≤ following.rev
  · rw [doomed_rest split reach] at cleared
    rw [cleared,and_iff_right fun following first => ?_]
    rw [reaches,checked]
    exact decide_eq_true (reach following first)
  · -- the next record is behind every later start
    push Not at reach
    obtain ⟨following,head,missed⟩ := reach
    refine iff_of_false (fun all => ?_) fun fits => ?_
    · have member := List.mem_of_mem_head? head
      have never : ¬ Removable targetRev retain ⟨⟨hundredth.rev.main + 1,hundredth.rev.sub⟩,false⟩ following :=
        fun may => not_le.mpr missed (KvBucketKey.unmarked_le_iff.mp may.1)
      have left := doomed_same_start (split.trans (List.append_cons _ _ _))
      have present := (mem_doomed.mp (left ▸ member)).1
      rw [← later.keeps never,all following member] at present
      cases present
    · have reach := fits.1 following head
      rw [reaches,checked] at reach
      exact not_le.mpr missed (of_decide_eq_true reach)

theorem cleared_last (split : doomed targetRev retain start kv = earlier ++ hundredth :: rest)
    (checked : next hundredth.rev = none) (first : Cleared (earlier ++ [hundredth]) kv'')
    (cleared : Cleared rest kv'' ↔ rest.length ≤ maxCompactionBatchSize) :
    Cleared (doomed targetRev retain start kv) kv'' ↔ ReachesAll next (doomed targetRev retain start kv) := by
  rw [split,reachesAll_batch size,List.append_cons,cleared_append,and_iff_right first,cleared]
  refine ⟨fun short => ⟨fun following _ => ?_,reachesAll_of_length_le short⟩,fun fits => ?_⟩
  · rw [reaches,checked]
    exact decide_eq_true short
  · cases rest with
    | nil => exact Nat.zero_le _
    | cons following others =>
      have reach := fits.1 following rfl
      rw [reaches,checked] at reach
      exact of_decide_eq_true reach

end

namespace KvStore

variable {next : Revision → Option Revision}

/-- The batch after the loop is done. -/
theorem batchLoop_done (fuel : Nat) (start : KvBucketKey) (s : KvStore) :
    ∃ b, batchLoop next targetRev retain (fuel + 1) start true s = some { s with backend := b } ∧
      s.backend.buckets.Batched (Removable targetRev retain start) targetRev true b.buckets ∧
      (Cleared (doomed targetRev retain start s.backend.buckets.kv) b.buckets.kv ↔
        (doomed targetRev retain start s.backend.buckets.kv).length ≤ maxCompactionBatchSize) := by
  rw [batchLoop]
  rcases s.deleteBatch_cases targetRev retain start true with
    ⟨b,last,run,short,kv,batched⟩ | ⟨b,earlier,hundredth,rest,split,size,run,kv,batched⟩
  · rw [run]
    exact ⟨b,rfl,batched,iff_of_true (kv ▸ cleared_erase _ _) short⟩
  · rw [run]
    refine ⟨b,rfl,batched,?_⟩
    rw [List.append_cons] at split
    have first : Cleared (earlier ++ [hundredth]) b.buckets.kv := kv ▸ cleared_erase _ _
    have length : (earlier ++ [hundredth]).length = maxCompactionBatchSize := by simpa using size
    have left : doomed targetRev retain start b.buckets.kv = rest := kv ▸ doomed_same_start split
    rw [split,cleared_append,and_iff_right first,List.length_append,length]
    refine ⟨fun cleared => ?_,fun short => ?_⟩
    · have empty : rest = [] := List.eq_nil_iff_forall_not_mem.mpr fun bk member => by
        have present := (mem_doomed.mp (left ▸ member)).1
        rw [cleared bk member] at present
        cases present
      simp [empty]
    · have empty : rest = [] := List.eq_nil_of_length_eq_zero (by omega)
      simp [empty,Cleared]

/-- With more fuel than records to remove the loop ends by itself: it has persisted its target. On the way only removable
    records go, and all of them exactly if no scan skips a record. -/
theorem batchLoop_spec (only : ∀ {r r'}, next r = some r' → r' = nextMainRevOverflowing r 1) (fuel : Nat) (start : KvBucketKey)
    (s : KvStore) (enough : (doomed targetRev retain start s.backend.buckets.kv).length < fuel) :
    ∃ b, batchLoop next targetRev retain fuel start false s = some { s with backend := b } ∧
      s.backend.buckets.Batched (Removable targetRev retain start) targetRev true b.buckets ∧
      (Cleared (doomed targetRev retain start s.backend.buckets.kv) b.buckets.kv ↔
        ReachesAll next (doomed targetRev retain start s.backend.buckets.kv)) := by
  induction fuel generalizing start s with
  | zero => omega
  | succ fuel ih =>
    rw [batchLoop]
    rcases s.deleteBatch_cases targetRev retain start false with
      ⟨b,last,run,short,kv,batched⟩ | ⟨b,earlier,hundredth,rest,split,size,run,kv,batched⟩
    · rw [run]
      exact ⟨b,rfl,batched,iff_of_true (kv ▸ cleared_erase _ _) (reachesAll_of_length_le short)⟩
    · rw [run]
      have bound := enough
      rw [split,List.length_append,List.length_cons] at bound
      cases checked : next hundredth.rev with
      | none =>
        -- the start stays, and the batch that is left to the loop finds the rest of the list
        obtain ⟨more,rfl⟩ : ∃ more, fuel = more + 1 := Nat.exists_eq_succ_of_ne_zero (by omega)
        have left : doomed targetRev retain start b.buckets.kv = rest := by
          rw [kv]
          exact doomed_same_start (split.trans (List.append_cons _ _ _))
        have first : Cleared (earlier ++ [hundredth]) b.buckets.kv := kv ▸ cleared_erase _ _
        obtain ⟨b₂,loop,later,cleared⟩ := @batchLoop_done retain targetRev next more start { s with backend := b }
        simp only [left] at cleared
        simp only [checked]
        exact ⟨b₂,loop,batched.trans later,cleared_last size split checked (first.pruned later.kv) cleared⟩
      | some nextRev =>
        obtain rfl := only checked
        have shorter := doomed_shrinks split
        rw [← kv] at shorter
        obtain ⟨b₂,loop,later,cleared⟩ := ih (KvBucketKey.encodeRevisionAsBucketKey (nextMainRevOverflowing hundredth.rev 1))
          { s with backend := b } (lt_of_le_of_lt shorter (by omega))
        have ahead : start ≤ KvBucketKey.encodeRevisionAsBucketKey (nextMainRevOverflowing hundredth.rev 1) := by
          have here : hundredth ∈ doomed targetRev retain start s.backend.buckets.kv := by rw [split]; simp
          refine (mem_doomed.mp here).2.1.trans (KvBucketKey.lt_iff.mpr (Or.inl ?_)).le
          exact Revision.lt_of_main_lt (Int.lt_succ _)
        simp only [checked]
        exact ⟨b₂,loop,batched.trans (later.mono fun bk gone => ⟨ahead.trans gone.1,gone.2⟩),
          cleared_next size split kv checked later.kv cleared⟩

theorem compactBatches_spec (targetRev : Int) (retain : List Revision) (fuel : Nat) (start : KvBucketKey)
    (s : KvStore) (enough : (doomed targetRev retain start s.backend.buckets.kv).length < fuel) :
    ∃ b, compactBatches targetRev retain fuel start s = { s with backend := b } ∧
      s.backend.buckets.Batched (Removable targetRev retain start) targetRev true b.buckets ∧
      (Cleared (doomed targetRev retain start s.backend.buckets.kv) b.buckets.kv ↔
        Aligned (doomed targetRev retain start s.backend.buckets.kv)) := by
  obtain ⟨b,loop,batched,cleared⟩ := @batchLoop_spec retain targetRev
    (fun r => some (nextMainRevOverflowing r 1)) (fun is => (Option.some.inj is).symm) fuel start s enough
  exact ⟨b,by rw [compactBatches,loop]; rfl,batched,cleared⟩

end KvStore

end Kave
