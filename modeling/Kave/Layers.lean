import Kave.VisibleHistory
import Kave.Rebuild

/-! What the bucket holds beyond the index. A compaction drops records from the index and removes them from the
    bucket, but it scans the bucket only from where the previous one ended, so records from before that stay. They are
    older than all the index knows of their key, and a restart replays them first. -/

namespace Kave

open TreeIndex KeyIndex

/-- The records of a key in the bucket are those the index knows of, after `stale` ones from before `lo`. -/
structure Layered (lo : Int) (filed known stale : List KvBucketKey) : Prop where
  split : filed = stale ++ known
  old : ∀ bk ∈ stale, bk.rev.main < lo
  dead : known = [] → openRun stale = []

theorem Layered.newest {lo : Int} {filed known stale : List KvBucketKey} (layered : Layered lo filed known stale) :
    (openRun filed).getLast? = (openRun known).getLast? := by
  rw [layered.split]
  rcases List.eq_nil_or_concat' known with rfl | ⟨older,bk,rfl⟩
  · rw [List.append_nil,layered.dead rfl,openRun_nil]
  · rw [← List.append_assoc,openRun_snoc,openRun_snoc]
    cases bk.tombstone <;> simp

/-- The records of a bucket were written before `rev`, and no revision is taken twice. -/
structure Stamped (kv : KvBucket) (rev : Revision) : Prop where
  early : ∀ bk, (kv.find? bk).isSome → 0 < bk.rev.main ∧ 0 ≤ bk.rev.sub ∧ bk.rev < rev
  distinct : ∀ bk bk', (kv.find? bk).isSome → (kv.find? bk').isSome → bk.rev = bk'.rev → bk = bk'

variable {bk : KvBucketKey} {a b : Content} {n : Nat} {next : Int} {w : Write} {rev : Revision}

theorem isSome_of_mem_recordsIn {kv : KvBucket} {key : Bytes} (member : bk ∈ recordsIn kv key) :
    (kv.find? bk).isSome := by
  obtain ⟨entry,found,-⟩ := mem_recordsIn.mp member
  rw [found]
  rfl

section

variable {kv kv' : KvBucket} {rev rev' : Revision}

theorem Stamped.sorted (stamped : Stamped kv rev) (key : Bytes) : (recordsIn kv key).Pairwise fun a b => a.rev < b.rev := by
  refine (recordsIn_sorted kv key).imp_of_mem ?_
  intro a b first second less
  rcases KvBucketKey.lt_iff.mp less with below | ⟨same,-⟩
  · exact below
  · have equal := stamped.distinct a b (isSome_of_mem_recordsIn first) (isSome_of_mem_recordsIn second) same
    exact absurd less (by rw [equal]; exact lt_irrefl _)

theorem Stamped.positive (stamped : Stamped kv rev) {key : Bytes} {bk : KvBucketKey} (member : bk ∈ recordsIn kv key) :
    Revision.zero < bk.rev := Revision.lt_of_main_lt (stamped.early bk (isSome_of_mem_recordsIn member)).1

theorem Stamped.mono (stamped : Stamped kv rev) (le : rev ≤ rev') : Stamped kv rev' where
  early bk present := ⟨(stamped.early bk present).1,(stamped.early bk present).2.1,
    (stamped.early bk present).2.2.trans_le le⟩
  distinct := stamped.distinct

theorem Stamped.subset (stamped : Stamped kv rev) (less : ∀ {bk entry}, kv'.find? bk = some entry → kv.find? bk = some entry) :
    Stamped kv' rev := by
  have present : ∀ {bk}, (kv'.find? bk).isSome → (kv.find? bk).isSome := by
    intro bk here
    obtain ⟨entry,found⟩ := Option.isSome_iff_exists.mp here
    rw [less found]
    rfl
  constructor
  · intro bk here
    exact stamped.early bk (present here)
  · intro bk bk' first second same
    exact stamped.distinct bk bk' (present first) (present second) same

end

/-- Index and bucket know of nothing from `rev` on, and what the bucket has beyond the index is from before `lo`. -/
structure Content.Filed (c : Content) (lo : Int) (rev : Revision) : Prop extends Stamped c.kv rev where
  before : c.Before rev
  layers : ∀ key, ∃ stale, Layered lo (recordsIn c.kv key) (c.index.records key) stale

section

variable {c : Content} {lo : Int} {rev : Revision}

theorem Content.Filed.mem_of_known (filed : c.Filed lo rev) {key : Bytes} {bk : KvBucketKey}
    (member : bk ∈ c.index.records key) : bk ∈ recordsIn c.kv key := by
  obtain ⟨stale,layered⟩ := filed.layers key
  rw [layered.split]
  exact List.mem_append_right _ member

theorem Content.Filed.known_of_mem (filed : c.Filed lo rev) {key : Bytes} {bk : KvBucketKey}
    (member : bk ∈ recordsIn c.kv key) (late : lo ≤ bk.rev.main) : bk ∈ c.index.records key := by
  obtain ⟨stale,layered⟩ := filed.layers key
  rw [layered.split] at member
  rcases List.mem_append.mp member with old | known
  · have := layered.old bk old
    omega
  · exact known

end

/-! ### Writes -/

theorem recordsIn_insert {kv : KvBucket} {entry : Entry}
    (newest : ∀ old, (kv.find? old).isSome → old.rev < bk.rev) (key : Bytes) :
    recordsIn (kv.insert bk entry) key = recordsIn kv key ++ if entry.key = key then [bk] else [] := by
  have absent : kv.find? bk = none := by
    by_contra present
    exact lt_irrefl _ (newest bk (Option.isSome_iff_ne_none.mpr present))
  have sorted : (recordsIn kv key ++ if entry.key = key then [bk] else []).Pairwise (· < ·) := by
    refine List.pairwise_append.mpr ⟨recordsIn_sorted kv key,by split <;> simp,?_⟩
    intro old inside new same
    have latest : new = bk := by
      split at same
      · exact List.mem_singleton.mp same
      · simp at same
    rw [latest]
    exact KvBucketKey.lt_iff.mpr (Or.inl (newest old (isSome_of_mem_recordsIn inside)))
  refine (recordsIn_sorted _ key).eq_of_mem_iff sorted fun x => ?_
  rw [mem_recordsIn,List.mem_append,mem_recordsIn,SortedMap.find_insert]
  by_cases new : x = bk
  · rw [if_pos new,new,absent]
    by_cases here : entry.key = key <;> simp [here]
  · rw [if_neg new]
    by_cases here : entry.key = key <;> simp [here,new]

theorem WriteStep.recordsIn_eq (step : WriteStep next n a w b)
    (stamped : Stamped a.kv ⟨next,n⟩) : ∃ key bk, bk.rev = ⟨next,n⟩ ∧ a.index.Wrote b.index key bk ∧
      ∀ k, recordsIn b.kv k = recordsIn a.kv k ++ if key = k then [bk] else [] := by
  obtain ⟨key,bk,entry,rev,wrote,kv,named⟩ := step.wrote
  refine ⟨key,bk,rev,wrote,fun k => ?_⟩
  rw [kv,← named]
  refine recordsIn_insert (fun old present => ?_) k
  rw [rev]
  exact (stamped.early old present).2.2

theorem WriteStep.stamped (positive : 0 < next)
    (step : WriteStep next n a w b) (stamped : Stamped a.kv ⟨next,n⟩) : Stamped b.kv ⟨next,(n + 1 : Nat)⟩ := by
  obtain ⟨-,bk,entry,rev,-,kv,-⟩ := step.wrote
  have newest : ∀ old, (a.kv.find? old).isSome → old.rev < bk.rev := by
    intro old present
    rw [rev]
    exact (stamped.early old present).2.2
  have advance : (⟨next,n⟩ : Revision) < ⟨next,(n + 1 : Nat)⟩ := Revision.lt_iff.mpr (Or.inr ⟨rfl,by simp only; omega⟩)
  have cases_ : ∀ {x}, (b.kv.find? x).isSome → x = bk ∨ (a.kv.find? x).isSome := by
    intro x present
    rw [kv,SortedMap.find_insert] at present
    by_cases new : x = bk
    · exact Or.inl new
    · rw [if_neg new] at present
      exact Or.inr present
  constructor
  · intro x present
    rcases cases_ present with new | old
    · rw [new,rev]
      exact ⟨positive,by simp,advance⟩
    · obtain ⟨main,sub,less⟩ := stamped.early x old
      exact ⟨main,sub,less.trans advance⟩
  · intro x y first second same
    rcases cases_ first with newX | oldX <;> rcases cases_ second with newY | oldY
    · rw [newX,newY]
    · exact absurd (newest y oldY) (by rw [← newX,same]; exact lt_irrefl _)
    · exact absurd (newest x oldX) (by rw [← newY,same]; exact lt_irrefl _)
    · exact stamped.distinct x y oldX oldY same

theorem Chain.stamped {ws : List Write} (positive : 0 < next)
    (chain : Chain next n a ws b) (stamped : Stamped a.kv ⟨next,n⟩) : Stamped b.kv ⟨next,(n + ws.length : Nat)⟩ :=
  chain.invariant (P := fun n c => Stamped c.kv ⟨next,n⟩) (fun _ _ _ _ kept step => step.stamped positive kept) stamped

theorem WriteStep.filed {next lo : Int} (positive : 0 < next)
    (step : WriteStep next n a w b) (filed : a.Filed lo ⟨next,n⟩) : b.Filed lo ⟨next,(n + 1 : Nat)⟩ := by
  refine ⟨step.stamped positive filed.toStamped,step.before positive filed.before,?_⟩
  intro k
  obtain ⟨key,bk,-,wrote,records⟩ := step.recordsIn_eq filed.toStamped
  obtain ⟨stale,layered⟩ := filed.layers k
  refine ⟨stale,?_⟩
  rw [records]
  by_cases here : key = k
  · subst here
    rw [if_pos rfl,wrote.records]
    exact ⟨by rw [layered.split,List.append_assoc],layered.old,by simp⟩
  · rw [if_neg here,List.append_nil,wrote.records_other (Ne.symm here)]
    exact layered

/-- A transaction keeps the records filed. -/
theorem Chain.filed {next lo : Int} {ws : List Write} (positive : 0 < next)
    (chain : Chain next n a ws b) (filed : a.Filed lo ⟨next,n⟩) : b.Filed lo ⟨next,(n + ws.length : Nat)⟩ :=
  chain.invariant (P := fun n c => c.Filed lo ⟨next,n⟩) (fun _ _ _ _ kept step => step.filed positive kept) filed

/-! ### Compaction -/

/-- What a clean compaction at `c` that scans from `lo` and misses no batch makes of index and bucket. -/
structure Content.Swept (lo c : Int) (a b : Content) : Prop where
  valid : b.index.Valid
  items : ∃ kept, ∀ key, ItemCompacted c (a.index.find? key) (b.index.find? key) kept
  clean : ∀ key, ¬ DeletedThenPut c (a.index.records key)
  records : ∀ key, recordsIn b.kv key = (recordsIn a.kv key).filter fun bk =>
    ¬(lo ≤ bk.rev.main ∧ bk.rev.main ≤ c ∧ Superseded c (a.index.records key) bk)
  subset : ∀ {bk entry}, b.kv.find? bk = some entry → a.kv.find? bk = some entry

/-- A compaction removes exactly what it supersedes and no earlier one has removed. -/
theorem Content.Filed.removable_iff {lo c : Int} {kept : List Revision}
    (filed : a.Filed lo rev) (clean : ∀ key, ¬ DeletedThenPut c (a.index.records key))
    (items : ∀ key, ItemCompacted c (a.index.find? key) (b.index.find? key) kept)
    (sound : ∀ rev ∈ kept, rev.main ≤ c ∧ ∃ key, ∃ bk ∈ b.index.records key, bk.rev = rev) {key : Bytes}
    (member : bk ∈ recordsIn a.kv key) :
    Removable c kept ⟨⟨lo,0⟩,false⟩ bk ↔
      lo ≤ bk.rev.main ∧ bk.rev.main ≤ c ∧ Superseded c (a.index.records key) bk := by
  obtain ⟨-,sub,-⟩ := filed.early bk (isSome_of_mem_recordsIn member)
  have from_ : (⟨⟨lo,0⟩,false⟩ : KvBucketKey) ≤ bk ↔ lo ≤ bk.rev.main := by
    rw [KvBucketKey.unmarked_le_iff,Revision.le_iff]
    simp only
    omega
  have upTo : bk.rev < ⟨c + 1,0⟩ ↔ bk.rev.main ≤ c := by
    rw [Revision.lt_iff]
    simp only
    omega
  rw [Removable,from_,upTo]
  refine and_congr_right fun late => and_congr_right fun le => ?_
  have known := filed.known_of_mem member late
  have stays := (items key).stays (clean key) bk known
  constructor
  · intro notKept
    by_contra useful
    exact notKept ((items key).retains (clean key) bk (stays.mpr fun both => useful both.2) le)
  · rintro superseded inside
    -- the kept revision belongs to a record of the new index, which can only be this one
    obtain ⟨-,key',bk',member',same⟩ := sound bk.rev inside
    have old := filed.mem_of_known ((items key').subset member')
    have equal := filed.distinct bk' bk (isSome_of_mem_recordsIn old) (isSome_of_mem_recordsIn member) same
    subst equal
    obtain ⟨entry,found,named⟩ := mem_recordsIn.mp member
    obtain ⟨entry',found',named'⟩ := mem_recordsIn.mp old
    have sameKey : key' = key := by
      rw [← named',← named,Option.some.inj (found'.symm.trans found)]
    subst sameKey
    exact stays.mp member' ⟨le,superseded⟩

/-- The records a compaction at `c` should remove from the part of the bucket it scans. -/
def KvStore.superseded (s : KvStore) (c : Int) : List KvBucketKey :=
  ((s.backend.buckets.kv.ascend ⟨⟨s.compactedMainRev,0⟩,false⟩ fun bk => bk < ⟨⟨c + 1,0⟩,false⟩).filter fun e =>
    Superseded c (s.kvIndex.records e.2.key) e.1).map (·.1)

theorem Content.Filed.doomed_eq {s : KvStore} {c : Int} {kept : List Revision} {ti : TreeIndex}
    (filed : s.content.Filed s.compactedMainRev rev) (clean : s.CleanAt c)
    (items : ∀ key, ItemCompacted c (s.kvIndex.find? key) (ti.find? key) kept)
    (sound : ∀ rev ∈ kept, rev.main ≤ c ∧ ∃ key, ∃ bk ∈ ti.records key, bk.rev = rev) :
    doomed c kept ⟨⟨s.compactedMainRev,0⟩,false⟩ s.backend.buckets.kv = s.superseded c := by
  rw [doomed,KvStore.superseded,List.filter_map]
  congr 1
  refine List.filter_congr fun e inside => ?_
  have found : s.backend.buckets.kv.find? e.1 = some e.2 := by
    refine SortedMap.mem_entries.mp ?_
    exact (List.dropWhile_sublist _).subset ((List.takeWhile_sublist _).subset inside)
  have scanned : e.1 ∈ doomed c [] ⟨⟨s.compactedMainRev,0⟩,false⟩ s.backend.buckets.kv := by
    rw [doomed]
    simpa using ⟨e.2,inside⟩
  obtain ⟨present,after,below,-⟩ := mem_doomed.mp scanned
  have late : s.compactedMainRev ≤ e.1.rev.main := Revision.main_le_of_le (KvBucketKey.unmarked_le_iff.mp after)
  have upTo : e.1.rev.main ≤ c := by
    obtain ⟨-,sub,-⟩ := filed.early e.1 present
    rcases Revision.lt_iff.mp below with less | ⟨-,less⟩ <;> simp only at less <;> omega
  have removable := filed.removable_iff clean.records (b := ⟨ti,s.backend.buckets.kv⟩) items sound
    (mem_recordsIn.mpr ⟨e.2,found,rfl⟩)
  have same : e.1.rev ∉ kept ↔ Superseded c (s.kvIndex.records e.2.key) e.1 :=
    ⟨fun notKept => (removable.mp ⟨after,below,notKept⟩).2.2,fun superseded =>
      (removable.mpr ⟨late,upTo,superseded⟩).2.2⟩
  exact decide_eq_decide.mpr same

/-- A compaction that meets the conditions sweeps up to its target. -/
theorem KvStore.compactToEnd_swept {s : KvStore} (filed : s.content.Filed s.compactedMainRev rev) {c : Int}
    (accepts_ : s.Accepts c) (clean : s.CleanAt c) (aligned : Aligned (s.superseded c)) :
    s.content.Swept s.compactedMainRev c (s.compactToEnd c).content := by
  rw [compactToEnd_of accepts_]
  obtain ⟨ti,kept,b,done⟩ := doCompact_done
    (s := { s with backend := s.backend.commit [.putScheduledCompactedRev c] }) filed.before.valid ⟨c,s.compactedMainRev⟩
  have items : ∀ key, ItemCompacted c (s.kvIndex.find? key) (ti.find? key) kept := done.items
  have pruned : Pruned (Removable c kept ⟨⟨s.compactedMainRev,0⟩,false⟩) s.backend.buckets.kv b.buckets.kv := done.batched.kv
  have swept : ∀ bk ∈ doomed c kept ⟨⟨s.compactedMainRev,0⟩,false⟩ s.backend.buckets.kv, b.buckets.kv.find? bk = none := by
    refine done.swept.mpr ?_
    change Aligned (doomed c kept ⟨⟨s.compactedMainRev,0⟩,false⟩ s.backend.buckets.kv)
    rw [filed.doomed_eq clean items done.sound]
    exact aligned
  rw [done.result]
  refine ⟨done.valid,⟨kept,items⟩,clean.records,?_,fun found => pruned.mem found⟩
  intro key
  refine (recordsIn_sorted _ key).eq_of_mem_iff ((recordsIn_sorted _ key).filter _) fun bk => ?_
  have removable : bk ∈ recordsIn s.backend.buckets.kv key → _ := fun member =>
    filed.removable_iff (b := ⟨ti,b.buckets.kv⟩) clean.records items done.sound member
  rw [List.mem_filter,mem_recordsIn]
  constructor
  · rintro ⟨entry,found,named⟩
    have member : bk ∈ recordsIn s.backend.buckets.kv key := mem_recordsIn.mpr ⟨entry,pruned.mem found,named⟩
    refine ⟨member,?_⟩
    have stays : ¬ Removable c kept ⟨⟨s.compactedMainRev,0⟩,false⟩ bk := by
      intro gone
      have none := swept bk (mem_doomed.mpr ⟨isSome_of_mem_recordsIn member,gone⟩)
      rw [KvStore.content] at found
      simp only [none] at found
      cases found
    rw [removable member] at stays
    exact decide_eq_true stays
  · rintro ⟨member,stays⟩
    obtain ⟨entry,found,named⟩ := mem_recordsIn.mp member
    refine ⟨entry,?_,named⟩
    have never : ¬ Removable c kept ⟨⟨s.compactedMainRev,0⟩,false⟩ bk := by
      rw [removable member]
      exact of_decide_eq_true stays
    exact (pruned.keeps never).trans found

/-! ### What a sweep may lay open -/

/-- Compaction at `c` takes the tombstone out of the bucket, and the newest record from before its scan is a put. -/
def LaysOpen (lo c : Int) (keys : List KvBucketKey) (tomb : KvBucketKey) : Prop :=
  lo ≤ tomb.rev.main ∧ tomb.rev.main < c ∧ ∃ p ∈ (keys.filter (·.rev.main < lo)).getLast?, p.tombstone = false

instance (lo c : Int) (keys : List KvBucketKey) (tomb : KvBucketKey) : Decidable (LaysOpen lo c keys tomb) := by
  unfold LaysOpen
  infer_instance

/-- Two puts of the current life up to `c`, the older one inside the scan: compaction removes it. -/
def Thins (lo c : Int) (keys : List KvBucketKey) : Prop :=
  ∃ p ∈ openRun keys, lo ≤ p.main ∧ ∃ q ∈ openRun keys, p < q ∧ q.main ≤ c

instance (lo c : Int) (keys : List KvBucketKey) : Decidable (Thins lo c keys) := by
  unfold Thins
  infer_instance

private theorem openRun_of_not_laysOpen {lo c : Int} {keys : List KvBucketKey} {tomb : KvBucketKey}
    (quiet : ¬ LaysOpen lo c keys tomb) (late : lo ≤ tomb.rev.main) (below : tomb.rev.main < c) :
    openRun (keys.filter (·.rev.main < lo)) = [] := by
  rw [openRun_eq_nil_iff]
  intro bk newest
  by_contra put
  exact quiet ⟨late,below,bk,newest,by simpa using put⟩

namespace Content.Swept

variable {a b : Content} {lo c : Int} {rev : Revision}

private theorem layers_eq (swept : a.Swept lo c b) {key : Bytes} {stale : List KvBucketKey}
    (layered : Layered lo (recordsIn a.kv key) (a.index.records key) stale) :
    ∃ gone, a.index.records key = gone ++ b.index.records key ∧
      (∀ bk ∈ gone, bk.rev.main ≤ c ∧ Superseded c (a.index.records key) bk) ∧
      recordsIn b.kv key = stale ++ gone.filter (·.rev.main < lo) ++ b.index.records key := by
  obtain ⟨kept,items⟩ := swept.items
  obtain ⟨gone,keys,dropped⟩ := (items key).keys
  change a.index.records key = gone ++ b.index.records key at keys
  change ∀ bk ∈ gone, bk.rev.main ≤ c ∧ Superseded c (a.index.records key) bk at dropped
  refine ⟨gone,keys,dropped,?_⟩
  have staleStays : stale.filter (fun bk => ¬(lo ≤ bk.rev.main ∧ bk.rev.main ≤ c ∧
      Superseded c (a.index.records key) bk)) = stale := by
    refine List.filter_eq_self.mpr fun bk inside => decide_eq_true ?_
    rintro ⟨late,-,-⟩
    exact absurd (layered.old bk inside) (not_lt.mpr late)
  have goneStays : gone.filter (fun bk => ¬(lo ≤ bk.rev.main ∧ bk.rev.main ≤ c ∧
      Superseded c (a.index.records key) bk)) = gone.filter (·.rev.main < lo) := by
    refine List.filter_congr fun bk inside => decide_eq_decide.mpr ?_
    obtain ⟨le,superseded⟩ := dropped bk inside
    simp [le,superseded]
  have knownStays : (b.index.records key).filter (fun bk => ¬(lo ≤ bk.rev.main ∧ bk.rev.main ≤ c ∧
      Superseded c (a.index.records key) bk)) = b.index.records key := by
    refine List.filter_eq_self.mpr fun bk inside => decide_eq_true ?_
    rintro ⟨-,le,superseded⟩
    exact ((items key).stays (swept.clean key) bk ((items key).subset inside)).mp inside ⟨le,superseded⟩
  have whole : recordsIn a.kv key = stale ++ (gone ++ b.index.records key) := by rw [layered.split,keys]
  rw [swept.records,whole,List.filter_append,List.filter_append,staleStays,goneStays,knownStays,List.append_assoc]

private theorem last_of_forgotten {known : List KvBucketKey} (sorted : known.Pairwise fun a b => a.rev < b.rev)
    (dropped : ∀ bk ∈ known, bk.rev.main ≤ c ∧ Superseded c known bk) {older : List KvBucketKey} {tomb : KvBucketKey}
    (split : known = older ++ [tomb]) : tomb.tombstone = true ∧ tomb.rev.main < c := by
  subst split
  rcases (dropped tomb (by simp)).2 with deleted | ⟨newer,inside,later,-⟩
  · exact deleted
  · have le : newer.rev ≤ tomb.rev := by
      rcases List.mem_append.mp inside with old | last
      · exact ((List.pairwise_append.mp sorted).2.2 newer old tomb (by simp)).le
      · rw [List.mem_singleton.mp last]
    exact absurd later (not_lt.mpr le)

theorem filed (swept : a.Swept lo c b) (less : lo < c) (filed : a.Filed lo rev)
    (quiet : ∀ key, a.index.records key ≠ [] → ∀ bk ∈ (recordsIn a.kv key).getLast?, bk.tombstone = true →
      ¬ LaysOpen lo c (recordsIn a.kv key) bk) : b.Filed c rev := by
  obtain ⟨kept,items⟩ := swept.items
  constructor
  · exact filed.toStamped.subset swept.subset
  · exact ⟨swept.valid,fun key bk member => filed.before.early key bk ((items key).subset member)⟩
  · intro key
    obtain ⟨stale,layered⟩ := filed.layers key
    obtain ⟨gone,keys,dropped,records⟩ := swept.layers_eq layered
    refine ⟨stale ++ gone.filter (·.rev.main < lo),records,?_,?_⟩
    · intro bk inside
      rcases List.mem_append.mp inside with old | new
      · exact (layered.old bk old).trans less
      · have below := of_decide_eq_true (List.mem_filter.mp new).2
        exact below.trans less
    · intro forgotten
      rw [forgotten,List.append_nil] at keys
      rcases List.eq_nil_or_concat' gone with rfl | ⟨older,tomb,split⟩
      · simpa using layered.dead keys
      · -- the key was deleted: its tombstone stays, or the record before the scan is no put
        have inBucket : recordsIn a.kv key = stale ++ older ++ [tomb] := by
          rw [layered.split,keys,split,List.append_assoc]
        have sorted := filed.sorted key
        rw [inBucket] at sorted
        rw [← keys] at dropped split
        obtain ⟨deleted,below⟩ := last_of_forgotten (by
          rw [split]
          rw [List.append_assoc] at sorted
          exact (List.pairwise_append.mp sorted).2.1) dropped split
        rw [keys] at split
        by_cases early : tomb.rev.main < lo
        · have whole : gone.filter (·.rev.main < lo) = gone := by
            refine List.filter_eq_self.mpr fun bk inside => decide_eq_true ?_
            rw [split] at inside
            rcases List.mem_append.mp inside with old | last
            · have before := (List.pairwise_append.mp sorted).2.2 bk (by simp [old]) tomb (by simp)
              exact (Revision.main_le_of_lt before).trans_lt early
            · rw [List.mem_singleton.mp last]
              exact early
          rw [whole,split,← List.append_assoc,openRun_snoc,deleted]
          rfl
        · have some_ : a.index.records key ≠ [] := by
            rw [keys,split]
            simp
          have known := openRun_of_not_laysOpen (quiet key some_ tomb (by rw [inBucket]; simp) deleted) (not_lt.mp early) below
          have staleBelow : stale.filter (·.rev.main < lo) = stale :=
            List.filter_eq_self.mpr fun bk inside => decide_eq_true (layered.old bk inside)
          rw [layered.split,List.filter_append,staleBelow,keys] at known
          exact known

theorem openRun_eq (swept : a.Swept lo c b) (filed : a.Filed lo rev) {key : Bytes}
    (whole : a.index.records key ≠ [] → (∀ bk ∈ ((recordsIn a.kv key).filter (·.tombstone)).getLast?,
      ¬ LaysOpen lo c (recordsIn a.kv key) bk) ∧ ¬ Thins lo c (recordsIn a.kv key)) :
    openRun (recordsIn b.kv key) = openRun (recordsIn a.kv key) := by
  by_cases none : a.index.records key = []
  · have stays : recordsIn b.kv key = recordsIn a.kv key := by
      rw [swept.records]
      refine List.filter_eq_self.mpr fun bk inside => decide_eq_true ?_
      rintro ⟨late,-,-⟩
      have known := filed.known_of_mem inside late
      rw [none] at known
      simp at known
    rw [stays]
  · obtain ⟨quiet,thick⟩ := whole none
    obtain ⟨closed,puts,split,unmarked,run,ends⟩ := openRun_split (recordsIn a.kv key)
    have sorted := filed.sorted key
    have known : ∀ {bk}, bk ∈ closed ++ puts → lo ≤ bk.rev.main → bk ∈ a.index.records key := by
      intro bk inside late
      rw [← split] at inside
      exact filed.known_of_mem inside late
    have puts_ : puts.filter (fun bk => ¬(lo ≤ bk.rev.main ∧ bk.rev.main ≤ c ∧
        Superseded c (a.index.records key) bk)) = puts := by
      refine List.filter_eq_self.mpr fun bk inside => decide_eq_true ?_
      rintro ⟨late,-,deleted | ⟨newer,isKnown,later,le⟩⟩
      · rw [unmarked bk inside] at deleted
        exact absurd deleted.1 Bool.false_ne_true
      · -- a newer record of the life is another put of it
        have there := filed.mem_of_known isKnown
        rw [split] at there sorted
        have newerPut : newer ∈ puts := by
          rcases List.mem_append.mp there with old | new
          · exact absurd later (not_lt.mpr ((List.pairwise_append.mp sorted).2.2 newer old bk inside).le)
          · exact new
        refine thick ⟨bk.rev,?_,late,newer.rev,?_,later,le⟩
        · rw [run]
          exact List.mem_map_of_mem inside
        · rw [run]
          exact List.mem_map_of_mem newerPut
    rw [run,swept.records,split,List.filter_append,puts_,openRun_append_puts _ unmarked]
    suffices closed_ : openRun (closed.filter fun bk => ¬(lo ≤ bk.rev.main ∧ bk.rev.main ≤ c ∧
        Superseded c (a.index.records key) bk)) = [] by rw [closed_,List.nil_append]
    rcases ends with rfl | ⟨older,tomb,rfl,marked⟩
    · rfl
    · by_cases dropped : lo ≤ tomb.rev.main ∧ tomb.rev.main ≤ c ∧ Superseded c (a.index.records key) tomb
      · obtain ⟨late,le,superseded⟩ := dropped
        have tombKnown : tomb ∈ a.index.records key := known (by simp) late
        have below : tomb.rev.main < c := by
          rcases superseded with deleted | ⟨newer,isKnown,later,upTo⟩
          · exact deleted.2
          · refine lt_of_le_of_ne le fun same => swept.clean key ⟨tomb,tombKnown,newer,isKnown,marked,same,?_,later⟩
            have := Revision.main_le_of_lt later
            omega
        have lastTomb : tomb ∈ ((recordsIn a.kv key).filter (·.tombstone)).getLast? := by
          have noMarks : puts.filter (·.tombstone) = [] :=
            List.filter_eq_nil_iff.mpr fun bk inside => by simp [unmarked bk inside]
          rw [split,List.filter_append,List.filter_append,noMarks]
          simp [marked]
        have empty := openRun_of_not_laysOpen (quiet tomb lastTomb) late below
        rw [split] at sorted empty
        have putsLate : puts.filter (·.rev.main < lo) = [] := by
          refine List.filter_eq_nil_iff.mpr fun bk inside => ?_
          have after := (List.pairwise_append.mp sorted).2.2 tomb (by simp) bk inside
          have := Revision.main_le_of_lt after
          simp only [decide_eq_true_eq]
          omega
        rw [List.filter_append,putsLate,List.append_nil] at empty
        rw [← empty]
        congr 1
        refine List.filter_congr fun bk inside => decide_eq_decide.mpr ⟨?_,fun early both => by omega⟩
        intro stays
        by_contra notEarly
        -- everything up to the tombstone goes with it
        have bkLate : lo ≤ bk.rev.main := not_lt.mp notEarly
        rcases List.mem_append.mp inside with old | last
        · have before := (List.pairwise_append.mp (List.pairwise_append.mp sorted).1).2.2 bk old tomb (by simp)
          have := Revision.main_le_of_lt before
          exact stays ⟨bkLate,by omega,Or.inr ⟨tomb,tombKnown,before,le⟩⟩
        · rw [List.mem_singleton.mp last] at stays
          exact stays ⟨late,le,superseded⟩
      · rw [List.filter_append]
        have tombStays : [tomb].filter (fun bk => ¬(lo ≤ bk.rev.main ∧ bk.rev.main ≤ c ∧
            Superseded c (a.index.records key) bk)) = [tomb] := by
          rw [List.filter_singleton,decide_eq_true dropped]
          rfl
        rw [tombStays,openRun_snoc,marked]
        rfl

end Content.Swept

end Kave
