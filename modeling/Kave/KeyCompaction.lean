import Kave.KeyHistory

/-! Compaction of one key index: which revisions it drops, which one it hands to the store to keep, and that
    no answer from the target on changes. -/

namespace Kave

namespace KeyIndex

/-- A record the compaction at `c` has no use for: a tombstone below `c`, or a record with a newer one of the
    same key up to `c`. -/
def Superseded (c : Int) (keys : List KvBucketKey) (bk : KvBucketKey) : Prop :=
  bk.tombstone = true ∧ bk.rev.main < c ∨ ∃ newer ∈ keys, bk.rev < newer.rev ∧ newer.rev.main ≤ c

instance (c : Int) (keys : List KvBucketKey) (bk : KvBucketKey) : Decidable (Superseded c keys bk) := by
  unfold Superseded
  infer_instance

/-- The transaction `c` deleted the key and put it again. -/
def DeletedThenPut (c : Int) (keys : List KvBucketKey) : Prop :=
  ∃ d ∈ keys, ∃ p ∈ keys, d.tombstone = true ∧ d.rev.main = c ∧ p.rev.main = c ∧ d.rev < p.rev

instance (c : Int) (keys : List KvBucketKey) : Decidable (DeletedThenPut c keys) := by
  unfold DeletedThenPut
  infer_instance

/-- The record of transaction `c` that compaction at `c` keeps: its first tombstone, where the walk over the generations
    stops, or its last put if there is none. -/
def keeper (c : Int) (keys : List KvBucketKey) : Option KvBucketKey :=
  (keys.filter fun bk => bk.tombstone ∧ bk.rev.main = c).head?.or (keys.filter (·.rev.main = c)).getLast?

variable {keys : List KvBucketKey} {bk : KvBucketKey} {c : Int}

theorem eq_of_rev_eq (sorted : keys.Pairwise fun a b => a.rev < b.rev) {a b : KvBucketKey}
    (first : a ∈ keys) (second : b ∈ keys) (same : a.rev = b.rev) : a = b := by
  obtain ⟨before,after,rfl⟩ := List.mem_iff_append.mp second
  obtain ⟨-,tail,across⟩ := List.pairwise_append.mp sorted
  rcases List.mem_append.mp first with old | new
  · exact absurd (across a old b (by simp)) (by rw [same]; exact lt_irrefl _)
  · rcases List.mem_cons.mp new with equal | later
    · exact equal
    · exact absurd ((List.pairwise_cons.mp tail).1 a later) (by rw [same]; exact lt_irrefl _)

theorem keeper_isSome (member : bk ∈ keys) (at_ : bk.rev.main = c) :
    ∃ kept, keeper c keys = some kept := by
  have some_ : bk ∈ keys.filter (·.rev.main = c) := List.mem_filter.mpr ⟨member,decide_eq_true at_⟩
  rw [keeper]
  cases (keys.filter fun bk => bk.tombstone ∧ bk.rev.main = c).head? with
  | some tomb => exact ⟨tomb,rfl⟩
  | none => exact ⟨_,List.getLast?_eq_some_getLast (List.ne_nil_of_mem some_)⟩

theorem keeper_cases (sorted : keys.Pairwise fun a b => a.rev < b.rev)
    (found : keeper c keys = some bk) :
    bk ∈ keys ∧ bk.rev.main = c ∧
      (bk.tombstone = true ∧ (∀ d ∈ keys, d.tombstone = true → d.rev.main = c → bk.rev ≤ d.rev) ∨
        bk.tombstone = false ∧ ∀ d ∈ keys, d.rev.main = c → d.tombstone = false ∧ d.rev ≤ bk.rev) := by
  rw [keeper] at found
  cases tombs : keys.filter fun bk => bk.tombstone ∧ bk.rev.main = c with
  | cons tomb others =>
    rw [tombs] at found
    cases found
    have inside : bk ∈ keys.filter fun bk => bk.tombstone ∧ bk.rev.main = c := by
      rw [tombs]
      exact List.mem_cons_self
    have rest := sorted.filter fun bk => bk.tombstone ∧ bk.rev.main = c
    rw [tombs] at rest
    obtain ⟨member,marks⟩ := List.mem_filter.mp inside
    have both := of_decide_eq_true marks
    refine ⟨member,both.2,Or.inl ⟨both.1,?_⟩⟩
    intro d here marked main
    have listed : d ∈ keys.filter fun bk => bk.tombstone ∧ bk.rev.main = c :=
      List.mem_filter.mpr ⟨here,decide_eq_true ⟨marked,main⟩⟩
    rw [tombs] at listed
    rcases List.mem_cons.mp listed with same | later
    · rw [same]
    · exact ((List.pairwise_cons.mp rest).1 d later).le
  | nil =>
    rw [tombs] at found
    obtain ⟨older,split⟩ := List.getLast?_eq_some_iff.mp found
    have inside : bk ∈ keys.filter (·.rev.main = c) := by simp [split]
    have rest := sorted.filter (·.rev.main = c)
    rw [split] at rest
    obtain ⟨member,main⟩ := List.mem_filter.mp inside
    have unmarked : ∀ d ∈ keys, d.rev.main = c → d.tombstone = false := by
      intro d here at_
      by_contra marked
      have listed : d ∈ keys.filter fun bk => bk.tombstone ∧ bk.rev.main = c :=
        List.mem_filter.mpr ⟨here,decide_eq_true ⟨by simpa using marked,at_⟩⟩
      rw [tombs] at listed
      simp at listed
    have at_ := of_decide_eq_true main
    refine ⟨member,at_,Or.inr ⟨unmarked bk member at_,fun d here main => ⟨unmarked d here main,?_⟩⟩⟩
    have listed : d ∈ keys.filter (·.rev.main = c) := List.mem_filter.mpr ⟨here,decide_eq_true main⟩
    rw [split] at listed
    rcases List.mem_append.mp listed with before | last
    · exact ((List.pairwise_append.mp rest).2.2 d before bk (by simp)).le
    · rw [List.mem_singleton.mp last]

theorem keeper_suffix {gone rest : List KvBucketKey} (sorted : (gone ++ rest).Pairwise fun a b => a.rev < b.rev)
    (found : keeper c (gone ++ rest) = some bk) (inside : bk ∈ rest) : keeper c rest = some bk := by
  obtain ⟨-,main,form⟩ := keeper_cases sorted found
  obtain ⟨kept,found'⟩ := keeper_isSome inside main
  obtain ⟨member,main',form'⟩ := keeper_cases (List.pairwise_append.mp sorted).2.1 found'
  have there : kept ∈ gone ++ rest := List.mem_append_right _ member
  have same : kept.rev = bk.rev := by
    rcases form with ⟨marked,first⟩ | ⟨unmarked,last⟩
    · rcases form' with ⟨marked',first'⟩ | ⟨unmarked',last'⟩
      · exact le_antisymm (first' bk inside marked main) (first kept there marked' main')
      · have := (last' bk inside main).1
        rw [marked] at this
        cases this
    · rcases form' with ⟨marked',-⟩ | ⟨-,last'⟩
      · have := (last kept there main').1
        rw [marked'] at this
        cases this
      · exact le_antisymm (last kept there main').2 (last' bk inside main).2
  rw [found',eq_of_rev_eq (List.pairwise_append.mp sorted).2.1 member inside same]

/-- What compaction at `c` finds: the generations `dropped`, all over before `c`; the generation `g` that
    reaches `c`, cut into what it drops, the revision it keeps and what is later than `c`; and the `newer` ones. -/
private structure Trim (c : Int) (dropped : List Generation) (g : Generation) (newer : List Generation)
    (gone kept later : List Revision) : Prop where
  ended : ∀ d ∈ dropped, ∃ tomb, d.revs.getLast? = some tomb ∧ tomb.main < c
  reaches : newer ≠ [] → ∃ tomb, g.revs.getLast? = some tomb ∧ c ≤ tomb.main
  split : g.revs = gone ++ kept ++ later
  keeps : ∀ x ∈ kept, x.main ≤ c
  after : ∀ x ∈ later, c < x.main
  one : kept.length ≤ 1
  replaced : gone ≠ [] → kept ≠ []

private theorem compactGenIdx_split (c : Int) {ended : List Generation} (closed : ∀ g ∈ ended, g.revs ≠ [])
    (current : Generation) :
    ∃ dropped g newer, ended ++ [current] = dropped ++ g :: newer ∧
      compactGenIdx c (ended ++ [current]) = some dropped.length ∧
      (∀ d ∈ dropped, ∃ tomb, d.revs.getLast? = some tomb ∧ tomb.main < c) ∧
      (newer ≠ [] → ∃ tomb, g.revs.getLast? = some tomb ∧ c ≤ tomb.main) := by
  induction ended with
  | nil => exact ⟨[],current,[],rfl,rfl,by simp,by simp⟩
  | cons first rest ih =>
    obtain ⟨tomb,last⟩ := List.getLast?_isSome.mpr (closed first (by simp)) |> Option.isSome_iff_exists.mp
    have step : compactGenIdx c (first :: rest ++ [current]) =
        if tomb.main ≥ c then some 0 else (compactGenIdx c (rest ++ [current])).map (· + 1) := by
      rw [List.cons_append,compactGenIdx]
      · simp [last]
      · simp
    rw [step]
    by_cases reached : tomb.main ≥ c
    · exact ⟨[],first,rest ++ [current],rfl,by simp [reached],by simp,fun _ => ⟨tomb,last,reached⟩⟩
    · obtain ⟨dropped,g,newer,split,idx,ended,reaches⟩ := ih fun g inside => closed g (by simp [inside])
      refine ⟨first :: dropped,g,newer,by simp [split],by simp [reached,idx],?_,reaches⟩
      intro d inside
      rcases List.mem_cons.mp inside with same | old
      · exact ⟨tomb,same ▸ last,not_le.mp reached⟩
      · exact ended d old

private theorem Lives.compact_trim {ki : KeyIndex} {ended : List Generation} {current : Generation}
    (lives : ki.Lives ended current) (c : Int) (available : List Revision) :
    ∃ dropped g newer gone kept later, ki.generations = dropped ++ g :: newer ∧
      Trim c dropped g newer gone kept later ∧
      ki.compact c available =
        .ok ({ ki with generations := { g with revs := kept ++ later } :: newer },available ++ kept) := by
  obtain ⟨dropped,g,newer,split,idx,ended,reaches⟩ := compactGenIdx_split c lives.closed current
  rw [← lives.generations] at split idx
  have at_ : ki.generations[dropped.length]? = some g := by simp [split]
  have rest : ki.generations.drop dropped.length = g :: newer := by simp [split]
  rcases walkBackwards_cases g c with ⟨stop,after⟩ | ⟨older,rev,later,revs,le,after,stop⟩
  · refine ⟨dropped,g,newer,[],[],g.revs,split,⟨ended,reaches,by simp,by simp,after,by simp,by simp⟩,?_⟩
    simp [compact,lives.not_empty,doCompact,idx,at_,rest,stop]
  · refine ⟨dropped,g,newer,older,[rev],later,split,
      ⟨ended,reaches,by simp [revs],by simpa using le,after,by simp,by simp⟩,?_⟩
    have here : g.revs[older.length]? = some rev := by simp [revs]
    have cut : g.revs.drop older.length = rev :: later := by simp [revs]
    simp [compact,lives.not_empty,doCompact,idx,at_,rest,stop,here,cut]

/-! ### Answers -/

private theorem viewGens_congr_tail {t : Int} {a b : List Generation}
    (same : ∀ last, viewGens t last a = viewGens t last b) (newer : List Generation) (last : Bool) :
    viewGens t last (newer ++ a) = viewGens t last (newer ++ b) := by
  induction newer generalizing last with
  | nil => exact same last
  | cons g rest ih => simp only [List.cons_append,viewGens,ih]

section Trim

variable {c : Int} {dropped newer : List Generation} {g : Generation} {gone kept later : List Revision}

private theorem Trim.getLast (trim : Trim c dropped g newer gone kept later) :
    (kept ++ later).getLast? = g.revs.getLast? := by
  rw [trim.split,List.append_assoc]
  by_cases none : kept ++ later = []
  · have : gone = [] := by
      by_contra some
      exact trim.replaced some (List.append_eq_nil_iff.mp none).1
    simp [none,this]
  · rw [List.getLast?_append_of_ne_nil _ none]

private theorem Trim.kept_cases (trim : Trim c dropped g newer gone kept later) :
    (gone = [] ∧ kept = []) ∨ ∃ rev, kept = [rev] ∧ rev.main ≤ c := by
  match kept, trim.one, trim.keeps, trim.replaced with
  | [], _, _, replaced => exact Or.inl ⟨by by_contra some; exact replaced some rfl,rfl⟩
  | [rev], _, keeps, _ => exact Or.inr ⟨rev,rfl,keeps rev (by simp)⟩

private theorem viewGens_dropped {t : Int} (le : c ≤ t) (ended : ∀ d ∈ dropped, ∃ tomb, d.revs.getLast? = some tomb ∧
    tomb.main < c) : viewGens t false dropped.reverse = none := by
  cases split : dropped.reverse with
  | nil => rfl
  | cons d older =>
    have member : d ∈ dropped := by rw [← List.mem_reverse,split]; simp
    obtain ⟨tomb,last,below⟩ := ended d member
    have ended : endsBy d t = true := by simp [endsBy,last]; omega
    simp [viewGens,ended]

private theorem Trim.viewGens_eq (trim : Trim c dropped g newer gone kept later)
    (sorted : g.revs.Pairwise (· < ·)) {t : Int} (le : c ≤ t) (last : Bool) :
    viewGens t last [{ g with revs := kept ++ later }] = viewGens t last (g :: dropped.reverse) := by
  have ends : endsBy { g with revs := kept ++ later } t = endsBy g t := by simp only [endsBy,trim.getLast]
  rcases trim.kept_cases with ⟨goneNil,keptNil⟩ | ⟨rev,keptRev,revLe⟩
  · have whole : { g with revs := kept ++ later } = g := by
      have revs := trim.split
      simp only [goneNil,keptNil,List.nil_append] at revs ⊢
      rw [← revs]
    rw [whole]
    simp only [viewGens,viewGens_dropped le trim.ended]
  · have lead : startsBy { g with revs := kept ++ later } t = true := by simp [startsBy,keptRev]; omega
    have begun : startsBy g t = true := by
      have revs := trim.split
      rw [keptRev] at revs
      cases goneSplit : gone with
      | nil => simp [startsBy,revs,goneSplit]; omega
      | cons first rest =>
        rw [revs,goneSplit] at sorted
        have less : first < rev := (List.pairwise_append.mp (List.pairwise_append.mp sorted).1).2.2 first (by simp)
          rev (by simp)
        have := Revision.main_le_of_lt less
        simp [startsBy,revs,goneSplit]
        omega
    have answer : getIn { g with revs := kept ++ later } t = getIn g t := by
      have form : g = ⟨g.version,g.created,gone ++ rev :: later⟩ := by
        have revs := trim.split
        rw [keptRev,List.append_assoc,List.singleton_append] at revs
        rw [← revs]
      rw [form,getIn_append_of_le _ _ _ (revLe.trans le),keptRev]
      rfl
    simp only [viewGens,ends,lead,begun,answer,if_true]

/-! ### Records -/

private theorem Trim.genKeys_eq (trim : Trim c dropped g newer gone kept later) (sorted : g.revs.Pairwise (· < ·)) :
    genKeys (g :: newer) = (gone.map fun rev => ⟨rev,false⟩) ++ genKeys ({ g with revs := kept ++ later } :: newer) := by
  cases newer with
  | nil => simp [genKeys,trim.split]
  | cons n rest =>
    have unmarked : (gone.map fun rev => (⟨rev,decide (g.revs.getLast? = some rev)⟩ : KvBucketKey))
        = gone.map fun rev => ⟨rev,false⟩ := by
      refine List.map_congr_left fun x inside => ?_
      have other : g.revs.getLast? ≠ some x := by
        intro last
        have inKept : x ∈ kept ++ later := List.mem_of_getLast? (trim.getLast.trans last)
        rw [trim.split,List.append_assoc] at sorted
        exact lt_irrefl x ((List.pairwise_append.mp sorted).2.2 x inside x inKept)
      simp [other]
    rw [genKeys_cons g (by simp),genKeys_cons { g with revs := kept ++ later } (by simp)]
    simp only [trim.getLast]
    rw [← List.append_assoc,← unmarked,← List.map_append,← List.append_assoc,← trim.split]

private theorem key_of_rev {gens : List Generation} {rev : Revision} (member : rev ∈ allRevs gens) :
    ∃ bk ∈ genKeys gens, bk.rev = rev := by
  rw [← genKeys_revs] at member
  exact List.mem_map.mp member

private theorem revs_sorted {gens : List Generation} (sorted : (allRevs gens).Pairwise (· < ·)) {g : Generation}
    (member : g ∈ gens) : g.revs.Pairwise (· < ·) := (List.pairwise_flatMap.mp sorted).1 g member

private theorem lt_getLast {revs : List Revision} (sorted : revs.Pairwise (· < ·)) {tomb x : Revision}
    (last : revs.getLast? = some tomb) (member : x ∈ revs) (other : x ≠ tomb) : x < tomb := by
  obtain ⟨older,split⟩ := List.getLast?_eq_some_iff.mp last
  rw [split] at sorted member
  rcases List.mem_append.mp member with old | new
  · exact (List.pairwise_append.mp sorted).2.2 x old tomb (by simp)
  · exact absurd (List.mem_singleton.mp new) other

/-- The bucket keys of the generations compaction removes whole. -/
private def closedKeys (dropped : List Generation) : List KvBucketKey :=
  dropped.flatMap fun g => g.revs.map fun rev => ⟨rev,g.revs.getLast? = some rev⟩

private theorem Trim.superseded (trim : Trim c dropped g newer gone kept later)
    (sorted : (allRevs (dropped ++ g :: newer)).Pairwise (· < ·)) {bk : KvBucketKey}
    (member : bk ∈ closedKeys dropped ++ gone.map fun rev => ⟨rev,false⟩) :
    bk.rev.main ≤ c ∧ Superseded c (genKeys (dropped ++ g :: newer)) bk := by
  rcases List.mem_append.mp member with old | cut
  · obtain ⟨d,inside,image⟩ := List.mem_flatMap.mp old
    obtain ⟨x,xIn,rfl⟩ := List.mem_map.mp image
    obtain ⟨tomb,last,below⟩ := trim.ended d inside
    have dSorted := revs_sorted sorted (List.mem_append_left _ inside)
    by_cases same : x = tomb
    · exact ⟨by simp only [same]; omega,Or.inl ⟨by simp [last,same],by simp [same,below]⟩⟩
    · have less := lt_getLast dSorted last xIn same
      have tombIn : tomb ∈ allRevs (dropped ++ g :: newer) :=
        List.mem_flatMap.mpr ⟨d,List.mem_append_left _ inside,List.mem_of_getLast? last⟩
      obtain ⟨newerKey,keyIn,keyRev⟩ := key_of_rev tombIn
      have := Revision.main_le_of_lt less
      exact ⟨by simp only; omega,Or.inr ⟨newerKey,keyIn,by rw [keyRev]; exact less,by rw [keyRev]; omega⟩⟩
  · obtain ⟨x,xIn,rfl⟩ := List.mem_map.mp cut
    obtain ⟨rev,keptRev,revLe⟩ := trim.kept_cases.resolve_left fun both => by simp [both.1] at xIn
    have gSorted := revs_sorted sorted (List.mem_append_right dropped List.mem_cons_self)
    rw [trim.split] at gSorted
    have less : x < rev := (List.pairwise_append.mp (List.pairwise_append.mp gSorted).1).2.2 x xIn rev (by simp [keptRev])
    have revIn : rev ∈ allRevs (dropped ++ g :: newer) := by simp [trim.split,keptRev]
    obtain ⟨newerKey,keyIn,keyRev⟩ := key_of_rev revIn
    have := Revision.main_le_of_lt less
    exact ⟨by simp only; omega,Or.inr ⟨newerKey,keyIn,by rw [keyRev]; exact less,by rw [keyRev]; exact revLe⟩⟩

private theorem newer_after {c : Int} (trim : Trim c dropped g newer gone kept later)
    (sorted : (allRevs (dropped ++ g :: newer)).Pairwise (· < ·)) {x : Revision} (member : x ∈ allRevs newer) :
    ∃ tomb, g.revs.getLast? = some tomb ∧ c ≤ tomb.main ∧ tomb < x := by
  have more : newer ≠ [] := by rintro rfl; simp at member
  obtain ⟨tomb,last,reached⟩ := trim.reaches more
  have tail := (List.pairwise_append.mp (by simpa using sorted)).2.1
  exact ⟨tomb,last,reached,(List.pairwise_append.mp tail).2.2 tomb (List.mem_of_getLast? last) x member⟩

/-- A record up to `c` that stays in the index is the kept one, unless the transaction `c` deleted the key
    and put it again: then the walk has already stopped at the tombstone. -/
private theorem Trim.retains (trim : Trim c dropped g newer gone kept later)
    (sorted : (allRevs (dropped ++ g :: newer)).Pairwise (· < ·)) {bk : KvBucketKey}
    (member : bk ∈ genKeys ({ g with revs := kept ++ later } :: newer)) (le : bk.rev.main ≤ c) :
    bk.rev ∈ kept ∨ DeletedThenPut c (genKeys (dropped ++ g :: newer)) := by
  have revIn := rev_mem_of_mem_genKeys member
  rw [allRevs_cons,List.mem_append,List.mem_append] at revIn
  rcases revIn with (keptIn | laterIn) | newerIn
  · exact Or.inl keptIn
  · exact absurd (trim.after _ laterIn) (not_lt.mpr le)
  · obtain ⟨tomb,last,reached,less⟩ := newer_after trim sorted newerIn
    have := Revision.main_le_of_lt less
    have more : newer ≠ [] := by rintro rfl; simp at newerIn
    obtain ⟨p,pIn,pRev⟩ := key_of_rev (show bk.rev ∈ allRevs (dropped ++ g :: newer) by simp [newerIn])
    refine Or.inr ⟨⟨tomb,true⟩,?_,p,pIn,rfl,by simp only; omega,by rw [pRev]; omega,by rw [pRev]; exact less⟩
    rw [genKeys_append _ (by simp),genKeys_cons _ more]
    refine List.mem_append_right _ (List.mem_append_left _ (List.mem_map.mpr ⟨tomb,List.mem_of_getLast? last,?_⟩))
    simp [last]

private theorem Trim.tombs (trim : Trim c dropped g newer gone kept later)
    (sorted : (allRevs (dropped ++ g :: newer)).Pairwise (· < ·)) {bk : KvBucketKey}
    (member : bk ∈ genKeys ({ g with revs := kept ++ later } :: newer)) (marked : bk.tombstone = true) :
    c ≤ bk.rev.main := by
  by_cases more : newer = []
  · subst more
    obtain ⟨x,-,rfl⟩ := List.mem_map.mp (by simpa only [genKeys] using member)
    simp at marked
  · rw [genKeys_cons _ more] at member
    rcases List.mem_append.mp member with here | after
    · obtain ⟨x,xIn,rfl⟩ := List.mem_map.mp here
      obtain ⟨tomb,last,reached⟩ := trim.reaches more
      simp only [trim.getLast,last,Option.some.injEq,decide_eq_true_eq] at marked
      rw [← marked]
      exact reached
    · obtain ⟨tomb,-,reached,less⟩ := newer_after trim sorted (rev_mem_of_mem_genKeys after)
      exact reached.trans (Revision.main_le_of_lt less)

private theorem Trim.keeper (trim : Trim c dropped g newer gone kept later)
    (sorted : (allRevs (dropped ++ g :: newer)).Pairwise (· < ·)) {bk : KvBucketKey}
    (found : KeyIndex.keeper c (genKeys (dropped ++ g :: newer)) = some bk) : bk.rev ∈ kept := by
  have keysSorted : (genKeys (dropped ++ g :: newer)).Pairwise fun a b => a.rev < b.rev := by
    rw [← genKeys_revs,List.pairwise_map] at sorted
    exact sorted
  obtain ⟨member,at_,form⟩ := keeper_cases keysSorted found
  have inside := rev_mem_of_mem_genKeys member
  rw [allRevs_append,allRevs_cons,List.mem_append,List.mem_append] at inside
  rcases inside with old | here | after
  · -- the dropped lives ended before `c`
    obtain ⟨d,dIn,xIn⟩ := List.mem_flatMap.mp old
    obtain ⟨tomb,last,below⟩ := trim.ended d dIn
    have dSorted := revs_sorted sorted (List.mem_append_left _ dIn)
    by_cases same : bk.rev = tomb
    · rw [← same] at below
      omega
    · have := Revision.main_le_of_lt (lt_getLast dSorted last xIn same)
      omega
  · have gSorted := revs_sorted sorted (List.mem_append_right dropped List.mem_cons_self)
    rw [trim.split] at here gSorted
    rcases List.mem_append.mp here with before | later
    · rcases List.mem_append.mp before with cut | keptIn
      · -- a later revision of the same life is kept, so the keeper would be that one
        obtain ⟨rev,keptRev,revLe⟩ := trim.kept_cases.resolve_left fun both => by simp [both.1] at cut
        have less : bk.rev < rev := (List.pairwise_append.mp (List.pairwise_append.mp gSorted).1).2.2 bk.rev cut rev
          (by simp [keptRev])
        have revIn : rev ∈ allRevs (dropped ++ g :: newer) := by
          simp [trim.split,keptRev]
        have revMain : rev.main = c := by
          have := Revision.main_le_of_lt less
          omega
        obtain ⟨newerKey,keyIn,keyRev⟩ := key_of_rev revIn
        rcases form with ⟨marked,-⟩ | ⟨-,last⟩
        · have put : (⟨bk.rev,false⟩ : KvBucketKey) ∈ genKeys (dropped ++ g :: newer) := by
            rw [genKeys_append _ (by simp),trim.genKeys_eq (revs_sorted sorted (by simp))]
            exact List.mem_append_right _ (List.mem_append_left _ (List.mem_map.mpr ⟨bk.rev,cut,rfl⟩))
          have equal := eq_of_rev_eq keysSorted member put rfl
          rw [equal] at marked
          cases marked
        · have := (last newerKey keyIn (by rw [keyRev]; exact revMain)).2
          rw [keyRev] at this
          exact absurd less (not_lt.mpr this)
      · exact keptIn
    · exact absurd (trim.after _ later) (by omega)
  · -- the tombstone of the life that reaches `c` comes first
    obtain ⟨tomb,last,reached,less⟩ := newer_after trim sorted after
    have main : tomb.main = c := by
      have := Revision.main_le_of_lt less
      omega
    have more : newer ≠ [] := by rintro rfl; simp at after
    have tombIn : (⟨tomb,true⟩ : KvBucketKey) ∈ genKeys (dropped ++ g :: newer) := by
      rw [genKeys_append _ (by simp),genKeys_cons _ more]
      refine List.mem_append_right _ (List.mem_append_left _ (List.mem_map.mpr ⟨tomb,List.mem_of_getLast? last,?_⟩))
      simp [last]
    rcases form with ⟨-,first⟩ | ⟨-,all⟩
    · exact absurd less (not_lt.mpr (first ⟨tomb,true⟩ tombIn rfl main))
    · exact absurd (all ⟨tomb,true⟩ tombIn main).1 (by simp)

/-- What is left is a well-formed index whose current life is cut only where it reaches down to `c`, or
    an empty one. -/
private theorem Trim.lives {ki : KeyIndex} {ended : List Generation} {current : Generation}
    (lives : ki.Lives ended current) (split : ki.generations = dropped ++ g :: newer)
    (trim : Trim c dropped g newer gone kept later) :
    (newer = [] ∧ g = current ∧ kept ++ later = []) ∨
    (newer = [] ∧ g = current ∧
      Lives { ki with generations := [{ g with revs := kept ++ later }] } [] { g with revs := kept ++ later }) ∨
    ∃ newerOver, newer = newerOver ++ [current] ∧
      Lives { ki with generations := { g with revs := kept ++ later } :: newer }
        ({ g with revs := kept ++ later } :: newerOver) current := by
  have suffix : allRevs ended ++ current.revs
      = (allRevs dropped ++ gone) ++ (kept ++ later ++ allRevs newer) := by
    have whole : allRevs (ended ++ [current]) = allRevs (dropped ++ g :: newer) := by rw [← split,lives.generations]
    simpa [trim.split] using whole
  have sorted : (kept ++ later ++ allRevs newer).Pairwise (· < ·) := by
    have all := lives.sorted
    rw [suffix] at all
    exact (List.pairwise_append.mp all).2.1
  have newest : kept ++ later ++ allRevs newer ≠ [] →
      (kept ++ later ++ allRevs newer).getLast? = some ki.modRev := by
    intro some
    rw [← lives.newest,suffix,List.getLast?_append_of_ne_nil _ some]
  have whole : ended ++ [current] = dropped ++ g :: newer := by rw [← lives.generations,split]
  have counted : ((kept ++ later).length : Int) ≤ g.version := by
    have full := lives.counted g (by rw [whole]; simp)
    rw [trim.split] at full
    simp only [List.length_append] at full ⊢
    push_cast at full ⊢
    omega
  rcases List.eq_nil_or_concat newer with none | ⟨newerOver,last,some⟩
  · subst none
    have same : g = current := by
      have := congrArg List.getLast? whole
      simpa using this.symm
    by_cases empty : kept ++ later = []
    · exact Or.inl ⟨rfl,same,empty⟩
    · refine Or.inr (Or.inl ⟨rfl,same,?_⟩)
      constructor
      · rfl
      · simp
      · simp
      · simpa using sorted
      · simpa using counted
      · intro none
        exact absurd none empty
      · simpa using newest (by simpa using empty)
  · rw [List.concat_eq_append] at some
    subst some
    have ends : ended ++ [current] = (dropped ++ g :: newerOver) ++ [last] := by simp [whole]
    obtain ⟨overSplit,same⟩ := List.append_inj' ends rfl
    simp only [List.cons.injEq,and_true] at same
    subst same
    have alive : kept ++ later ≠ [] := by
      intro none
      obtain ⟨tomb,last,-⟩ := trim.reaches (by simp)
      rw [← trim.getLast,none] at last
      simp at last
    refine Or.inr (Or.inr ⟨newerOver,rfl,?_⟩)
    constructor
    · rfl
    · intro d inside
      rcases List.mem_cons.mp inside with here | old
      · rw [here]; exact alive
      · exact lives.closed d (by rw [overSplit]; simp [old])
    · intro d inside
      refine lives.begun d ?_
      rw [overSplit]
      cases dropped <;> simp_all
    · simpa using sorted
    · intro d inside
      rcases List.mem_append.mp inside with old | new
      · rcases List.mem_cons.mp old with here | rest
        · rw [here]; exact counted
        · exact lives.counted d (by rw [overSplit]; simp [rest])
      · exact lives.counted d (by simp [List.mem_singleton.mp new])
    · exact lives.fresh
    · simpa using newest (by simp_all)

end Trim

/-- The whole effect of compacting a key index at `c`. -/
structure Compacted (c : Int) (ki ki' : KeyIndex) (kept : List Revision) : Prop where
  key : ki'.key = ki.key
  shape : ki'.isEmpty = true ∧ ki'.bucketKeys = [] ∨ ki'.isEmpty = false ∧ ki'.WellFormed
  view : ∀ t, c ≤ t → ki'.view t = ki.view t
  keys : ∃ gone, ki.bucketKeys = gone ++ ki'.bucketKeys ∧
    ∀ bk ∈ gone, bk.rev.main ≤ c ∧ Superseded c ki.bucketKeys bk
  kept_le : ∀ rev ∈ kept, rev.main ≤ c
  kept_one : kept.length ≤ 1
  kept_mem : ∀ rev ∈ kept, ∃ bk ∈ ki'.bucketKeys, bk.rev = rev
  retains : ¬ DeletedThenPut c ki.bucketKeys → ∀ bk ∈ ki'.bucketKeys, bk.rev.main ≤ c → bk.rev ∈ kept
  tombs : ∀ bk ∈ ki'.bucketKeys, bk.tombstone = true → c ≤ bk.rev.main
  keeper : ∀ bk, keeper c ki.bucketKeys = some bk → bk.rev ∈ kept

section

variable {c : Int} {dropped newer : List Generation} {g : Generation} {gone kept later : List Revision}

private theorem Trim.compacted {ki : KeyIndex} {ended : List Generation} {current : Generation}
    (lives : ki.Lives ended current) (split : ki.generations = dropped ++ g :: newer)
    (trim : Trim c dropped g newer gone kept later) :
    Compacted c ki { ki with generations := { g with revs := kept ++ later } :: newer } kept := by
  have sorted : (allRevs (dropped ++ g :: newer)).Pairwise (· < ·) := by
    rw [← split,lives.generations]
    simpa using lives.sorted
  have gSorted := revs_sorted sorted (List.mem_append_right dropped List.mem_cons_self)
  have keys : ki.bucketKeys = (closedKeys dropped ++ gone.map fun rev => ⟨rev,false⟩) ++
      genKeys ({ g with revs := kept ++ later } :: newer) := by
    rw [bucketKeys,split,genKeys_append _ (by simp),trim.genKeys_eq gSorted,← List.append_assoc]
    rfl
  constructor
  · rfl
  · rcases trim.lives lives split with ⟨none,-,empty⟩ | ⟨none,-,alive⟩ | ⟨newerOver,-,alive⟩
    · subst none
      refine Or.inl ⟨?_,?_⟩
      · simpa [isEmpty] using empty
      · simpa [bucketKeys,genKeys] using empty
    · subst none
      exact Or.inr ⟨alive.not_empty,_,_,alive⟩
    · exact Or.inr ⟨alive.not_empty,_,_,alive⟩
  · intro t le
    rw [view_eq,view_eq,split,List.reverse_append,List.reverse_cons,List.reverse_cons,List.append_assoc]
    exact viewGens_congr_tail (fun last => trim.viewGens_eq gSorted le last) newer.reverse true
  · exact ⟨_,keys,fun bk member => by
      rw [bucketKeys,split]
      exact trim.superseded sorted member⟩
  · exact trim.keeps
  · exact trim.one
  · intro rev member
    exact key_of_rev (by simp [member])
  · intro clean bk member le
    rw [bucketKeys,split] at clean
    exact (trim.retains sorted member le).resolve_right clean
  · exact fun bk member marked => trim.tombs sorted member marked
  · intro bk found
    rw [bucketKeys,split] at found
    exact trim.keeper sorted found

end

theorem WellFormed.compact {ki : KeyIndex} (wellFormed : ki.WellFormed) (c : Int) (available : List Revision) :
    ∃ ki' kept, ki.compact c available = .ok (ki',available ++ kept) ∧ Compacted c ki ki' kept := by
  obtain ⟨ended,current,lives⟩ := wellFormed
  obtain ⟨dropped,g,newer,gone,kept,later,split,trim,run⟩ := lives.compact_trim c available
  exact ⟨_,kept,run,trim.compacted lives split⟩

theorem WellFormed.compact_generations {ki ki' : KeyIndex} (wellFormed : ki.WellFormed) {available avail : List Revision}
    (run : ki.compact c available = .ok (ki',avail)) {g : Generation} (member : g ∈ ki'.generations) :
    g ∈ ki.generations ∨ ∃ rev ∈ g.revs, rev.main ≤ c := by
  obtain ⟨ended,current,lives⟩ := wellFormed
  obtain ⟨dropped,h,newer,gone,kept,later,split,trim,result⟩ := lives.compact_trim c available
  rw [result] at run
  cases run
  rcases List.mem_cons.mp member with is | inside
  · rcases trim.kept_cases with ⟨none,no⟩ | ⟨rev,one,le⟩
    · refine Or.inl ?_
      have same : g = h := by rw [is,no,List.nil_append,show later = h.revs by rw [trim.split,none,no]; rfl]
      rw [same,split]
      simp
    · exact Or.inr ⟨rev,by simp [is,one],le⟩
  · exact Or.inl (by rw [split]; simp [inside])

/-- In a key whose transaction `c` is clean the dropped records are exactly the superseded ones. -/
theorem Compacted.mem_iff {ki ki' : KeyIndex} {kept : List Revision} (compacted : Compacted c ki ki' kept)
    (wellFormed : ki.WellFormed) (clean : ¬ DeletedThenPut c ki.bucketKeys)
    (member : bk ∈ ki.bucketKeys) :
    bk ∈ ki'.bucketKeys ↔ ¬ (bk.rev.main ≤ c ∧ Superseded c ki.bucketKeys bk) := by
  obtain ⟨gone,keys,dropped⟩ := compacted.keys
  obtain ⟨ended,current,lives⟩ := wellFormed
  have sorted := lives.keys_sorted
  rw [keys] at sorted
  constructor
  · rintro stays ⟨le,old⟩
    have here := compacted.retains clean bk stays le
    rcases old with ⟨marked,below⟩ | ⟨newer,inside,less,newerLe⟩
    · exact absurd (compacted.tombs bk stays marked) (not_le.mpr below)
    · have newerStays : newer ∈ ki'.bucketKeys := by
        rw [keys,List.mem_append] at inside
        refine inside.resolve_left fun cut => ?_
        exact absurd ((List.pairwise_append.mp sorted).2.2 newer cut bk stays) (lt_asymm less)
      have there := compacted.retains clean newer newerStays newerLe
      match kept, compacted.kept_one, here, there with
      | [rev], _, here, there =>
        rw [List.mem_singleton.mp here,List.mem_singleton.mp there] at less
        exact lt_irrefl rev less
  · intro current
    rw [keys,List.mem_append] at member
    exact member.resolve_left fun cut => current (dropped bk cut)

end KeyIndex

end Kave
