import Kave.KeyIndex

/-! What one key index answers at every revision, and how writing, deleting, compacting and taking back a
    revision move the answer. -/

namespace Kave

namespace KeyIndex

theorem walkBackwards_snoc (v : Int) (c : Revision) (revs : List Revision) (rev : Revision) (f : Revision → Bool) :
    Generation.walkBackwards ⟨v,c,revs ++ [rev]⟩ f =
      if f rev then Generation.walkBackwards ⟨v,c,revs⟩ f else some revs.length := by
  by_cases goes : f rev = true
  · simp [Generation.walkBackwards,List.findIdx?_cons,goes,Function.comp_def]
  · simp [Generation.walkBackwards,List.findIdx?_cons,goes]

/-- The walk stops at the last revision up to `t`, or runs through. -/
theorem walkBackwards_cases (g : Generation) (t : Int) :
    (g.walkBackwards (fun rev => rev.main > t) = none ∧ ∀ rev ∈ g.revs, t < rev.main) ∨
    ∃ older rev newer, g.revs = older ++ rev :: newer ∧ rev.main ≤ t ∧ (∀ x ∈ newer, t < x.main) ∧
      g.walkBackwards (fun rev => rev.main > t) = some older.length := by
  obtain ⟨v,c,revs⟩ := g
  induction revs using List.reverseRecOn with
  | nil => exact Or.inl ⟨rfl,by simp⟩
  | append_singleton revs last ih =>
    rw [walkBackwards_snoc]
    by_cases later : t < last.main
    · simp only [gt_iff_lt,later,decide_true,if_true]
      rcases ih with ⟨none,after⟩ | ⟨older,rev,newer,split,le,after,stop⟩
      · refine Or.inl ⟨none,fun rev inside => ?_⟩
        rcases List.mem_append.mp inside with old | new
        · exact after rev old
        · rw [List.mem_singleton.mp new]; exact later
      · refine Or.inr ⟨older,rev,newer ++ [last],?_,le,fun x inside => ?_,stop⟩
        · simpa using congrArg (· ++ [last]) split
        · rcases List.mem_append.mp inside with old | new
          · exact after x old
          · rw [List.mem_singleton.mp new]; exact later
    · refine Or.inr ⟨revs,last,[],rfl,not_lt.mp later,by simp,?_⟩
      simp [later]

theorem getIn_nil (v : Int) (c : Revision) (t : Int) : getIn ⟨v,c,[]⟩ t = none := by
  simp [getIn,Generation.walkBackwards]

variable {ki : KeyIndex} {g : Generation} {rev : Revision} {t : Int} {ended : List Generation} {current : Generation}

private theorem walkBackwards_lt {f : Revision → Bool} {n : Nat} (stop : g.walkBackwards f = some n) :
    n < g.revs.length := by
  obtain ⟨i,found,same⟩ := Option.map_eq_some_iff.mp stop
  have bound : i < g.revs.length := by simpa using (List.findIdx?_eq_some_iff_getElem.mp found).1
  omega

theorem getIn_snoc (v : Int) (c : Revision) (revs : List Revision) (rev : Revision) (t : Int) :
    getIn ⟨v,c,revs ++ [rev]⟩ t = if t < rev.main then getIn ⟨v-1,c,revs⟩ t else some (c,rev,v) := by
  rw [getIn,walkBackwards_snoc]
  by_cases later : t < rev.main
  · simp only [gt_iff_lt,later,decide_true,if_true,getIn]
    rw [show Generation.walkBackwards ⟨v-1,c,revs⟩ = Generation.walkBackwards ⟨v,c,revs⟩ from rfl]
    cases stop : Generation.walkBackwards ⟨v,c,revs⟩ fun rev => decide (t < rev.main) with
    | none => rfl
    | some n =>
      rw [Option.bind_some,Option.bind_some,List.getElem?_append_left (walkBackwards_lt stop)]
      congr 1
      funext found
      simp only [List.length_append,List.length_singleton]
      congr 2
      push_cast
      omega
  · simp [later]

theorem getIn_append_of_le (v : Int) (c : Revision) (older : List Revision)
    (le : rev.main ≤ t) (newer : List Revision) :
    getIn ⟨v,c,older ++ rev :: newer⟩ t = getIn ⟨v,c,rev :: newer⟩ t := by
  induction newer using List.reverseRecOn generalizing v with
  | nil =>
    have single := getIn_snoc v c [] rev t
    rw [List.nil_append] at single
    rw [getIn_snoc,single]
    simp [not_lt.mpr le]
  | append_singleton newer last ih =>
    rw [← List.cons_append,← List.append_assoc,getIn_snoc,getIn_snoc,ih]

theorem getIn_eq_some {v : Int} {c : Revision} {revs : List Revision} {found : Revision × Revision × Int}
    (same : getIn ⟨v,c,revs⟩ t = some found) :
    ∃ older newer, revs = older ++ found.2.1 :: newer ∧ found.2.1.main ≤ t ∧ (∀ rev ∈ newer, t < rev.main) ∧
      found.1 = c ∧ found.2.2 = v - newer.length := by
  induction revs using List.reverseRecOn generalizing v with
  | nil => simp [getIn_nil] at same
  | append_singleton revs last ih =>
    rw [getIn_snoc] at same
    split at same
    next later =>
      obtain ⟨older,newer,split,le,after,created,version⟩ := ih same
      refine ⟨older,newer ++ [last],by simp [split],le,?_,created,?_⟩
      · intro rev inside
        rcases List.mem_append.mp inside with old | new
        · exact after rev old
        · rw [List.mem_singleton.mp new]; exact later
      · rw [version,List.length_append]; push_cast; simp; omega
    next le =>
      cases same
      exact ⟨revs,[],rfl,not_lt.mp le,by simp,rfl,by simp⟩

/-- The first revision of the generation is not later than `t`. -/
def startsBy (g : Generation) (t : Int) : Bool := g.revs.head?.any (·.main ≤ t)

/-- The last revision of the generation is not later than `t`. -/
def endsBy (g : Generation) (t : Int) : Bool := g.revs.getLast?.any (·.main ≤ t)

/-- The answer of the generations, newest first, at `t`; `last` holds at the newest. -/
def viewGens (t : Int) : Bool → List Generation → Option (Revision × Revision × Int)
  | _, [] => none
  | last, g :: older =>
    if !last && endsBy g t then none
    else if startsBy g t then getIn g t
    else viewGens t false older

/-- The create revision, mod revision and version of the key at `t`, if it is alive there. -/
def view (ki : KeyIndex) (t : Int) : Option (Revision × Revision × Int) := (ki.get t).toOption

private theorem findGenLoop_view (t : Int) (last : Bool) (gens : List Generation) :
    (match findGenLoop t last gens with
      | .error _ => none
      | .ok g => getIn g t) = viewGens t last gens := by
  induction gens generalizing last with
  | nil => simp [findGenLoop,viewGens]
  | cons g older ih =>
    obtain ⟨version,created,revs⟩ := g
    cases revs with
    | nil => simpa [findGenLoop,viewGens,endsBy,startsBy] using ih false
    | cons first rest =>
      have tomb : (first :: rest).getLast?.any (·.main ≤ t) = decide (((first :: rest).getLastD first).main ≤ t) := by
        rw [List.getLast?_eq_some_getLast (by simp),List.getLastD_eq_getLast?,
          List.getLast?_eq_some_getLast (by simp)]
        simp
      simp only [findGenLoop,viewGens,endsBy,startsBy,tomb,List.head?_cons,Option.any_some]
      by_cases ended : (!last && decide (((first :: rest).getLastD first).main ≤ t)) = true
      · simp only [ended,if_true]
      · by_cases begun : first.main ≤ t
        · simp only [ended,begun,if_false,if_true,Bool.false_eq_true,decide_true]
        · simpa only [ended,begun,if_false,Bool.false_eq_true,decide_false] using ih false

theorem view_eq (ki : KeyIndex) (t : Int) : ki.view t = viewGens t true ki.generations.reverse := by
  rw [← findGenLoop_view,view,get]
  split
  next empty =>
    obtain ⟨key,modRev,generations⟩ := ki
    match generations, empty with
    | [g], empty =>
      have none : g.revs = [] := by simpa [isEmpty] using empty
      simp [findGenLoop,none,Except.toOption]
  next =>
    rw [findGen]
    cases findGenLoop t true ki.generations.reverse with
    | error cause => simp [Except.toOption]
    | ok g =>
      cases answer : getIn g t <;> simp [answer,Except.toOption]

/-! ### Well-formed key indexes -/

/-- All revisions of a list of generations, oldest first. -/
def allRevs (gens : List Generation) : List Revision := gens.flatMap (·.revs)

@[simp] theorem allRevs_append (a b : List Generation) : allRevs (a ++ b) = allRevs a ++ allRevs b :=
  List.flatMap_append

@[simp] theorem allRevs_cons (g : Generation) (gens : List Generation) :
    allRevs (g :: gens) = g.revs ++ allRevs gens := List.flatMap_cons

@[simp] theorem allRevs_nil : allRevs [] = [] := rfl

/-- The lives of a key: those that are over, each closed by a tombstone, and the current one, which is empty
    while the key is deleted. -/
structure Lives (ki : KeyIndex) (ended : List Generation) (current : Generation) : Prop where
  generations : ki.generations = ended ++ [current]
  closed : ∀ g ∈ ended, g.revs ≠ []
  -- Only compaction leaves a life without a put, and only as the oldest one.
  begun : ∀ g ∈ ended.tail, 2 ≤ g.revs.length
  sorted : (allRevs ended ++ current.revs).Pairwise (· < ·)
  counted : ∀ g ∈ ended ++ [current], g.revs.length ≤ g.version
  fresh : current.revs = [] → current.version = 0
  newest : (allRevs ended ++ current.revs).getLast? = some ki.modRev

/-- The key index has the shape every operation of the tree leaves. -/
def WellFormed (ki : KeyIndex) : Prop := ∃ ended current, ki.Lives ended current

theorem Lives.le_modRev (lives : ki.Lives ended current) (member : rev ∈ allRevs ended ++ current.revs) :
    rev ≤ ki.modRev := by
  obtain ⟨older,split⟩ := List.getLast?_eq_some_iff.mp lives.newest
  have sorted := lives.sorted
  rw [split] at member sorted
  rcases List.mem_append.mp member with old | new
  · exact ((List.pairwise_append.mp sorted).2.2 rev old ki.modRev (by simp)).le
  · rw [List.mem_singleton.mp new]

theorem Lives.current_main_le (lives : ki.Lives ended current) (member : rev ∈ current.revs) : rev.main ≤ ki.modRev.main :=
  Revision.main_le_of_le (lives.le_modRev (by simp [member]))

theorem Lives.not_empty (lives : ki.Lives ended current) : ki.isEmpty = false := by
  rw [isEmpty,lives.generations]
  cases ended with
  | nil =>
    have some := lives.newest
    cases none : current.revs with
    | nil => simp [none] at some
    | cons => simp [none]
  | cons g rest => cases rest <;> simp

@[simp] theorem appendRev_snoc (ended : List Generation) (g : Generation) (rev : Revision) :
    appendRev (ended ++ [g]) rev = ended ++ [g.append rev] := by
  simp [appendRev]

theorem put_eq (later : ki.modRev < rev) :
    ki.put rev.main rev.sub =
      .ok { ki with generations := appendRev ki.generations rev, modRev := rev } := by
  simp [put,Revision.greaterThan_iff.mpr later]

private theorem counted_append (counted : (g.revs.length : Int) ≤ g.version) (rev : Revision) :
    ((g.append rev).revs.length : Int) ≤ (g.append rev).version := by
  simp only [Generation.append,List.length_append,List.length_singleton]
  push_cast
  omega

/-- A put goes on with the current life. -/
theorem Lives.put (lives : ki.Lives ended current)
    (later : ki.modRev < rev) :
    Lives { ki with generations := appendRev ki.generations rev, modRev := rev } ended (current.append rev) where
  generations := by simp [lives.generations]
  closed := lives.closed
  begun := lives.begun
  sorted := by
    rw [Generation.append,← List.append_assoc]
    refine List.pairwise_append.mpr ⟨lives.sorted,by simp,fun a inside b last => ?_⟩
    rw [List.mem_singleton.mp last]
    exact (lives.le_modRev inside).trans_lt later
  counted := by
    intro g inside
    rcases List.mem_append.mp inside with old | new
    · exact lives.counted g (by simp [old])
    · rw [List.mem_singleton.mp new]
      exact counted_append (lives.counted current (by simp)) rev
  fresh := by simp [Generation.append]
  newest := by simp [Generation.append,← List.append_assoc]

theorem Lives.first (key : Bytes) (rev : Revision) :
    Lives ⟨key,rev,[Generation.zero.append rev]⟩ [] (Generation.zero.append rev) := by
  constructor <;> simp [Generation.append,Generation.zero]

/-- A tombstone ends it. -/
theorem Lives.bury (lives : ki.Lives ended current)
    (alive : current.revs ≠ []) (later : ki.modRev < rev) :
    Lives ⟨ki.key,rev,ended ++ [current.append rev] ++ [Generation.zero]⟩ (ended ++ [current.append rev])
      Generation.zero where
  generations := rfl
  closed := by
    intro g inside
    rcases List.mem_append.mp inside with old | new
    · exact lives.closed g old
    · rw [List.mem_singleton.mp new]; simp [Generation.append]
  begun := by
    intro g inside
    cases ended with
    | nil => simp at inside
    | cons first rest =>
      simp only [List.cons_append,List.tail_cons,List.mem_append,List.mem_singleton] at inside
      rcases inside with old | new
      · exact lives.begun g (by simpa using old)
      · have := List.length_pos_iff.mpr alive
        simp [new,Generation.append]
        omega
  sorted := by simpa [Generation.zero] using (lives.put later).sorted
  counted := by
    intro g inside
    rcases List.mem_append.mp inside with old | new
    · exact (lives.put later).counted g old
    · rw [List.mem_singleton.mp new]; simp [Generation.zero]
  fresh := by simp [Generation.zero]
  newest := by simpa [Generation.zero] using (lives.put later).newest

/-! ### How writes move the answers -/

private theorem startsBy_append_before (before : t < rev.main) :
    startsBy (g.append rev) t = startsBy g t := by
  cases split : g.revs <;> simp [startsBy,Generation.append,split,before]

theorem getIn_append_before (before : t < rev.main)
    (alive : g.revs ≠ []) : getIn (g.append rev) t = getIn g t := by
  rw [Generation.append,getIn_snoc,if_pos before]
  simp [alive]

private theorem viewGens_append_before (before : t < rev.main)
    (last : Bool) (older : List Generation) :
    viewGens t last (g.append rev :: older) = viewGens t true (g :: older) := by
  have open_ : endsBy (g.append rev) t = false := by simp [endsBy,Generation.append,before]
  simp only [viewGens,open_,Bool.and_false,Bool.false_eq_true,if_false,Bool.not_true,Bool.false_and,
    startsBy_append_before before]
  by_cases begun : startsBy g t = true
  · have alive : g.revs ≠ [] := by rintro none; simp [startsBy,none] at begun
    simp only [begun,if_true,getIn_append_before before alive]
  · simp only [begun,if_false,Bool.false_eq_true]

private theorem viewGens_append_after (after : rev.main ≤ t)
    (past : ∀ x ∈ g.revs, x.main ≤ t) (older : List Generation) :
    viewGens t true (g.append rev :: older) = some ((g.append rev).created,rev,g.version + 1) := by
  have begun : startsBy (g.append rev) t = true := by
    cases split : g.revs with
    | nil => simp [startsBy,Generation.append,split,after]
    | cons first rest => simp [startsBy,Generation.append,split,past first (by simp [split])]
  simp only [viewGens,begun,Bool.not_true,Bool.false_and,Bool.false_eq_true,if_false,if_true]
  rw [Generation.append,getIn_snoc,if_neg (not_lt.mpr after)]

theorem Lives.view_now (lives : ki.Lives ended current)
    (now : ki.modRev.main ≤ t) :
    ki.view t = current.revs.getLast?.map fun rev => (current.created,rev,current.version) := by
  have past : ∀ x ∈ allRevs ended ++ current.revs, x.main ≤ t := fun x inside =>
    (Revision.main_le_of_le (lives.le_modRev inside)).trans now
  rw [view_eq,lives.generations,List.reverse_append,List.reverse_singleton,List.singleton_append]
  cases current.revs.eq_nil_or_concat with
  | inl none =>
    rw [none]
    have open_ : startsBy current t = false := by simp [startsBy,none]
    simp only [viewGens,open_,Bool.not_true,Bool.false_and,Bool.false_eq_true,if_false,List.getLast?_nil,
      Option.map_none]
    cases split : ended.reverse with
    | nil => rfl
    | cons g older =>
      have member : g ∈ ended := by rw [← List.mem_reverse,split]; simp
      have ended : endsBy g t = true := by
        obtain ⟨revs,last,tomb⟩ := (List.eq_nil_or_concat' g.revs).resolve_left (lives.closed g member)
        have inside : last ∈ allRevs ended := List.mem_flatMap.mpr ⟨g,member,by simp [tomb]⟩
        simp [endsBy,tomb,past last (by simp [inside])]
      simp [viewGens,ended]
  | inr some =>
    obtain ⟨revs,last,split⟩ := some
    rw [List.concat_eq_append] at split
    have begun : startsBy current t = true := by
      cases first : current.revs with
      | nil => simp [first] at split
      | cons f rest => simp [startsBy,first,past f (by simp [first])]
    simp only [viewGens,begun,Bool.not_true,Bool.false_and,Bool.false_eq_true,if_false,if_true]
    have form : current = ⟨current.version,current.created,revs ++ [last]⟩ := by rw [← split]
    rw [form,getIn_snoc,if_neg (not_lt.mpr (past last (by simp [split])))]
    simp

/-- The answer after one more put of a key. -/
def extend (before : Option (Revision × Revision × Int)) (rev : Revision) : Revision × Revision × Int :=
  match before with
  | none => (rev,rev,1)
  | some (created,_,version) => (created,rev,version + 1)

theorem Lives.extend_eq (lives : ki.Lives ended current) (later : ki.modRev < rev) :
    extend (ki.view rev.main) rev = ((current.append rev).created,rev,current.version + 1) := by
  rw [lives.view_now (Revision.main_le_of_lt later)]
  cases current.revs.eq_nil_or_concat with
  | inl none => simp [extend,none,lives.fresh none,Generation.append]
  | inr some =>
    obtain ⟨revs,last,split⟩ := some
    simp [extend,split,Generation.append]

theorem Lives.view_put (lives : ki.Lives ended current)
    (later : ki.modRev < rev) (t : Int) :
    view { ki with generations := appendRev ki.generations rev, modRev := rev } t =
      if t < rev.main then ki.view t else some (extend (ki.view rev.main) rev) := by
  simp only [view_eq _ t,lives.generations,appendRev_snoc,List.reverse_append,List.reverse_singleton,
    List.singleton_append]
  split
  next before => exact viewGens_append_before before true _
  next after =>
    have past : ∀ x ∈ current.revs, x.main ≤ t := fun x inside =>
      (lives.current_main_le inside).trans ((Revision.main_le_of_lt later).trans (not_lt.mp after))
    rw [viewGens_append_after (not_lt.mp after) past,lives.extend_eq later]

theorem view_first (key : Bytes) (rev : Revision) (t : Int) :
    view ⟨key,rev,[Generation.zero.append rev]⟩ t = if t < rev.main then none else some (extend none rev) := by
  rw [view_eq]
  by_cases before : t < rev.main
  · simp [viewGens,startsBy,Generation.append,Generation.zero,before]
  · rw [if_neg before]
    exact viewGens_append_after (not_lt.mp before) (by simp [Generation.zero]) []

theorem Lives.view_bury (lives : ki.Lives ended current)
    (rev : Revision) (t : Int) :
    view ⟨ki.key,rev,ended ++ [current.append rev] ++ [Generation.zero]⟩ t =
      if t < rev.main then ki.view t else none := by
  have skip : ∀ older, viewGens t true (Generation.zero :: older) = viewGens t false older := fun older => by
    simp [viewGens,startsBy,Generation.zero]
  simp only [view_eq _ t,lives.generations,List.reverse_append,List.reverse_singleton,List.singleton_append,skip]
  split
  next before => exact viewGens_append_before before false _
  next after =>
    have ended : endsBy (current.append rev) t = true := by
      simp [endsBy,Generation.append,not_lt.mp after]
    simp [viewGens,ended]

theorem Lives.tombstone_eq (lives : ki.Lives ended current) (alive : current.revs ≠ []) (later : ki.modRev < rev) :
    ki.tombstone rev.main rev.sub = .ok ⟨ki.key,rev,ended ++ [current.append rev] ++ [Generation.zero]⟩ := by
  have some : current.isEmpty = false := by simpa [Generation.isEmpty] using alive
  simp [tombstone,lives.not_empty,some,put_eq later,lives.generations]

theorem Lives.alive_iff (lives : ki.Lives ended current) (now : ki.modRev.main ≤ t) :
    (ki.view t).isSome ↔ current.revs ≠ [] := by
  rw [lives.view_now now,Option.isSome_map,List.getLast?_isSome]

/-! ### The records of a key -/

/-- The bucket keys of the revisions of the generations, oldest first: the last revision of every generation
    but the newest is a tombstone. This is `getRevs` of `RevisionsRange` without its bounds. -/
def genKeys : List Generation → List KvBucketKey
  | [] => []
  | [g] => g.revs.map fun rev => ⟨rev,false⟩
  | g :: newer => (g.revs.map fun rev => ⟨rev,g.revs.getLast? = some rev⟩) ++ genKeys newer

def bucketKeys (ki : KeyIndex) : List KvBucketKey := genKeys ki.generations

theorem genKeys_cons (g : Generation) {newer : List Generation} (more : newer ≠ []) :
    genKeys (g :: newer) = (g.revs.map fun rev => ⟨rev,g.revs.getLast? = some rev⟩) ++ genKeys newer := by
  cases newer with
  | nil => exact absurd rfl more
  | cons => rfl

theorem genKeys_revs (gens : List Generation) : (genKeys gens).map (·.rev) = allRevs gens := by
  induction gens with
  | nil => rfl
  | cons g newer ih =>
    cases newer with
    | nil => simp [genKeys,Function.comp_def]
    | cons => simp [genKeys_cons,ih,Function.comp_def]

theorem rev_mem_of_mem_genKeys {gens : List Generation} {bk : KvBucketKey} (member : bk ∈ genKeys gens) :
    bk.rev ∈ allRevs gens := by
  rw [← genKeys_revs]
  exact List.mem_map_of_mem member

theorem genKeys_append (ended : List Generation) {newer : List Generation} (more : newer ≠ []) :
    genKeys (ended ++ newer) = (ended.flatMap fun g => g.revs.map fun rev => ⟨rev,g.revs.getLast? = some rev⟩)
      ++ genKeys newer := by
  induction ended with
  | nil => rfl
  | cons g rest ih =>
    rw [List.cons_append,genKeys_cons g (by simp [more]),ih,List.flatMap_cons,List.append_assoc]

theorem genKeys_snoc (ended : List Generation) (g : Generation) :
    genKeys (ended ++ [g]) = (ended.flatMap fun g => g.revs.map fun rev => ⟨rev,g.revs.getLast? = some rev⟩)
      ++ g.revs.map fun rev => ⟨rev,false⟩ := genKeys_append ended (by simp)

theorem Lives.revs_eq (lives : ki.Lives ended current) :
    ki.bucketKeys.map (·.rev) = allRevs ended ++ current.revs := by
  rw [bucketKeys,genKeys_revs,lives.generations]
  simp

theorem Lives.keys_sorted (lives : ki.Lives ended current) : ki.bucketKeys.Pairwise fun a b => a.rev < b.rev := by
  have sorted := lives.sorted
  rw [← lives.revs_eq,List.pairwise_map] at sorted
  exact sorted

theorem Lives.keys_put (lives : ki.Lives ended current)
    (rev : Revision) :
    bucketKeys { ki with generations := appendRev ki.generations rev, modRev := rev } =
      ki.bucketKeys ++ [⟨rev,false⟩] := by
  simp [bucketKeys,lives.generations,genKeys_snoc,Generation.append]

theorem Lives.keys_bury (lives : ki.Lives ended current)
    (later : ki.modRev < rev) :
    bucketKeys ⟨ki.key,rev,ended ++ [current.append rev] ++ [Generation.zero]⟩ = ki.bucketKeys ++ [⟨rev,true⟩] := by
  have older : ∀ x ∈ current.revs, rev ≠ x := fun x inside same =>
    absurd (lives.le_modRev (by simp [inside])) (not_le.mpr (same ▸ later))
  have unmarked : (current.revs.map fun x => (⟨x,decide ((current.append rev).revs.getLast? = some x)⟩ : KvBucketKey))
      = current.revs.map fun x => ⟨x,false⟩ :=
    List.map_congr_left fun x inside => by simp [Generation.append,older x inside]
  rw [bucketKeys,genKeys_snoc,bucketKeys,lives.generations,genKeys_snoc,List.flatMap_append,List.flatMap_singleton]
  simp only [Generation.zero,List.map_nil,List.append_nil,List.append_assoc]
  congr 1
  rw [← unmarked]
  simp [Generation.append]

private theorem viewGens_mem {last : Bool} {gens : List Generation} {found : Revision × Revision × Int}
    (same : viewGens t last gens = some found) :
    ∃ newer g older, gens = newer ++ g :: older ∧ getIn g t = some found ∧
      (endsBy g t = false ∨ last = true ∧ newer = []) := by
  induction gens generalizing last with
  | nil => simp [viewGens] at same
  | cons g older ih =>
    simp only [viewGens] at same
    split at same
    · simp at same
    next open_ =>
      split at same
      · refine ⟨[],g,older,rfl,same,?_⟩
        cases last
        · exact Or.inl (by simpa using open_)
        · exact Or.inr ⟨rfl,rfl⟩
      · obtain ⟨newer,g',older',split,answer,ends⟩ := ih same
        refine ⟨g :: newer,g',older',by simp [split],answer,Or.inl ?_⟩
        rcases ends with ends | ⟨absurd_,_⟩
        · exact ends
        · simp at absurd_

theorem view_mem {created mod : Revision} {version : Int}
    (alive : ki.view t = some (created,mod,version)) : ⟨mod,false⟩ ∈ ki.bucketKeys ∧ mod.main ≤ t := by
  rw [view_eq] at alive
  obtain ⟨newer,g,older,split,answer,ends⟩ := viewGens_mem alive
  obtain ⟨before,after,revs,le,-,-,-⟩ := getIn_eq_some answer
  have gens : ki.generations = older.reverse ++ g :: newer.reverse := by
    rw [← List.reverse_reverse ki.generations,split]
    simp
  have inside : mod ∈ g.revs := by simp [revs]
  refine ⟨?_,le⟩
  rw [bucketKeys,gens]
  cases newer with
  | nil =>
    rw [List.reverse_nil,genKeys_snoc]
    exact List.mem_append_right _ (List.mem_map.mpr ⟨mod,inside,rfl⟩)
  | cons n rest =>
    have open_ : endsBy g t = false := by simpa using ends
    rw [genKeys_append _ (by simp),genKeys_cons _ (by simp)]
    refine List.mem_append_right _ (List.mem_append_left _ (List.mem_map.mpr ⟨mod,inside,?_⟩))
    have other : g.revs.getLast? ≠ some mod := fun last => by simp [endsBy,last,le] at open_
    simp [other]

end KeyIndex

end Kave
