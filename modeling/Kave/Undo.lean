import Kave.Rebuild
import Kave.Transaction

/-! Taking writes back. Dropping the revisions of a transaction, newest first, leaves an index that answers everything as
    before: only the create revision of a generation without revisions may differ, and nothing reads it. -/

namespace Kave

open TreeIndex KeyIndex

/-- The generation without the create revision that nothing reads. -/
def Generation.forget (g : Generation) : Generation := if g.revs = [] then { g with created := Revision.zero } else g

@[simp] theorem Generation.forget_revs (g : Generation) : g.forget.revs = g.revs := by
  rw [forget]
  split <;> rfl

@[simp] theorem Generation.forget_of_revs {g : Generation} (some : g.revs ≠ []) : g.forget = g := if_neg some

theorem Generation.forget_idem (g : Generation) : g.forget.forget = g.forget := by
  by_cases none : g.revs = []
  · simp [forget,none]
  · rw [forget_of_revs none,forget_of_revs none]

namespace KeyIndex

def forget (ki : KeyIndex) : KeyIndex := { ki with generations := ki.generations.map Generation.forget }

/-- Two key indexes that no operation tells apart. -/
def Alike (a b : KeyIndex) : Prop := a.forget = b.forget

@[simp] theorem forget_key (ki : KeyIndex) : ki.forget.key = ki.key := rfl

@[simp] theorem forget_isEmpty (ki : KeyIndex) : ki.forget.isEmpty = ki.isEmpty := by
  obtain ⟨key,modRev,generations⟩ := ki
  match generations with
  | [] => rfl
  | [g] => simp [forget,isEmpty]
  | _ :: _ :: _ => rfl

private theorem findGenLoop_forget (rev : Int) (last : Bool) (gens : List Generation) :
    findGenLoop rev last (gens.map Generation.forget) = findGenLoop rev last gens := by
  induction gens generalizing last with
  | nil => rfl
  | cons g older ih =>
    rw [List.map_cons,findGenLoop,findGenLoop,Generation.forget_revs]
    split
    next => exact ih false
    next first rest revs =>
      have same : g.forget = g := Generation.forget_of_revs (by rw [revs]; simp)
      rw [same,ih]

theorem get_forget (ki : KeyIndex) (t : Int) : ki.forget.get t = ki.get t := by
  have found : ki.forget.findGen t = ki.findGen t := by
    rw [findGen,findGen,forget,← List.map_reverse,findGenLoop_forget]
  rw [get,get,forget_isEmpty,found]

theorem bucketKeys_forget (ki : KeyIndex) : ki.forget.bucketKeys = ki.bucketKeys := by
  have general : ∀ gens : List Generation, genKeys (gens.map Generation.forget) = genKeys gens := by
    intro gens
    induction gens with
    | nil => rfl
    | cons g newer ih =>
      cases newer with
      | nil => simp [genKeys]
      | cons next rest =>
        rw [List.map_cons,genKeys_cons _ (by simp),genKeys_cons _ (by simp),ih,Generation.forget_revs]
  exact general ki.generations

/-- What `dropRev` works on: the generations without the empty one a tombstone has opened. -/
private def openGens (gens : List Generation) : List Generation :=
  match gens.getLast? with
  | some g => if g.revs.isEmpty then gens.dropLast else gens
  | none => []

/-- What `dropRev` makes of the newest generation. -/
private def popRev (g : Generation) (rev : Revision) : Generation :=
  if g.revs.getLast? = some rev then { g with revs := g.revs.dropLast, version := g.version - 1 } else g

private theorem dropRev_eq (ki : KeyIndex) (rev : Revision) :
    ki.dropRev rev = match (openGens ki.generations).getLast? with
      | none => if ki.generations.isEmpty then ki else { ki with generations := [], modRev := Revision.zero }
      | some g =>
        let gens := (openGens ki.generations).dropLast ++ [popRev g rev]
        { ki with generations := gens, modRev := (gens.reverse.findSome? (·.revs.getLast?)).getD Revision.zero } := rfl

private theorem openGens_forget (gens : List Generation) :
    openGens (gens.map Generation.forget) = (openGens gens).map Generation.forget := by
  rw [openGens,openGens,List.getLast?_map]
  cases gens.getLast? with
  | none => rfl
  | some g =>
    simp only [Option.map_some,Generation.forget_revs]
    split
    · rw [List.map_dropLast]
    · rfl

private theorem popRev_forget (g : Generation) (rev : Revision) : (popRev g.forget rev).forget = (popRev g rev).forget := by
  by_cases none : g.revs = []
  · rw [popRev,popRev,Generation.forget_revs,none]
    simp only [List.getLast?_nil,reduceCtorEq,if_false,Generation.forget_idem]
  · rw [Generation.forget_of_revs none]

private theorem newest_forget (gens : List Generation) :
    (gens.map Generation.forget).reverse.findSome? (·.revs.getLast?) = gens.reverse.findSome? (·.revs.getLast?) := by
  rw [← List.map_reverse,List.findSome?_map]
  simp [Function.comp_def]

theorem Alike.dropRev {a b : KeyIndex} (alike : a.Alike b) (rev : Revision) : (a.dropRev rev).Alike (b.dropRev rev) := by
  have general : ∀ ki : KeyIndex, (ki.forget.dropRev rev).forget = (ki.dropRev rev).forget := by
    intro ki
    have shape : openGens ki.forget.generations = (openGens ki.generations).map Generation.forget := openGens_forget _
    rw [dropRev_eq,dropRev_eq]
    simp only [shape,List.getLast?_map]
    cases (openGens ki.generations).getLast? with
    | none =>
      rw [Option.map_none,show ki.forget.generations.isEmpty = ki.generations.isEmpty by simp [forget]]
      simp only
      split
      · simp only [forget,List.map_map]
        rw [show Generation.forget ∘ Generation.forget = Generation.forget from funext Generation.forget_idem]
      · rfl
    | some g =>
      have image : (((openGens ki.generations).map Generation.forget).dropLast ++ [popRev g.forget rev]).map Generation.forget
          = ((openGens ki.generations).dropLast ++ [popRev g rev]).map Generation.forget := by
        rw [← List.map_dropLast,List.map_append,List.map_append,List.map_map,List.map_singleton,List.map_singleton,
          popRev_forget]
        rw [show Generation.forget ∘ Generation.forget = Generation.forget from funext Generation.forget_idem]
      have newest := newest_forget (((openGens ki.generations).map Generation.forget).dropLast ++ [popRev g.forget rev])
      rw [image,newest_forget] at newest
      simp only [Option.map_some,forget,image,newest]
  rw [Alike,← general a,← general b,alike]

theorem Alike.wellFormed {a b : KeyIndex} (alike : a.Alike b) (wellFormed : b.WellFormed) : a.WellFormed := by
  obtain ⟨ended,current,lives⟩ := wellFormed
  have gens : a.generations.map Generation.forget = (ended ++ [current]).map Generation.forget := by
    rw [← lives.generations]
    exact congrArg KeyIndex.generations alike
  have modRev : a.forget.modRev = b.forget.modRev := congrArg KeyIndex.modRev alike
  have version : ∀ {g g' : Generation}, g.forget = g'.forget → g.version = g'.version := by
    intro g g' same
    have forgets : ∀ g : Generation, g.forget.version = g.version := by
      intro g
      rw [Generation.forget]
      split <;> rfl
    rw [← forgets g,same,forgets]
  have revs : ∀ {g g' : Generation}, g.forget = g'.forget → g.revs = g'.revs := by
    intro g g' same
    rw [← g.forget_revs,same,g'.forget_revs]
  rw [List.map_append,List.map_singleton] at gens
  obtain ⟨ended',last,split,first,second⟩ := List.map_eq_append_iff.mp gens
  obtain ⟨current',rfl,same⟩ := List.map_eq_singleton_iff.mp second
  have images : ∀ {older older' : List Generation}, older.map Generation.forget = older'.map Generation.forget →
      older.map (·.revs) = older'.map (·.revs) := by
    intro older older' equal
    have forgets : ∀ gens : List Generation, gens.map (·.revs) = (gens.map Generation.forget).map (·.revs) := by
      intro gens
      simp [Function.comp_def]
    rw [forgets older,equal,← forgets]
  have all : allRevs ended' ++ current'.revs = allRevs ended ++ current.revs := by
    rw [allRevs,allRevs,List.flatMap_def,List.flatMap_def,images first,revs same]
  -- every generation has a counterpart with the same revisions and version
  have counterpart : ∀ {older older' : List Generation} {g : Generation}, older.map Generation.forget =
      older'.map Generation.forget → g ∈ older → ∃ g' ∈ older', g'.forget = g.forget := by
    intro older older' g equal member
    have inside : g.forget ∈ older'.map Generation.forget := by
      rw [← equal]
      exact List.mem_map_of_mem member
    obtain ⟨g',here,same⟩ := List.mem_map.mp inside
    exact ⟨g',here,same⟩
  refine ⟨ended',current',split,?_,?_,?_,?_,?_,?_⟩
  · intro g member
    obtain ⟨g',here,same⟩ := counterpart first member
    rw [← revs same]
    exact lives.closed g' here
  · intro g member
    have tails : ended'.tail.map Generation.forget = ended.tail.map Generation.forget := by
      rw [List.map_tail,List.map_tail,first]
    obtain ⟨g',here,same⟩ := counterpart tails member
    rw [← revs same]
    exact lives.begun g' here
  · rw [all]
    exact lives.sorted
  · intro g member
    have whole : (ended' ++ [current']).map Generation.forget = (ended ++ [current]).map Generation.forget := by
      rw [List.map_append,List.map_append,List.map_singleton,List.map_singleton,first,same]
    obtain ⟨g',here,same⟩ := counterpart whole member
    rw [← revs same,← version same]
    exact lives.counted g' here
  · intro none
    rw [version same]
    exact lives.fresh (by rw [← revs same]; exact none)
  · change a.modRev = b.modRev at modRev
    rw [all,modRev]
    exact lives.newest

private theorem findSome_getLast (gens : List Generation) :
    gens.reverse.findSome? (·.revs.getLast?) = (allRevs gens).getLast? := by
  induction gens using List.reverseRecOn with
  | nil => rfl
  | append_singleton older g ih =>
    rw [List.reverse_append,List.reverse_singleton,List.singleton_append,List.findSome?_cons,allRevs_append,allRevs_cons,
      allRevs_nil,List.append_nil,List.getLast?_append,ih]
    cases g.revs.getLast? <;> rfl

variable {ki : KeyIndex} {ended : List Generation} {rev : Revision} {current : Generation} {older : List Generation}
    {revs : List Revision} {g : Generation}

private theorem Lives.dropRev_append (lives : ki.Lives ended current) {gens : List Generation}
    (shape : openGens gens = ended ++ [current.append rev]) : Alike (dropRev ⟨ki.key,rev,gens⟩ rev) ki := by
  have popped : popRev (current.append rev) rev =
      { current with created := if current.revs = [] then rev else current.created } := by
    simp [popRev,Generation.append]
  have forgets : (popRev (current.append rev) rev).forget = current.forget := by
    rw [popped]
    by_cases none : current.revs = []
    · simp [Generation.forget,none]
    · simp [none]
  have revs : allRevs (ended ++ [popRev (current.append rev) rev]) = allRevs ended ++ current.revs := by
    rw [allRevs_append,allRevs_cons,allRevs_nil,List.append_nil,popped]
  rw [Alike,dropRev_eq]
  simp only [shape,List.getLast?_append,List.getLast?_singleton,Option.some_or,List.dropLast_concat]
  rw [findSome_getLast,revs,lives.newest]
  simp only [forget,Option.getD_some,List.map_append,List.map_singleton,forgets]
  conv_rhs => rw [lives.generations]
  simp

theorem Lives.dropRev_put (lives : ki.Lives ended current)
    (rev : Revision) : Alike (dropRev ⟨ki.key,rev,appendRev ki.generations rev⟩ rev) ki := by
  refine lives.dropRev_append ?_
  rw [lives.generations,appendRev_snoc]
  simp [openGens,Generation.append]

theorem Lives.dropRev_bury (lives : ki.Lives ended current)
    (rev : Revision) : Alike (dropRev ⟨ki.key,rev,ended ++ [current.append rev] ++ [Generation.zero]⟩ rev) ki := by
  refine lives.dropRev_append ?_
  simp [openGens,Generation.zero]

/-! ### Taking the newest revision back -/

/-- A life that has only revisions after `t` has counted them all. -/
def Counted (t : Int) (ki : KeyIndex) : Prop := ∀ g ∈ ki.generations, (∀ r ∈ g.revs, t < r.main) → g.version = g.revs.length

private theorem dropRev_shape (shape : openGens ki.generations = older ++ [g]) (last : g.revs = revs ++ [rev]) :
    ki.dropRev rev = ⟨ki.key,((allRevs older ++ revs).getLast?).getD Revision.zero,
      older ++ [{ g with revs := revs, version := g.version - 1 }]⟩ := by
  have popped : popRev g rev = { g with revs := revs, version := g.version - 1 } := by simp [popRev,last]
  have newest : (older ++ [g]).getLast? = some g := by simp
  rw [dropRev_eq]
  simp only [shape,newest,List.dropLast_concat,popped]
  rw [findSome_getLast,allRevs_append,allRevs_cons,allRevs_nil,List.append_nil]

private theorem lives_popped (key : Bytes)
    (closed : ∀ g ∈ older, g.revs ≠ []) (begun : ∀ g ∈ older.tail, 2 ≤ g.revs.length)
    (sorted : (allRevs older ++ (revs ++ [rev])).Pairwise (· < ·)) (counted : ∀ g' ∈ older ++ [g], g'.revs.length ≤ g'.version)
    (last : g.revs = revs ++ [rev]) (fresh : revs = [] → g.version = 1) (some : allRevs older ++ revs ≠ []) :
    Lives ⟨key,((allRevs older ++ revs).getLast?).getD Revision.zero,older ++ [{ g with revs := revs, version := g.version - 1 }]⟩
      older { g with revs := revs, version := g.version - 1 } where
  generations := rfl
  closed := closed
  begun := begun
  sorted := by
    rw [← List.append_assoc] at sorted
    exact (List.pairwise_append.mp sorted).1
  counted g' member := by
    rcases List.mem_append.mp member with old | new
    · exact counted g' (List.mem_append_left _ old)
    · have full := counted g (by simp)
      rw [last,List.length_append,List.length_singleton] at full
      rw [List.mem_singleton.mp new]
      push_cast at full ⊢
      omega
  fresh none := by
    have one := fresh none
    simp only
    omega
  newest := by
    obtain ⟨rev,is⟩ := Option.isSome_iff_exists.mp (List.getLast?_isSome.mpr some)
    simp only [is,Option.getD_some]

private theorem counted_popped {t : Int} (counted : ki.Counted t)
    (inside : ∀ g' ∈ older ++ [g], g' ∈ ki.generations) (last : g.revs = revs ++ [rev])
    (late : t < rev.main) (key : Bytes) (modRev : Revision) :
    Counted t ⟨key,modRev,older ++ [{ g with revs := revs, version := g.version - 1 }]⟩ := by
  intro g' member after
  rcases List.mem_append.mp member with old | new
  · exact counted g' (inside g' (List.mem_append_left _ old)) after
  · have is := List.mem_singleton.mp new
    subst is
    have full := counted g (inside g (by simp)) fun r listed => by
      rw [last] at listed
      rcases List.mem_append.mp listed with old | new
      · exact after r old
      · rw [List.mem_singleton.mp new]
        exact late
    rw [last,List.length_append,List.length_singleton] at full
    simp only [full]
    push_cast
    omega

/-- Taking back the newest record of a key, one that is later than `t`: the key is left as it was without it, or with nothing at
    all. A tombstone that is taken back has ended a life that had a put. -/
theorem WellFormed.dropRev (wellFormed : ki.WellFormed) {t : Int} (counted : ki.Counted t)
    {older : List KvBucketKey} {bk : KvBucketKey} (keys : ki.bucketKeys = older ++ [bk]) (late : t < bk.rev.main)
    (put : bk.tombstone = true → ∃ p, older.getLast? = some p ∧ p.tombstone = false) :
    older = [] ∧ (ki.dropRev bk.rev).isEmpty = true ∨
      (ki.dropRev bk.rev).WellFormed ∧ (ki.dropRev bk.rev).bucketKeys = older ∧ (ki.dropRev bk.rev).key = ki.key ∧
        (ki.dropRev bk.rev).Counted t := by
  obtain ⟨ended,current,lives⟩ := wellFormed
  have sorted := lives.sorted
  rcases List.eq_nil_or_concat' current.revs with none | ⟨revs,rev,last⟩
  · -- the record is a tombstone
    rcases List.eq_nil_or_concat' ended with no | ⟨lives',g,split⟩
    · have newest := lives.newest
      simp [no,none] at newest
    · obtain ⟨revs,rev,last⟩ := (List.eq_nil_or_concat' g.revs).resolve_left (lives.closed g (by simp [split]))
      have shape : openGens ki.generations = lives' ++ [g] := by
        rw [lives.generations,split]
        simp [openGens,none]
      rw [split,none,List.append_nil,allRevs_append,allRevs_cons,allRevs_nil,List.append_nil,last] at sorted
      have distinct : ∀ x ∈ revs, ¬ rev = x := by
        rintro x inside rfl
        have tail := (List.pairwise_append.mp sorted).2.1
        exact lt_irrefl _ ((List.pairwise_append.mp tail).2.2 rev inside rev (by simp))
      have listed : ki.bucketKeys = (lives'.flatMap fun g => g.revs.map fun rev => ⟨rev,g.revs.getLast? = some rev⟩) ++
          (revs.map fun rev => ⟨rev,false⟩) ++ [⟨rev,true⟩] := by
        have marks : (revs.map fun x => (⟨x,decide (g.revs.getLast? = some x)⟩ : KvBucketKey)) = revs.map fun x => ⟨x,false⟩ :=
          List.map_congr_left fun x inside => by simp [last,distinct x inside]
        rw [bucketKeys,lives.generations,genKeys_snoc,split,List.flatMap_append,List.flatMap_singleton,none,List.map_nil,
          List.append_nil,List.append_assoc,← marks]
        simp [last]
      rw [listed] at keys
      obtain ⟨same,is⟩ := List.append_inj' keys rfl
      cases is
      have begun : revs ≠ [] := by
        intro no
        obtain ⟨p,at_,-⟩ := put rfl
        cases lives' with
        | nil =>
          rw [← same,no] at at_
          simp at at_
        | cons first rest =>
          have two := lives.begun g (by simp [split])
          simp [last,no] at two
      refine Or.inr ?_
      rw [dropRev_shape shape last]
      have left := lives_popped ki.key (fun g' member => lives.closed g' (by simp [split,member])) ?_ sorted ?_ last
        (fun no => absurd no begun) (by simp [begun])
      · refine ⟨⟨_,_,left⟩,?_,rfl,counted_popped counted ?_ last late _ _⟩
        · rw [bucketKeys,genKeys_snoc]
          exact same
        · intro g' member
          rw [lives.generations,split]
          exact List.mem_append_left _ member
      · intro g' member
        refine lives.begun g' ?_
        rw [split]
        cases lives' with
        | nil => simp at member
        | cons first rest => exact List.mem_append_left _ member
      · intro g' member
        exact lives.counted g' (by rw [split]; exact List.mem_append_left _ member)
  · have shape : openGens ki.generations = ended ++ [current] := by
      rw [lives.generations]
      simp [openGens,last]
    rw [last] at sorted
    have listed : ki.bucketKeys = (ended.flatMap fun g => g.revs.map fun rev => ⟨rev,g.revs.getLast? = some rev⟩) ++
        (revs.map fun rev => ⟨rev,false⟩) ++ [⟨rev,false⟩] := by
      rw [bucketKeys,lives.generations,genKeys_snoc,last,List.append_assoc]
      simp
    rw [listed] at keys
    obtain ⟨same,is⟩ := List.append_inj' keys rfl
    cases is
    rw [dropRev_shape shape last]
    by_cases some : allRevs ended ++ revs = []
    · obtain ⟨no,nothing⟩ := List.append_eq_nil_iff.mp some
      have none : ended = [] := by
        cases ended with
        | nil => rfl
        | cons g rest =>
          rw [allRevs_cons,List.append_eq_nil_iff] at no
          exact absurd no.1 (lives.closed g (by simp))
      refine Or.inl ⟨?_,?_⟩
      · rw [← same,none,nothing]
        rfl
      · simp [isEmpty,none,nothing]
    · have fresh : revs = [] → current.version = 1 := by
        intro none
        have whole := counted current (by simp [lives.generations]) (by simpa [last,none] using late)
        simpa [last,none] using whole
      have left := lives_popped ki.key lives.closed lives.begun sorted lives.counted last fresh some
      refine Or.inr ⟨⟨_,_,left⟩,?_,rfl,counted_popped counted ?_ last late _ _⟩
      · rw [bucketKeys,genKeys_snoc]
        exact same
      · rw [lives.generations]
        exact fun _ => id

end KeyIndex

namespace TreeIndex

/-- Two trees that no operation tells apart. -/
def Alike (ti ti' : TreeIndex) : Prop := ∀ key, (ti.find? key).map KeyIndex.forget = (ti'.find? key).map KeyIndex.forget

theorem Alike.refl (ti : TreeIndex) : ti.Alike ti := fun _ => rfl

theorem Alike.trans {a b c : TreeIndex} (first : a.Alike b) (second : b.Alike c) : a.Alike c :=
  fun key => (first key).trans (second key)

variable {ti ti' : TreeIndex} {rev : Revision} {key : Bytes}

section

variable (alike : ti.Alike ti')

include alike

private theorem Alike.visit {β : Type} {f : KeyIndex → Option β}
    (forgets : ∀ ki, f ki.forget = f ki) (key : Bytes) (endKey : Option Bytes) :
    (ti.unsafeVisit key endKey).filterMap f = (ti'.unsafeVisit key endKey).filterMap f := by
  have maps : ∀ t : TreeIndex, (t.unsafeVisit key endKey).filterMap f =
      (((t.mapVals fun _ ki => ki.forget).filter fun k _ => visits key endKey k).entries.map (·.2)).filterMap f := by
    intro t
    rw [unsafeVisit_eq]
    have images : ((t.mapVals fun _ ki => ki.forget).filter fun k _ => visits key endKey k)
        = (t.filter fun k _ => visits key endKey k).mapVals fun _ ki => ki.forget := by
      refine SortedMap.ext_find fun k => ?_
      rw [SortedMap.find_filter,SortedMap.find_mapVals,SortedMap.find_mapVals,SortedMap.find_filter]
      cases t.find? k <;> cases visits key endKey k <;> rfl
    rw [images]
    simp only [SortedMap.mapVals,List.filterMap_map,Function.comp_def,forgets,List.map_map]
  have same : (ti.mapVals fun _ ki => ki.forget) = ti'.mapVals fun _ ki => ki.forget := by
    refine SortedMap.ext_find fun k => ?_
    rw [SortedMap.find_mapVals,SortedMap.find_mapVals]
    exact alike k
  rw [maps,maps,same]

theorem Alike.unsafeGet (key : Bytes) (t : Int) :
    ti.unsafeGet key t = ti'.unsafeGet key t := by
  have form : ∀ ti : TreeIndex, ti.unsafeGet key t =
      ((ti.find? key).map KeyIndex.forget).elim (.error .revNotFound) (·.get t) := by
    intro ti
    rw [TreeIndex.unsafeGet]
    cases ti.find? key with
    | none => rfl
    | some ki => exact (get_forget ki t).symm
  rw [form,form,alike key]

theorem Alike.look (key : Bytes) (t : Int) : ti.look key t = ti'.look key t := by
  rw [← unsafeGet_toOption,← unsafeGet_toOption,alike.unsafeGet]

theorem Alike.records (key : Bytes) : ti.records key = ti'.records key := by
  have form : ∀ ti : TreeIndex, ti.records key = (((ti.find? key).map KeyIndex.forget).map bucketKeys).getD [] := by
    intro ti
    rw [TreeIndex.records]
    cases ti.find? key with
    | none => rfl
    | some ki => simp [bucketKeys_forget]
  rw [form,form,alike key]

theorem Alike.valid (valid : ti'.Valid) : ti.Valid := by
  intro key ki found
  have items := alike key
  rw [found] at items
  obtain ⟨ki',found',forgets⟩ := Option.map_eq_some_iff.mp items.symm
  obtain ⟨named,wellFormed⟩ := valid key ki' found'
  constructor
  · rw [← named,← forget_key ki,← forget_key ki',forgets]
  · exact KeyIndex.Alike.wellFormed forgets.symm wellFormed

theorem Alike.range (key : Bytes) (endKey : Option Bytes) (t : Int) :
    ti.range key endKey t = ti'.range key endKey t := by
  rw [TreeIndex.range,TreeIndex.range,alike.unsafeGet]
  split
  · rfl
  · refine alike.visit (fun ki => ?_) key endKey
    rw [get_forget,forget_key]

theorem Alike.revisions (key : Bytes) (endKey : Option Bytes) (t limit : Int) :
    ti.revisions key endKey t limit = ti'.revisions key endKey t limit := by
  have live : ti.live t = ti'.live t := by
    refine SortedMap.ext_find fun k => ?_
    rw [find_live,find_live,alike.look]
  rw [revisions_eq,revisions_eq,live]

theorem Alike.revisionsRange (key : Bytes) (endKey : Option Bytes)
    (startRev endRev : Int) : ti.revisionsRange key endKey startRev endRev = ti'.revisionsRange key endKey startRev endRev := by
  have revs : ∀ ki : KeyIndex, getRevs ki.forget startRev endRev = getRevs ki startRev endRev := by
    intro ki
    rw [getRevs,getRevs,bucketKeys_forget]
  have flat : ∀ l : List KeyIndex, (l.flatMap fun ki => getRevs ki startRev endRev) =
      (l.filterMap fun ki => some (getRevs ki startRev endRev)).flatten := by
    intro l
    simp [List.flatMap_def]
  rw [TreeIndex.revisionsRange,TreeIndex.revisionsRange]
  split
  · rfl
  · split
    · have items := alike key
      cases found : ti.find? key with
      | none =>
        rw [found] at items
        rw [Option.map_eq_none_iff.mp items.symm]
      | some ki =>
        rw [found] at items
        obtain ⟨ki',found',forgets⟩ := Option.map_eq_some_iff.mp items.symm
        rw [found']
        simp only
        rw [← revs ki,← revs ki',forgets]
    · rw [flat,flat,alike.visit (f := fun ki => some (getRevs ki startRev endRev)) (fun ki => congrArg some (revs ki))]

end

theorem find_dropRevision (ti : TreeIndex) (key : Bytes) (rev : Revision) (k : Bytes) :
    (ti.dropRevision key rev).find? k =
      if k = key then ((ti.find? key).map fun ki => ki.dropRev rev).filter fun ki => !ki.isEmpty else ti.find? k := by
  rw [dropRevision]
  by_cases same : k = key
  · subst same
    rw [if_pos rfl]
    cases found : ti.find? k with
    | none => exact found
    | some ki =>
      simp only [Option.map_some]
      split
      next empty => simp [empty,Option.filter]
      next full => simp [full,Option.filter]
  · rw [if_neg same]
    cases ti.find? key with
    | none => rfl
    | some ki =>
      simp only
      split <;> simp [same]

theorem Alike.dropRevision (alike : ti.Alike ti') (key : Bytes) (rev : Revision) :
    (ti.dropRevision key rev).Alike (ti'.dropRevision key rev) := by
  intro k
  rw [find_dropRevision,find_dropRevision]
  by_cases same : k = key
  · rw [if_pos same,if_pos same]
    have items := alike key
    cases found : ti.find? key with
    | none =>
      rw [found] at items
      rw [Option.map_eq_none_iff.mp items.symm]
    | some ki =>
      rw [found] at items
      obtain ⟨ki',found',forgets⟩ := Option.map_eq_some_iff.mp items.symm
      have dropped : (ki.dropRev rev).Alike (ki'.dropRev rev) := KeyIndex.Alike.dropRev forgets.symm rev
      have empty : (ki.dropRev rev).isEmpty = (ki'.dropRev rev).isEmpty := by
        rw [← forget_isEmpty,dropped,forget_isEmpty]
      rw [found']
      simp only [Option.map_some,Option.filter,empty]
      split
      · exact congrArg some dropped
      · rfl
  · rw [if_neg same,if_neg same]
    exact alike k

private theorem alike_of_dropRev {ti : TreeIndex} {ki old : KeyIndex}
    (found : ti.find? key = some old) (full : old.isEmpty = false) (back : (ki.dropRev rev).Alike old) :
    Alike (dropRevision (ti.insert key ki) key rev) ti := by
  have kept : (ki.dropRev rev).isEmpty = false := by rw [← forget_isEmpty,back,forget_isEmpty,full]
  intro k
  rw [find_dropRevision]
  by_cases same : k = key
  · rw [if_pos same,same,found]
    simp only [SortedMap.find_insert,if_true,Option.map_some,Option.filter,kept,Bool.not_false]
    exact congrArg some back
  · rw [if_neg same,SortedMap.find_insert,if_neg same]

theorem Valid.put_undone (valid : ti.Valid)
    (run : ti.put key rev = .ok ti') : Alike (ti'.dropRevision key rev) ti := by
  rw [put] at run
  cases found : ti.find? key with
  | none =>
    rw [found] at run
    cases first : (KeyIndex.new key).put rev.main rev.sub with
    | error e => simp [first,Except.map] at run
    | ok ki =>
      obtain ⟨-,rfl⟩ := put_ok_iff first
      simp only [first,Except.map,Except.ok.injEq] at run
      subst run
      intro k
      rw [find_dropRevision]
      by_cases same : k = key
      · rw [if_pos same,same,found]
        simp [KeyIndex.new,appendRev,Generation.append,Generation.zero,KeyIndex.dropRev,KeyIndex.isEmpty,Option.filter]
      · rw [if_neg same,SortedMap.find_insert,if_neg same]
  | some old =>
    obtain ⟨-,ended,current,lives⟩ := valid key old found
    rw [found] at run
    cases next : old.put rev.main rev.sub with
    | error e => simp [next,Except.map] at run
    | ok ki =>
      obtain ⟨-,rfl⟩ := put_ok_iff next
      simp only [next,Except.map,Except.ok.injEq] at run
      subst run
      exact alike_of_dropRev found lives.not_empty (lives.dropRev_put rev)

theorem Valid.tombstone_undone (valid : ti.Valid)
    (run : ti.tombstone key rev = .ok ti') : Alike (ti'.dropRevision key rev) ti := by
  rw [tombstone] at run
  cases found : ti.find? key with
  | none => simp [found] at run
  | some old =>
    obtain ⟨-,ended,current,lives⟩ := valid key old found
    rw [found] at run
    cases next : old.tombstone rev.main rev.sub with
    | error e => simp [next,Except.map] at run
    | ok ki =>
      obtain ⟨-,-,rfl⟩ := lives.tombstone_ok next
      simp only [next,Except.map,Except.ok.injEq] at run
      subst run
      exact alike_of_dropRev found lives.not_empty (lives.dropRev_bury rev)

end TreeIndex

/-! ### The transaction -/

theorem Writer.dropChanges_snoc (nextRev : Int) (changes : List Entry) (entry : Entry) (ti : TreeIndex) :
    dropChanges nextRev (changes ++ [entry]) ti =
      dropChanges nextRev changes (ti.dropRevision entry.key ⟨nextRev,changes.length⟩) := by
  simp [dropChanges,List.zipIdx_append]

theorem TreeIndex.Alike.dropChanges {ti ti' : TreeIndex} (alike : ti.Alike ti') (nextRev : Int) (changes : List Entry) :
    (Writer.dropChanges nextRev changes ti).Alike (Writer.dropChanges nextRev changes ti') := by
  induction changes using List.reverseRecOn generalizing ti ti' with
  | nil => exact alike
  | append_singleton older entry ih =>
    rw [Writer.dropChanges_snoc,Writer.dropChanges_snoc]
    exact ih (alike.dropRevision _ _)

/-- A transaction on the store `s` that is still open: it has only changed the index, and its changes can be taken back. -/
structure Writer.Opened (s : KvStore) (w : Writer) : Prop where
  fresh : w.Fresh
  store : w.store = { s with kvIndex := w.store.kvIndex }
  startRev : w.startRev = s.currentRev
  undone : TreeIndex.Alike (dropChanges (s.currentRev.main + 1) w.changes w.store.kvIndex) s.kvIndex

theorem Writer.Fresh.alive_of_tombstone {w : Writer} (fresh : w.Fresh) {key : Bytes} {ti : TreeIndex}
    (index : w.store.kvIndex.tombstone key ⟨w.startRev.main + 1,w.changes.length⟩ = .ok ti) :
    (w.content.index.look key (w.startRev.main + 1)).isSome := by
  have valid : w.store.kvIndex.Valid := fresh.before.valid
  change (w.store.kvIndex.look key (w.startRev.main + 1)).isSome
  rw [TreeIndex.tombstone] at index
  cases found : w.store.kvIndex.find? key with
  | none => simp [found] at index
  | some old =>
    obtain ⟨-,ended,current,lives⟩ := valid key old found
    rw [found] at index
    cases run : old.tombstone (w.startRev.main + 1) w.changes.length with
    | error e => simp [run,Except.map] at index
    | ok ki =>
      obtain ⟨alive,later,-⟩ := @KeyIndex.Lives.tombstone_ok _ _ _ _ lives ⟨_,_⟩ run
      simpa [look,found] using (lives.alive_iff (Revision.main_le_of_lt later)).mpr alive

namespace Writer.Opened

variable {s : KvStore} {w : Writer}

theorem new (settled : s.Settled) : s.newWriter.Opened s := ⟨settled.fresh,rfl,rfl,TreeIndex.Alike.refl _⟩

private theorem next (opened : w.Opened s) {w' : Writer} {entry : Entry} {ti : TreeIndex} (fresh : w'.Fresh)
    (store : w'.store = { w.store with kvIndex := ti }) (startRev : w'.startRev = w.startRev)
    (changes : w'.changes = w.changes ++ [entry])
    (back : TreeIndex.Alike (ti.dropRevision entry.key ⟨s.currentRev.main + 1,w.changes.length⟩) w.store.kvIndex) :
    w'.Opened s := by
  refine ⟨fresh,?_,startRev.trans opened.startRev,?_⟩
  · rw [store,opened.store]
  · rw [changes,Writer.dropChanges_snoc,store]
    exact (back.dropChanges _ _).trans opened.undone

private theorem failed (opened : w.Opened s) {w' : Writer} (store : w'.store = w.store) (startRev : w'.startRev = w.startRev)
    (changes : w'.changes = w.changes) : w'.Opened s := by
  refine ⟨⟨?_,?_,?_⟩,?_,startRev.trans opened.startRev,?_⟩
  · rw [startRev]
    exact opened.fresh.nonneg
  · change w'.store.kvIndex.Valid
    rw [store]
    exact opened.fresh.before.valid
  · intro key bk member
    change bk ∈ w'.store.kvIndex.records key at member
    rw [store] at member
    rw [startRev,changes]
    exact opened.fresh.before.early key bk member
  · rw [store]
    exact opened.store
  · rw [changes,store]
    exact opened.undone

theorem put (opened : w.Opened s) (key : Bytes) (value : Option Bytes) (leaseID : Int64) :
    (w.put key value leaseID).1.Opened s := by
  obtain ⟨w',run,extends_,step⟩ := w.put_spec opened.fresh key value leaseID
  have fresh := opened.fresh.next extends_ rfl (.cons step (.nil _ _))
  rw [run]
  rw [Writer.put] at run
  cases index : w.store.kvIndex.put key ⟨w.startRev.main + 1,w.changes.length⟩ with
  | error e => simp [index] at run
  | ok ti =>
    simp only [index,Prod.mk.injEq,and_true] at run
    subst run
    have valid : w.store.kvIndex.Valid := opened.fresh.before.valid
    have back := valid.put_undone index
    rw [opened.startRev] at back
    exact opened.next fresh rfl rfl rfl back

theorem deleteKey (opened : w.Opened s) (key : Bytes) : (w.deleteKey key).1.Opened s := by
  have valid : w.store.kvIndex.Valid := opened.fresh.before.valid
  cases index : w.store.kvIndex.tombstone key ⟨w.startRev.main + 1,w.changes.length⟩ with
  | error e =>
    refine opened.failed ?_ ?_ ?_ <;> simp [Writer.deleteKey,KvBucketKey.newKvBucketKey,index]
  | ok ti =>
    have alive := opened.fresh.alive_of_tombstone index
    obtain ⟨w',run,extends_,step⟩ := w.deleteKey_spec opened.fresh alive
    have fresh := opened.fresh.next extends_ rfl (.cons step (.nil _ _))
    rw [run]
    simp only [Writer.deleteKey,KvBucketKey.newKvBucketKey,index,Prod.mk.injEq,and_true] at run
    subst run
    have back := valid.tombstone_undone index
    rw [opened.startRev] at back
    exact opened.next fresh rfl rfl rfl back

theorem deleteRange (opened : w.Opened s) (key : Bytes) (endKey : Option Bytes) : (w.deleteRange key endKey).1.Opened s :=
  Writer.deleteKeys_invariant (P := fun p => p.1.Opened s) (fun _ key opened => opened.deleteKey key) _ opened

theorem runOps (ops : List Op) (opened : w.Opened s) : (Writer.runOps ops w).1.Opened s :=
  Writer.runOps_invariant (P := fun p => p.1.Opened s) (fun _ key value leaseID opened => opened.put key value leaseID)
    (fun _ key opened => opened.deleteKey key) ops opened

theorem abort (opened : w.Opened s) : ∃ ti, w.abort = { s with kvIndex := ti } ∧ ti.Alike s.kvIndex := by
  have undone := opened.undone
  rw [← opened.startRev] at undone
  refine ⟨_,?_,undone⟩
  rw [Writer.abort,opened.store]

end Writer.Opened

end Kave
