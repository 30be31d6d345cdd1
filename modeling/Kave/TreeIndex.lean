import Kave.KeyCompaction

/-! The in-memory index: a tree of key indexes ordered by user key. -/

namespace Kave

/-- The B-tree of the index. The order of its items is the order of their keys. -/
abbrev TreeIndex := SortedMap Bytes KeyIndex

namespace TreeIndex

open KeyIndex

/-- `Get`, and `unsafeGet` under the lock. -/
def unsafeGet (ti : TreeIndex) (key : Bytes) (targetRev : Int) : Except IndexError (Revision × Revision × Int) :=
  match ti.find? key with
  | none => .error .revNotFound
  | some ki => ki.get targetRev

def put (ti : TreeIndex) (key : Bytes) (rev : Revision) : Except IndexError TreeIndex :=
  match ti.find? key with
  | none => ((KeyIndex.new key).put rev.main rev.sub).map fun ki => ti.insert key ki
  | some old => (old.put rev.main rev.sub).map fun ki => ti.insert key ki

/-- The key indexes in `[key, end)`, and from `key` on if `end` is nil or empty. -/
def unsafeVisit (ti : TreeIndex) (key : Bytes) (endKey : Option Bytes) : List KeyIndex :=
  let stop := endKey.getD []
  (ti.ascend key fun k => stop.isEmpty || decide (k < stop)).map (·.2)

/-- `getRevs`: the records of the key strictly between the two revisions. -/
def getRevs (ki : KeyIndex) (startRev endRev : Int) : List KvBucketKey :=
  ki.bucketKeys.filter fun bk => startRev < bk.rev.main && bk.rev.main < endRev

def revisionsRange (ti : TreeIndex) (key : Bytes) (endKey : Option Bytes) (startRev endRev : Int) :
    List KvBucketKey :=
  if startRev > endRev then []
  else if endKey = none ∧ key ≠ [] then
    match ti.find? key with
    | none => []
    | some ki => getRevs ki startRev endRev
  else (ti.unsafeVisit key endKey).flatMap fun ki => getRevs ki startRev endRev

/-- One visit of `Revisions`. -/
def revisionsStep (targetRev limit : Int) (acc : List Revision × Nat) (ki : KeyIndex) : List Revision × Nat :=
  match ki.get targetRev with
  | .error _ => acc
  | .ok (_,mod,_) => (if limit ≤ 0 ∨ acc.1.length < limit then acc.1 ++ [mod] else acc.1,acc.2 + 1)

/-- The mod revisions of the live keys of the range, cut to the limit, and their full number. -/
def revisions (ti : TreeIndex) (key : Bytes) (endKey : Option Bytes) (targetRev limit : Int) : List Revision × Nat :=
  if endKey = none ∧ key ≠ [] then
    match ti.unsafeGet key targetRev with
    | .error _ => ([],0)
    | .ok (_,modRev,_) => ([modRev],1)
  else (ti.unsafeVisit key endKey).foldl (revisionsStep targetRev limit) ([],0)

/-- The live keys of the range with their create revisions. -/
def range (ti : TreeIndex) (key : Bytes) (endKey : Option Bytes) (targetRev : Int) : List (Bytes × Revision) :=
  if endKey = none then
    match ti.unsafeGet key targetRev with
    | .error _ => []
    | .ok (createRev,_,_) => [(key,createRev)]
  else (ti.unsafeVisit key endKey).filterMap fun ki =>
    (ki.get targetRev).toOption.map fun found => (ki.key,found.1)

def tombstone (ti : TreeIndex) (key : Bytes) (rev : Revision) : Except IndexError TreeIndex :=
  match ti.find? key with
  | none => .error .revNotFound
  | some old => (old.tombstone rev.main rev.sub).map fun ki => ti.insert key ki

/-- The visit of one item of the cloned tree. An item that has left the tree was emptied before it left, so
    compacting it is the error of the empty index. -/
def compactKey (ti : TreeIndex) (rev : Int) (key : Bytes) (avail : List Revision) :
    Except IndexError (TreeIndex × List Revision) :=
  match ti.find? key with
  | none => .error (.compactOnEmptyKeyIndex key)
  | some ki => (ki.compact rev avail).map fun (ki,avail) =>
    (if ki.isEmpty then ti.erase key else ti.insert key ki,avail)

/-- The visits of the cloned tree; an error ends them and leaves what is compacted so far. -/
def compactLoop (rev : Int) : List Bytes → TreeIndex → List Revision → TreeIndex × Except IndexError (List Revision)
  | [], ti, avail => (ti,.ok avail)
  | key :: rest, ti, avail =>
    match ti.compactKey rev key avail with
    | .error e => (ti,.error e)
    | .ok (ti,avail) => compactLoop rev rest ti avail

/-- Compacts every key and returns the revisions whose records must stay. -/
def compact (ti : TreeIndex) (rev : Int) : TreeIndex × Except IndexError (List Revision) :=
  compactLoop rev (ti.entries.map (·.1)) ti []

def dropRevision (ti : TreeIndex) (key : Bytes) (rev : Revision) : TreeIndex :=
  match ti.find? key with
  | none => ti
  | some got => if (got.dropRev rev).isEmpty then ti.erase key else ti.insert key (got.dropRev rev)

/-! ### Answers and records of the tree -/

/-- What the tree answers for a key at a revision. -/
def look (ti : TreeIndex) (key : Bytes) (t : Int) : Option (Revision × Revision × Int) :=
  (ti.find? key).bind (·.view t)

/-- The bucket keys of all revisions the tree knows of a key. -/
def records (ti : TreeIndex) (key : Bytes) : List KvBucketKey := ((ti.find? key).map bucketKeys).getD []

/-- Every item sits under its own key and is well-formed. -/
def Valid (ti : TreeIndex) : Prop := ∀ key ki, ti.find? key = some ki → ki.key = key ∧ ki.WellFormed

theorem valid_empty : Valid SortedMap.empty := fun key ki found => by simp at found

variable {ti : TreeIndex} {key : Bytes} {rev : Revision} {bk : KvBucketKey} {k : Bytes}

theorem Valid.records_sorted (valid : ti.Valid) (key : Bytes) :
    (ti.records key).Pairwise fun a b => a.rev < b.rev := by
  rw [records]
  cases found : ti.find? key with
  | none => exact List.Pairwise.nil
  | some ki =>
    obtain ⟨-,ended,current,lives⟩ := valid key ki found
    exact lives.keys_sorted

theorem unsafeGet_toOption (ti : TreeIndex) (key : Bytes) (t : Int) : (ti.unsafeGet key t).toOption = ti.look key t := by
  rw [unsafeGet,look]
  cases ti.find? key <;> rfl

theorem look_mem {t : Int} {created mod : Revision} {version : Int}
    (alive : ti.look key t = some (created,mod,version)) : ⟨mod,false⟩ ∈ ti.records key ∧ mod.main ≤ t := by
  obtain ⟨ki,found,view⟩ := Option.bind_eq_some_iff.mp alive
  simpa [records,found] using view_mem view

/-- The effect of writing one record of a key: a put or a deletion, seen from its transaction on. -/
structure Wrote (ti ti' : TreeIndex) (key : Bytes) (bk : KvBucketKey) : Prop where
  valid : ti'.Valid
  other : ∀ k, k ≠ key → ti'.find? k = ti.find? k
  records : ti'.records key = ti.records key ++ [bk]
  look : ∀ t, ti'.look key t = if t < bk.rev.main then ti.look key t
    else if bk.tombstone then none else some (extend (ti.look key bk.rev.main) bk.rev)

theorem Valid.modRev_lt (valid : ti.Valid)
    (later : ∀ bk ∈ ti.records key, bk.rev < rev) {ki : KeyIndex} (found : ti.find? key = some ki) : ki.modRev < rev := by
  obtain ⟨-,ended,current,lives⟩ := valid key ki found
  have newest := List.mem_of_getLast? lives.newest
  rw [← lives.revs_eq] at newest
  obtain ⟨bk,member,same⟩ := List.mem_map.mp newest
  rw [← same]
  exact later bk (by simpa [records,found] using member)

theorem valid_insert (valid : ti.Valid) {ki : KeyIndex} (named : ki.key = key)
    (wellFormed : ki.WellFormed) : Valid (ti.insert key ki) := by
  intro k found atKey
  rw [SortedMap.find_insert] at atKey
  split at atKey
  next same => cases atKey; exact ⟨named.trans same.symm,wellFormed⟩
  next => exact valid k found atKey

/-- A put later than all of its key succeeds. -/
theorem put_wrote (valid : ti.Valid) (positive : Revision.zero < rev)
    (later : ∀ bk ∈ ti.records key, bk.rev < rev) :
    ∃ ti', ti.put key rev = .ok ti' ∧ Wrote ti ti' key ⟨rev,false⟩ := by
  cases found : ti.find? key with
  | none =>
    have run : (KeyIndex.new key).put rev.main rev.sub = .ok ⟨key,rev,[Generation.zero.append rev]⟩ :=
      @put_eq (KeyIndex.new key) _ positive
    refine ⟨_,by simp [put,found,run,Except.map],valid_insert valid rfl ⟨_,_,Lives.first key rev⟩,?_,?_,?_⟩
    · intro k different
      simp [different]
    · simp [records,found,bucketKeys,genKeys,Generation.append,Generation.zero]
    · intro t
      simp [look,found,view_first]
  | some ki =>
    obtain ⟨named,ended,current,lives⟩ := valid key ki found
    have after := valid.modRev_lt later found
    have run : ti.put key rev = .ok (ti.insert key ⟨ki.key,rev,appendRev ki.generations rev⟩) := by
      simp [put,found,put_eq after,Except.map]
    refine ⟨_,run,valid_insert valid named ⟨_,_,lives.put after⟩,?_,?_,?_⟩
    · intro k different
      simp [different]
    · simpa [records,found] using lives.keys_put rev
    · intro t
      simp [look,found,lives.view_put after]

/-- So does a tombstone, if the key is alive. -/
theorem tombstone_wrote (valid : ti.Valid)
    (later : ∀ bk ∈ ti.records key, bk.rev < rev) (alive : (ti.look key rev.main).isSome) :
    ∃ ti', ti.tombstone key rev = .ok ti' ∧ Wrote ti ti' key ⟨rev,true⟩ := by
  cases found : ti.find? key with
  | none => simp [look,found] at alive
  | some ki =>
    obtain ⟨named,ended,current,lives⟩ := valid key ki found
    have after := valid.modRev_lt later found
    have going : current.revs ≠ [] :=
      (lives.alive_iff (Revision.main_le_of_lt after)).mp (by simpa [look,found] using alive)
    have run : ti.tombstone key rev =
        .ok (ti.insert key ⟨ki.key,rev,ended ++ [current.append rev] ++ [Generation.zero]⟩) := by
      simp only [tombstone,found,lives.tombstone_eq going after,Except.map]
    refine ⟨_,run,valid_insert valid named ⟨_,_,lives.bury going after⟩,?_,?_,?_⟩
    · intro k different
      simp [different]
    · simpa [records,found] using lives.keys_bury after
    · intro t
      simpa [look,found] using lives.view_bury rev t

/-- Beyond the records of a key its answer stays. -/
theorem Valid.look_now (valid : ti.Valid) {t t' : Int}
    (past : ∀ bk ∈ ti.records key, bk.rev.main ≤ t) (le : t ≤ t') : ti.look key t' = ti.look key t := by
  rw [look,look]
  cases found : ti.find? key with
  | none => rfl
  | some ki =>
    obtain ⟨-,ended,current,lives⟩ := valid key ki found
    have newest : ki.modRev.main ≤ t := by
      have member := List.mem_of_getLast? lives.newest
      rw [← lives.revs_eq] at member
      obtain ⟨bk,inside,same⟩ := List.mem_map.mp member
      rw [← same]
      exact past bk (by simpa [records,found] using inside)
    simp only [Option.bind_some]
    rw [lives.view_now newest,lives.view_now (newest.trans le)]

theorem Wrote.records_other {ti ti' : TreeIndex} (wrote : ti.Wrote ti' key bk)
    (different : k ≠ key) : ti'.records k = ti.records k := by
  rw [TreeIndex.records,wrote.other k different,TreeIndex.records]

theorem Wrote.look_other {ti ti' : TreeIndex} (wrote : ti.Wrote ti' key bk)
    (different : k ≠ key) (t : Int) : ti'.look k t = ti.look k t := by
  rw [TreeIndex.look,wrote.other k different,TreeIndex.look]

theorem Wrote.mem_records {ti ti' : TreeIndex} (wrote : ti.Wrote ti' key bk)
    {b : KvBucketKey} : b ∈ ti'.records k ↔ b ∈ ti.records k ∨ k = key ∧ b = bk := by
  by_cases same : k = key
  · subst same
    simp [wrote.records]
  · simp [wrote.records_other same,same]

/-! ### Listings -/

/-- The keys alive at `t`, with what the tree answers for them. -/
def live (ti : TreeIndex) (t : Int) : SortedMap Bytes (Revision × Revision × Int) := ti.filterMap fun _ ki => ki.view t

theorem find_live (ti : TreeIndex) (t : Int) (key : Bytes) : (ti.live t).find? key = ti.look key t :=
  ti.find_filterMap _ key

/-- The keys `unsafeVisit` reaches. -/
def visits (key : Bytes) (endKey : Option Bytes) (k : Bytes) : Bool :=
  let stop := endKey.getD []
  decide (key ≤ k) && (stop.isEmpty || decide (k < stop))

/-- The visit reaches exactly the keys it should, in their order. -/
theorem unsafeVisit_eq (ti : TreeIndex) (key : Bytes) (endKey : Option Bytes) :
    ti.unsafeVisit key endKey = (ti.filter fun k _ => visits key endKey k).entries.map (·.2) := by
  rw [unsafeVisit,SortedMap.ascend_eq_filter]
  · rfl
  · intro a b _ le below
    simp only [Bool.or_eq_true,decide_eq_true_eq] at below ⊢
    exact below.imp_right fun less => lt_of_le_of_lt le less

private theorem entries_filterMap_map {γ δ : Type} (m : SortedMap Bytes γ) (f : γ → Option δ) :
    (m.filterMap fun _ v => f v).entries.map (·.2) = (m.entries.map (·.2)).filterMap f := by
  simp only [SortedMap.filterMap,List.map_filterMap,List.filterMap_map]
  congr 1
  funext e
  simp only [Function.comp_def]
  cases f e.2 <;> rfl

private theorem visited_views (ti : TreeIndex) (key : Bytes) (endKey : Option Bytes) (t : Int) :
    (ti.unsafeVisit key endKey).filterMap (·.view t)
      = ((ti.live t).filter fun k _ => visits key endKey k).entries.map (·.2) := by
  rw [unsafeVisit_eq,← entries_filterMap_map,live,SortedMap.filterMap_filter]

/-- A list cut to a limit; a limit of zero or less is none. -/
def cut {α : Type} (limit : Int) (l : List α) : List α := if limit ≤ 0 then l else l.take limit.toNat

private theorem foldl_revisionsStep (t limit : Int) (kis : List KeyIndex) (revs : List Revision) (total : Nat) :
    kis.foldl (revisionsStep t limit) (revs,total) =
      let mods := (kis.filterMap (·.view t)).map (·.2.1)
      (if limit ≤ 0 then revs ++ mods else revs ++ mods.take (limit.toNat - revs.length),total + mods.length) := by
  induction kis generalizing revs total with
  | nil => simp
  | cons ki rest ih =>
    rw [List.foldl_cons,revisionsStep]
    cases answer : ki.get t with
    | error e =>
      have dead : ki.view t = none := by simp [KeyIndex.view,answer,Except.toOption]
      simp only [List.filterMap_cons,dead,ih]
    | ok found =>
      obtain ⟨created,mod,version⟩ := found
      have alive : ki.view t = some (created,mod,version) := by simp [KeyIndex.view,answer,Except.toOption]
      have step : (ki :: rest).filterMap (·.view t) = (created,mod,version) :: rest.filterMap (·.view t) := by
        simp [alive]
      simp only [step,List.map_cons,ih,List.length_cons]
      refine Prod.ext ?_ (by simp only; omega)
      by_cases unlimited : limit ≤ 0
      · simp [unlimited]
      · by_cases room : (revs.length : Int) < limit
        · have more : limit.toNat - revs.length = (limit.toNat - (revs.length + 1)) + 1 := by omega
          simp [unlimited,room,more]
        · have full : limit.toNat - revs.length = 0 := by omega
          simp [unlimited,room,full]

/-- The keys a read of `key` and `end` is about. -/
def selects (key : Bytes) (endKey : Option Bytes) (k : Bytes) : Bool :=
  if endKey = none ∧ key ≠ [] then k = key else visits key endKey k

/-- The newest revisions of the selected live keys, cut at the limit, and their number. -/
theorem revisions_eq (ti : TreeIndex) (key : Bytes) (endKey : Option Bytes) (t limit : Int) :
    ti.revisions key endKey t limit =
      let mods := ((ti.live t).filter fun k _ => selects key endKey k).entries.map (·.2.2.1)
      (cut limit mods,mods.length) := by
  rw [revisions]
  by_cases point : endKey = none ∧ key ≠ []
  · have one : ∀ k, selects key endKey k = true ↔ k = key := by simp [selects,point]
    rw [if_pos point]
    simp only [SortedMap.entries_filter_key _ one,find_live,← unsafeGet_toOption]
    cases ti.unsafeGet key t with
    | error e => simp [Except.toOption,cut]
    | ok found =>
      by_cases unlimited : limit ≤ 0
      · simp [Except.toOption,cut,unlimited]
      · have more : limit.toNat = (limit.toNat - 1) + 1 := by omega
        rw [cut,more]
        simp [Except.toOption,unlimited]
  · simp only [point,selects,if_false,foldl_revisionsStep,visited_views,cut,List.map_map,Function.comp_def]
    simp

/-- The keys `Range` of the index is about: a nil `end` is always a point read. -/
def rangeSelects (key : Bytes) (endKey : Option Bytes) (k : Bytes) : Bool :=
  if endKey = none then k = key else visits key endKey k

theorem Valid.range_eq (valid : ti.Valid) (key : Bytes) (endKey : Option Bytes) (t : Int) :
    ti.range key endKey t =
      ((ti.live t).filter fun k _ => rangeSelects key endKey k).entries.map fun e => (e.1,e.2.1) := by
  rw [range]
  by_cases point : endKey = none
  · have one : ∀ k, rangeSelects key endKey k = true ↔ k = key := by simp [rangeSelects,point]
    rw [if_pos point]
    simp only [SortedMap.entries_filter_key _ one,find_live,← unsafeGet_toOption]
    cases ti.unsafeGet key t <;> simp [Except.toOption]
  · simp only [point,rangeSelects,if_false,live,← SortedMap.filterMap_filter,unsafeVisit_eq]
    simp only [SortedMap.filterMap,List.map_filterMap,List.filterMap_map]
    refine List.filterMap_congr fun e member => ?_
    have named : e.2.key = e.1 := by
      rw [show e = (e.1,e.2) from rfl] at member
      have found := SortedMap.mem_entries.mp member
      rw [SortedMap.find_filter] at found
      exact (valid e.1 e.2 (Option.filter_eq_some_iff.mp found).1).1
    simp only [Function.comp_def,KeyIndex.view,named]
    cases (e.2.get t).toOption <;> rfl

end TreeIndex

end Kave
