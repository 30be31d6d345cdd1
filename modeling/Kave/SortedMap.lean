import Mathlib

/-! Finite maps kept as lists strictly increasing in the key: lookup, insertion, removal, filtering and
    the half-open range of a scan. Equality of maps is equality of lookups. -/

/-- A finite map, listed in increasing key order. -/
structure SortedMap (α : Type*) (β : Type*) [LinearOrder α] where
  entries : List (α × β)
  sorted : entries.Pairwise fun a b => a.1 < b.1

namespace SortedMap

variable {α β γ : Type*} [LinearOrder α]

/-- The value bound to the key in a list of bindings. -/
def lookupList (k : α) : List (α × β) → Option β
  | [] => none
  | (k',v) :: rest => if k = k' then some v else lookupList k rest

variable {l : List (α × β)} {k : α} {v : β}

theorem mem_of_lookupList (found : lookupList k l = some v) : (k,v) ∈ l := by
  induction l with
  | nil => simp [lookupList] at found
  | cons e rest ih =>
    simp only [lookupList] at found
    split at found
    next same => cases found; simp [same]
    next => exact List.mem_cons_of_mem _ (ih found)

theorem lookupList_of_mem (sorted : l.Pairwise fun a b => a.1 < b.1)
    (member : (k,v) ∈ l) : lookupList k l = some v := by
  induction l with
  | nil => simp at member
  | cons e rest ih =>
    obtain ⟨below,later⟩ := List.pairwise_cons.mp sorted
    simp only [lookupList]
    rcases List.mem_cons.mp member with same | inside
    · simp [← same]
    · have less : e.1 < k := below _ inside
      simp [less.ne',ih later inside]

/-- The value bound to `k`. -/
def find? (m : SortedMap α β) (k : α) : Option β := lookupList k m.entries

/-- The bindings listed are those looked up. -/
theorem mem_entries {m : SortedMap α β} : (k,v) ∈ m.entries ↔ m.find? k = some v :=
  ⟨lookupList_of_mem m.sorted, mem_of_lookupList⟩

/-- Two maps that answer alike are the same. -/
theorem ext_find {m n : SortedMap α β} (same : ∀ k, m.find? k = n.find? k) : m = n := by
  have lists : m.entries = n.entries := by
    have irrefl : Std.Irrefl fun a b : α × β => a.1 < b.1 := ⟨fun a => lt_irrefl a.1⟩
    have antisymm : Std.Antisymm fun a b : α × β => a.1 < b.1 :=
      ⟨fun a b less back => absurd back (lt_asymm less)⟩
    exact m.sorted.eq_of_mem_iff n.sorted fun e => by
      rw [show e = (e.1,e.2) from rfl,mem_entries,mem_entries,same]
  cases m
  cases n
  simpa using lists

/-- The map that binds nothing. -/
def empty : SortedMap α β := ⟨[],List.Pairwise.nil⟩

@[simp] theorem find_empty (k : α) : (empty : SortedMap α β).find? k = none := rfl

/-- Insertion into a list of bindings, replacing the binding of an equal key. -/
def insertList (k : α) (v : β) : List (α × β) → List (α × β)
  | [] => [(k,v)]
  | (k',v') :: rest =>
    if k < k' then (k,v) :: (k',v') :: rest
    else if k = k' then (k,v) :: rest
    else (k',v') :: insertList k v rest

theorem key_of_mem_insertList {e : α × β}
    (member : e ∈ insertList k v l) : e.1 = k ∨ e ∈ l := by
  induction l with
  | nil => simp [insertList] at member; simp [member]
  | cons b rest ih =>
    simp only [insertList] at member
    split at member
    · rcases List.mem_cons.mp member with same | inside
      · exact Or.inl (by rw [same])
      · exact Or.inr inside
    · split at member
      · rcases List.mem_cons.mp member with same | inside
        · exact Or.inl (by rw [same])
        · exact Or.inr (List.mem_cons_of_mem _ inside)
      · rcases List.mem_cons.mp member with same | inside
        · exact Or.inr (by simp [same])
        · rcases ih inside with same | old
          · exact Or.inl same
          · exact Or.inr (List.mem_cons_of_mem _ old)

theorem insertList_sorted (k : α) (v : β) (sorted : l.Pairwise fun a b => a.1 < b.1) :
    (insertList k v l).Pairwise fun a b => a.1 < b.1 := by
  induction l with
  | nil => simp [insertList]
  | cons b rest ih =>
    obtain ⟨below,later⟩ := List.pairwise_cons.mp sorted
    simp only [insertList]
    split
    next less =>
      refine List.pairwise_cons.mpr ⟨fun e inside => ?_,sorted⟩
      rcases List.mem_cons.mp inside with same | old
      · simpa [same] using less
      · exact less.trans (below e old)
    next notLess =>
      split
      next same => exact List.pairwise_cons.mpr ⟨fun e old => same ▸ below e old,later⟩
      next different =>
        have greater : b.1 < k := lt_of_le_of_ne (not_lt.mp notLess) (Ne.symm different)
        refine List.pairwise_cons.mpr ⟨fun e inside => ?_,ih later⟩
        rcases key_of_mem_insertList inside with same | old
        · rwa [same]
        · exact below e old

/-- An insertion binds its key and leaves the others. -/
theorem lookupList_insertList (k : α) (v : β) (l : List (α × β)) (k' : α) :
    lookupList k' (insertList k v l) = if k' = k then some v else lookupList k' l := by
  induction l with
  | nil => simp [insertList,lookupList]
  | cons b rest ih =>
    obtain ⟨key,value⟩ := b
    simp only [insertList]
    split
    · simp [lookupList]
    · split
      next same => by_cases here : k' = k <;> simp [lookupList,here,← same]
      next different =>
        by_cases here : k' = key
        · subst here
          simp [lookupList,Ne.symm different]
        · simp [lookupList,here,ih]

/-- Binds `k` to `v`, replacing an earlier binding. -/
def insert (m : SortedMap α β) (k : α) (v : β) : SortedMap α β :=
  ⟨insertList k v m.entries,insertList_sorted k v m.sorted⟩

@[simp] theorem find_insert (m : SortedMap α β) (k : α) (v : β) (k' : α) :
    (m.insert k v).find? k' = if k' = k then some v else m.find? k' :=
  lookupList_insertList k v m.entries k'

theorem entries_insert_of_lt {m : SortedMap α β} (behind : ∀ e ∈ m.entries, e.1 < k) (v : β) :
    (m.insert k v).entries = m.entries ++ [(k,v)] := by
  have general : ∀ l : List (α × β), (∀ e ∈ l, e.1 < k) → insertList k v l = l ++ [(k,v)] := by
    intro l
    induction l with
    | nil => exact fun _ => rfl
    | cons e rest ih =>
      intro before
      have less := before e List.mem_cons_self
      rw [insertList,if_neg less.not_gt,if_neg less.ne',ih fun x inside => before x (List.mem_cons_of_mem _ inside)]
      rfl
  exact general m.entries behind

/-- The bindings that satisfy `p`. -/
def filter (m : SortedMap α β) (p : α → β → Bool) : SortedMap α β :=
  ⟨m.entries.filter fun e => p e.1 e.2,m.sorted.filter _⟩

/-- The bindings `f` keeps, with the values it gives them. -/
def filterMap (m : SortedMap α β) (f : α → β → Option γ) : SortedMap α γ :=
  ⟨m.entries.filterMap fun e => (f e.1 e.2).map fun v => (e.1,v),by
    refine List.pairwise_filterMap.mpr (m.sorted.imp fun less c fromLeft d fromRight => ?_)
    obtain ⟨_,_,rfl⟩ := Option.map_eq_some_iff.mp fromLeft
    obtain ⟨_,_,rfl⟩ := Option.map_eq_some_iff.mp fromRight
    exact less⟩

theorem find_eq_of_mem_iff {m : SortedMap α β} {o : Option β}
    (same : ∀ v, (k,v) ∈ m.entries ↔ o = some v) : m.find? k = o :=
  Option.ext fun v => by rw [← mem_entries,same]

/-- A lookup is filtered like the bindings. -/
theorem find_filterMap (m : SortedMap α β) (f : α → β → Option γ) (k : α) :
    (m.filterMap f).find? k = (m.find? k).bind (f k) := by
  refine find_eq_of_mem_iff fun v => ?_
  rw [filterMap,List.mem_filterMap,Option.bind_eq_some_iff]
  constructor
  · rintro ⟨⟨k',old⟩,member,image⟩
    obtain ⟨new,kept,same⟩ := Option.map_eq_some_iff.mp image
    cases same
    exact ⟨old,mem_entries.mp member,kept⟩
  · rintro ⟨old,found,kept⟩
    exact ⟨(k,old),mem_entries.mpr found,by simp [kept]⟩

theorem find_filter (m : SortedMap α β) (p : α → β → Bool) (k : α) :
    (m.filter p).find? k = (m.find? k).filter (p k) := by
  refine find_eq_of_mem_iff fun v => ?_
  rw [filter,List.mem_filter,mem_entries,Option.filter_eq_some_iff]

theorem isSome_find_filter (m : SortedMap α β) (p : α → Bool) (k : α) :
    ((m.filter fun k _ => p k).find? k).isSome = ((m.find? k).isSome && p k) := by
  rw [find_filter]
  cases m.find? k <;> cases p k <;> rfl

theorem entries_filter_key (m : SortedMap α β) {p : α → Bool} (only : ∀ k', p k' = true ↔ k' = k) :
    (m.filter fun k' _ => p k').entries = (m.find? k).toList.map fun v => (k,v) := by
  have single : m.filter (fun k' _ => p k') = ((m.find? k).elim empty fun v => empty.insert k v) := by
    refine ext_find fun k' => ?_
    rw [find_filter]
    by_cases same : k' = k
    · subst same
      cases found : m.find? k' <;> simp [Option.filter,(only k').mpr rfl]
    · have out : p k' = false := by simpa using fun yes => same ((only k').mp yes)
      cases m.find? k' <;> cases m.find? k <;> simp [same,out]
  rw [single]
  cases m.find? k <;> rfl

theorem filterMap_filter (m : SortedMap α β) (f : α → β → Option γ) (p : α → Bool) :
    (m.filter fun k _ => p k).filterMap f = (m.filterMap f).filter fun k _ => p k := by
  refine ext_find fun k => ?_
  rw [find_filterMap,find_filter,find_filter,find_filterMap]
  cases m.find? k with
  | none => rfl
  | some v => cases chosen : p k <;> cases image : f k v <;> simp [Option.filter,image]

/-- Removes the binding of `k`. -/
def erase (m : SortedMap α β) (k : α) : SortedMap α β := m.filter fun k' _ => k' ≠ k

@[simp] theorem find_erase (m : SortedMap α β) (k k' : α) :
    (m.erase k).find? k' = if k' = k then none else m.find? k' := by
  rw [erase,find_filter]
  by_cases same : k' = k
  · simp [same]
  · cases m.find? k' <;> simp [same]

theorem find_foldl_erase (ks : List α) (m : SortedMap α β) (k : α) :
    (ks.foldl erase m).find? k = if k ∈ ks then none else m.find? k := by
  induction ks generalizing m with
  | nil => simp
  | cons k' rest ih =>
    rw [List.foldl_cons,ih,find_erase]
    by_cases inside : k ∈ rest <;> by_cases here : k = k' <;> simp [inside,here]

/-- The keys in increasing order. -/
def keys (m : SortedMap α β) : List α := m.entries.map (·.1)

theorem keys_sorted (m : SortedMap α β) : m.keys.Pairwise (· < ·) := List.pairwise_map.mpr m.sorted

theorem mem_keys {m : SortedMap α β} : k ∈ m.keys ↔ (m.find? k).isSome := by
  rw [keys,List.mem_map,Option.isSome_iff_exists]
  constructor
  · rintro ⟨e,member,rfl⟩
    exact ⟨e.2,mem_entries.mp member⟩
  · rintro ⟨v,found⟩
    exact ⟨(k,v),mem_entries.mpr found,rfl⟩

/-- Maps that bind the same keys list them alike. -/
theorem keys_eq {m : SortedMap α β} {n : SortedMap α γ} (same : ∀ k, (m.find? k).isSome = (n.find? k).isSome) :
    m.keys = n.keys :=
  m.keys_sorted.eq_of_mem_iff n.keys_sorted fun k => by rw [mem_keys,mem_keys,same]

/-- The same keys with transformed values. -/
def mapVals (m : SortedMap α β) (f : α → β → γ) : SortedMap α γ :=
  ⟨m.entries.map fun e => (e.1,f e.1 e.2),List.pairwise_map.mpr m.sorted⟩

theorem find_mapVals (m : SortedMap α β) (f : α → β → γ) (k : α) : (m.mapVals f).find? k = (m.find? k).map (f k) := by
  refine find_eq_of_mem_iff fun v => ?_
  rw [mapVals,List.mem_map,Option.map_eq_some_iff]
  constructor
  · rintro ⟨e,member,same⟩
    cases same
    exact ⟨e.2,mem_entries.mp member,rfl⟩
  · rintro ⟨old,found,same⟩
    exact ⟨(k,old),mem_entries.mpr found,by rw [← same]⟩

/-- The bindings a scan visits that starts at the first key not below `lo` and stops at the first key for
    which `below` fails. -/
def ascend (m : SortedMap α β) (lo : α) (below : α → Bool) : List (α × β) :=
  (m.entries.dropWhile fun e => e.1 < lo).takeWhile fun e => below e.1

private theorem dropWhile_eq_filter (lo : α) (sorted : l.Pairwise fun a b => a.1 < b.1) :
    (l.dropWhile fun e => e.1 < lo) = l.filter fun e => lo ≤ e.1 := by
  induction l with
  | nil => rfl
  | cons b rest ih =>
    obtain ⟨less,later⟩ := List.pairwise_cons.mp sorted
    by_cases before : b.1 < lo
    · simp [before,ih later]
    · have all : ∀ e ∈ rest, lo ≤ e.1 := fun e inside => (not_lt.mp before).trans (less e inside).le
      have kept : (rest.filter fun e => lo ≤ e.1) = rest := by simpa [List.filter_eq_self] using all
      simp [before,not_lt.mp before,kept]

private theorem takeWhile_eq_filter (below : α → Bool) (downward : ∀ e ∈ l, ∀ b, e.1 ≤ b → below b → below e.1)
    (sorted : l.Pairwise fun a b => a.1 < b.1) : (l.takeWhile fun e => below e.1) = l.filter fun e => below e.1 := by
  induction l with
  | nil => rfl
  | cons b rest ih =>
    obtain ⟨less,later⟩ := List.pairwise_cons.mp sorted
    by_cases first : below b.1
    · simp [first,ih (fun e inside => downward e (List.mem_cons_of_mem b inside)) later]
    · have none : (rest.filter fun e => below e.1) = [] := by
        refine List.filter_eq_nil_iff.mpr fun e inside holds => first ?_
        exact downward b List.mem_cons_self e.1 (less e inside).le holds
      simp [first,none]

/-- Over a downward closed range the scan visits exactly the bindings in it. -/
theorem ascend_eq_filter (m : SortedMap α β) (lo : α) (below : α → Bool)
    (downward : ∀ a b, lo ≤ a → a ≤ b → below b → below a) :
    m.ascend lo below = (m.filter fun k _ => decide (lo ≤ k) && below k).entries := by
  have above : ∀ e ∈ m.entries.filter (fun e => lo ≤ e.1), ∀ b, e.1 ≤ b → below b → below e.1 := fun e inside b =>
    downward e.1 b (of_decide_eq_true (List.mem_filter.mp inside).2)
  rw [ascend,dropWhile_eq_filter lo m.sorted,takeWhile_eq_filter below above (m.sorted.filter _),List.filter_filter,filter]
  simp [Bool.and_comm]

theorem ascend_all (m : SortedMap α β) (lo : α) : m.ascend lo (fun _ => true) = (m.filter fun k _ => decide (lo ≤ k)).entries := by
  rw [ascend_eq_filter m lo (fun _ => true) fun _ _ _ _ holds => holds]
  simp

theorem takeWhile_ascend (m : SortedMap α β) (lo : α) (below : α → Bool) :
    ((m.ascend lo fun _ => true).takeWhile fun e => below e.1) = m.ascend lo below := by
  have all : (m.ascend lo fun _ => true) = m.entries.dropWhile fun e => e.1 < lo := List.takeWhile_eq_self_iff.mpr fun _ _ => rfl
  rw [all,ascend]

theorem ascend_congr {m n : SortedMap α β} {lo : α} (same : ∀ k, lo ≤ k → m.find? k = n.find? k) :
    m.ascend lo (fun _ => true) = n.ascend lo fun _ => true := by
  rw [ascend_all,ascend_all]
  refine congrArg entries (ext_find fun k => ?_)
  rw [find_filter,find_filter]
  by_cases above : lo ≤ k
  · rw [same k above]
  · simp [above]

/-- A scan that starts right behind a binding visits the rest. -/
theorem ascend_after {m : SortedMap α β} {lo lo' : α} {seen rest : List (α × β)} {e : α × β}
    (page : m.ascend lo (fun _ => true) = seen ++ e :: rest) (next : ∀ k, (m.find? k).isSome → (lo' ≤ k ↔ e.1 < k)) :
    m.ascend lo' (fun _ => true) = rest := by
  rw [ascend_all] at page ⊢
  have sorted := (m.filter fun k _ => decide (lo ≤ k)).sorted
  have inside : e ∈ (m.filter fun k _ => decide (lo ≤ k)).entries := by rw [page]; simp
  have above : lo ≤ e.1 := of_decide_eq_true (List.mem_filter.mp inside).2
  have twice : (m.filter fun k _ => decide (lo' ≤ k)).entries =
      (m.filter fun k _ => decide (lo ≤ k)).entries.filter fun x => decide (e.1 < x.1) := by
    change m.entries.filter (fun x => decide (lo' ≤ x.1)) = (m.entries.filter fun x => decide (lo ≤ x.1)).filter _
    rw [List.filter_filter]
    refine List.filter_congr fun x member => ?_
    have present : (m.find? x.1).isSome := by rw [mem_entries.mp member]; rfl
    rw [← Bool.decide_and,decide_eq_decide,next x.1 present]
    exact ⟨fun less => ⟨less,above.trans less.le⟩,fun both => both.1⟩
  rw [page] at sorted twice
  obtain ⟨-,tail,before⟩ := List.pairwise_append.mp sorted
  obtain ⟨after,-⟩ := List.pairwise_cons.mp tail
  rw [twice,List.filter_append,List.filter_cons_of_neg (by simp),List.filter_eq_nil_iff.mpr,List.nil_append,
    List.filter_eq_self.mpr]
  · exact fun x member => decide_eq_true (after x member)
  · intro x member
    simpa using (before x member e List.mem_cons_self).le

theorem head_entries {m : SortedMap α β} (found : m.find? k = some v)
    (least : ∀ k', (m.find? k').isSome → k ≤ k') : m.entries.head? = some (k,v) := by
  have member := mem_entries.mpr found
  have sorted := m.sorted
  cases whole : m.entries with
  | nil => rw [whole] at member; cases member
  | cons e rest =>
    rw [whole] at member sorted
    rcases List.mem_cons.mp member with same | inside
    · rw [same,List.head?_cons]
    · have first : m.find? e.1 = some e.2 := mem_entries.mp (by rw [whole]; exact List.mem_cons_self)
      exact absurd ((List.pairwise_cons.mp sorted).1 _ inside) (not_lt.mpr (least e.1 (by rw [first]; rfl)))

theorem flatMap_entries_congr {m n : SortedMap α β} {f : β → List γ}
    (same : ∀ k, ((m.find? k).map f).getD [] = ((n.find? k).map f).getD []) :
    (m.entries.flatMap fun e => f e.2) = n.entries.flatMap fun e => f e.2 := by
  -- only the keys that contribute are left
  let full : SortedMap α β → SortedMap α (List γ) := fun m => m.filterMap fun _ v => if (f v).isEmpty then none else some (f v)
  have whole : ∀ m : SortedMap α β, (m.entries.flatMap fun e => f e.2) = (full m).entries.flatMap (·.2) := by
    intro m
    change _ = List.flatMap _ (m.entries.filterMap _)
    induction m.entries with
    | nil => rfl
    | cons e rest ih =>
      cases list : f e.2 <;> simp [list,ih]
  have equal : full m = full n := by
    refine ext_find fun k => ?_
    have here := same k
    rw [find_filterMap,find_filterMap]
    cases left : m.find? k <;> cases right : n.find? k <;> simp_all
  rw [whole m,whole n,equal]

/-- Inserting the bindings in any order, with new values, gives the map with those values. -/
theorem foldl_insert_entries {m : SortedMap α β} (perm : l.Perm m.entries) (f : β → γ) :
    l.foldl (fun n e => n.insert e.1 (f e.2)) empty = m.mapVals fun _ v => f v := by
  have general : ∀ (l : List (α × β)) (n : SortedMap α γ) (k : α), (l.map Prod.fst).Nodup →
      (∀ v, (k,v) ∈ l → (l.foldl (fun n e => n.insert e.1 (f e.2)) n).find? k = some (f v)) ∧
        ((∀ v, (k,v) ∉ l) → (l.foldl (fun n e => n.insert e.1 (f e.2)) n).find? k = n.find? k) := by
    intro l
    induction l with
    | nil => exact fun n k _ => ⟨fun v member => absurd member List.not_mem_nil,fun _ => rfl⟩
    | cons e rest ih =>
      intro n k nodup
      obtain ⟨out,later⟩ := List.nodup_cons.mp nodup
      obtain ⟨found,absent⟩ := ih (n.insert e.1 (f e.2)) k later
      rw [List.foldl_cons]
      refine ⟨fun v member => ?_,fun nowhere => ?_⟩
      · rcases List.mem_cons.mp member with rfl | inside
        · rw [absent fun v' again => out (List.mem_map.mpr ⟨(k,v'),again,rfl⟩),find_insert,if_pos rfl]
        · exact found v inside
      · have other : k ≠ e.1 := by
          rintro rfl
          exact nowhere e.2 List.mem_cons_self
        rw [absent fun v inside => nowhere v (List.mem_cons_of_mem _ inside),find_insert,if_neg other]
  have nodup : (l.map Prod.fst).Nodup := (perm.map _).nodup_iff.mpr m.keys_sorted.nodup
  refine ext_find fun k => ?_
  obtain ⟨found,absent⟩ := general l empty k nodup
  rw [find_mapVals]
  cases bound : m.find? k with
  | none =>
    refine absent fun v member => ?_
    rw [perm.mem_iff,mem_entries,bound] at member
    cases member
  | some v => exact found v (perm.mem_iff.mpr (mem_entries.mpr bound))

/-- The sum of the weights of the values. -/
def weigh (w : β → Int) (m : SortedMap α β) : Int := (m.entries.map fun e => w e.2).sum

theorem weigh_congr {w w' : β → Int} {m : SortedMap α β} (same : ∀ k v, m.find? k = some v → w v = w' v) : m.weigh w = m.weigh w' :=
  congrArg List.sum (List.map_congr_left fun e member => same e.1 e.2 (mem_entries.mp member))

theorem weigh_erase (w : β → Int) (m : SortedMap α β) (k : α) : m.weigh w = ((m.find? k).map w).getD 0 + (m.erase k).weigh w := by
  cases found : m.find? k with
  | none =>
    have unchanged : m.erase k = m := by
      refine ext_find fun k' => ?_
      rw [find_erase]
      by_cases same : k' = k
      · rw [if_pos same,same,found]
      · rw [if_neg same]
    rw [unchanged,Option.map_none,Option.getD_none,zero_add]
  | some v =>
    have nodup : ∀ m : SortedMap α β, m.entries.Nodup := fun m => m.sorted.imp fun less same => less.ne (congrArg Prod.fst same)
    have out : (k,v) ∉ (m.erase k).entries := by simp [mem_entries]
    have perm : m.entries.Perm ((k,v) :: (m.erase k).entries) := by
      refine (List.perm_ext_iff_of_nodup (nodup m) (List.nodup_cons.mpr ⟨out,nodup _⟩)).mpr fun e => ?_
      obtain ⟨k',v'⟩ := e
      rw [List.mem_cons,mem_entries,mem_entries,find_erase,Prod.mk.injEq]
      by_cases same : k' = k
      · rw [if_pos same,same,found]
        simp [eq_comm]
      · simp [same]
    rw [weigh,(perm.map _).sum_eq,List.map_cons,List.sum_cons]
    rfl

/-- An insertion changes the sum by the difference of the weights. -/
theorem weigh_insert (w : β → Int) (m : SortedMap α β) (k : α) (v : β) :
    (m.insert k v).weigh w = m.weigh w + w v - ((m.find? k).map w).getD 0 := by
  have rest : (m.insert k v).erase k = m.erase k := by
    refine ext_find fun k' => ?_
    rw [find_erase,find_erase,find_insert]
    split <;> rfl
  rw [weigh_erase w (m.insert k v) k,rest,weigh_erase w m k,find_insert,if_pos rfl,Option.map_some,Option.getD_some]
  ring

end SortedMap
