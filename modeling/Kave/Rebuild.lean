import Kave.Compaction

/-! The index `Restore` builds from the records that are left: key by key, the replay of that key's records. -/

namespace Kave

open TreeIndex KeyIndex

/-- What one record does to the item of its key. -/
def rebuildStep (key : Bytes) (item : Option KeyIndex) (bk : KvBucketKey) : Option KeyIndex :=
  match item with
  | none => if bk.tombstone then none else ((KeyIndex.new key).put bk.rev.main bk.rev.sub).toOption
  | some ki =>
    some ((if bk.tombstone then ki.tombstone bk.rev.main bk.rev.sub else ki.put bk.rev.main bk.rev.sub).toOption.getD ki)

/-- The item of a key after a list of its records. -/
def rebuild (key : Bytes) (item : Option KeyIndex) (keys : List KvBucketKey) : Option KeyIndex :=
  keys.foldl (rebuildStep key) item

private theorem find_insert_or_keep (ti : TreeIndex) (key k : Bytes) (run : Except IndexError KeyIndex) :
    ((run.map fun ki => ti.insert key ki).toOption.getD ti).find? k =
      if k = key then run.toOption.or (ti.find? k) else ti.find? k := by
  cases run with
  | error e => simp [Except.map,Except.toOption]
  | ok ki => by_cases same : k = key <;> simp [Except.map,Except.toOption,same]

theorem rebuild_append (key : Bytes) (item : Option KeyIndex) (keys more : List KvBucketKey) :
    rebuild key item (keys ++ more) = rebuild key (rebuild key item keys) more := List.foldl_append

theorem find_restoreEntry (ti : TreeIndex) (bk : KvBucketKey) (entry : Entry) (key : Bytes) :
    (KvStore.restoreEntry ti bk entry).find? key =
      if key = entry.key then rebuildStep key (ti.find? key) bk else ti.find? key := by
  rw [KvStore.restoreEntry]
  by_cases same : key = entry.key
  · subst same
    cases found : ti.find? entry.key with
    | none =>
      cases marked : bk.tombstone
      · simp [TreeIndex.put,found,find_insert_or_keep,rebuildStep,marked]
      · simp [TreeIndex.tombstone,found,rebuildStep,marked,Except.toOption]
    | some ki =>
      cases marked : bk.tombstone
      · simp only [TreeIndex.put,found,find_insert_or_keep,rebuildStep,marked,Bool.false_eq_true,if_false,if_true]
        cases ki.put bk.rev.main bk.rev.sub <;> rfl
      · simp only [TreeIndex.tombstone,found,find_insert_or_keep,rebuildStep,marked,if_true]
        cases ki.tombstone bk.rev.main bk.rev.sub <;> rfl
  · have failed : ∀ e, (Except.error e : Except IndexError TreeIndex).toOption.getD ti = ti := fun _ => rfl
    rw [if_neg same]
    cases found : ti.find? entry.key <;> cases bk.tombstone <;>
      simp [TreeIndex.put,TreeIndex.tombstone,found,find_insert_or_keep,same,failed]

def recordsIn (kv : KvBucket) (key : Bytes) : List KvBucketKey := (kv.entries.filter (·.2.key = key)).map (·.1)

/-- The restored item of a key is rebuilt from the records of the key. -/
theorem find_restoreIndex (kv : KvBucket) (key : Bytes) :
    (KvStore.restoreIndex kv).find? key = rebuild key none (recordsIn kv key) := by
  have general : ∀ (entries : List (KvBucketKey × Entry)) (ti : TreeIndex),
      (entries.foldl (fun ti e => KvStore.restoreEntry ti e.1 e.2) ti).find? key =
        rebuild key (ti.find? key) ((entries.filter (·.2.key = key)).map (·.1)) := by
    intro entries
    induction entries with
    | nil => intro ti; rfl
    | cons e rest ih =>
      intro ti
      rw [List.foldl_cons,ih,find_restoreEntry]
      by_cases same : key = e.2.key
      · simp [same,rebuild]
      · simp [same,Ne.symm same]
  exact general kv.entries SortedMap.empty

variable {key : Bytes} {ended : List Generation} {current : Generation} {ki : KeyIndex}

theorem mem_recordsIn {kv : KvBucket} {bk : KvBucketKey} :
    bk ∈ recordsIn kv key ↔ ∃ entry, kv.find? bk = some entry ∧ entry.key = key := by
  rw [recordsIn,List.mem_map]
  constructor
  · rintro ⟨e,member,rfl⟩
    obtain ⟨inside,named⟩ := List.mem_filter.mp member
    exact ⟨e.2,SortedMap.mem_entries.mp inside,by simpa using named⟩
  · rintro ⟨entry,found,named⟩
    exact ⟨(bk,entry),List.mem_filter.mpr ⟨SortedMap.mem_entries.mpr found,by simpa using named⟩,rfl⟩

theorem recordsIn_sorted (kv : KvBucket) (key : Bytes) : (recordsIn kv key).Pairwise (· < ·) :=
  List.pairwise_map.mpr (kv.sorted.filter _)

/-! ### The rebuilt index is well-formed, whatever records are left -/

/-- An item a replay can leave. -/
private def Rebuilt (key : Bytes) (item : Option KeyIndex) : Prop := ∀ ki, item = some ki → ki.key = key ∧ ki.WellFormed

theorem put_ok_iff {ki ki' : KeyIndex} {rev : Revision} (run : ki.put rev.main rev.sub = .ok ki') :
    ki.modRev < rev ∧ ki' = { ki with generations := appendRev ki.generations rev, modRev := rev } := by
  by_cases later : ki.modRev < rev
  · rw [put_eq later] at run
    exact ⟨later,(Except.ok.inj run).symm⟩
  · have refused : rev.greaterThan ki.modRev = false := by
      rw [← Bool.not_eq_true,Revision.greaterThan_iff]
      exact later
    simp [KeyIndex.put,refused] at run

theorem KeyIndex.Lives.tombstone_ok {ki ki' : KeyIndex}
    (lives : ki.Lives ended current) {rev : Revision} (run : ki.tombstone rev.main rev.sub = .ok ki') :
    current.revs ≠ [] ∧ ki.modRev < rev ∧
      ki' = ⟨ki.key,rev,ended ++ [current.append rev] ++ [Generation.zero]⟩ := by
  have last : ki.generations.getLast? = some current := by simp [lives.generations]
  by_cases alive : current.revs = []
  · have empty : current.isEmpty = true := by simpa [Generation.isEmpty] using alive
    simp [KeyIndex.tombstone,lives.not_empty,last,empty] at run
  · cases put : ki.put rev.main rev.sub with
    | error e =>
      have full : current.isEmpty = false := by simpa [Generation.isEmpty] using alive
      simp [KeyIndex.tombstone,lives.not_empty,last,full,put] at run
    | ok ki₁ =>
      obtain ⟨later,-⟩ := put_ok_iff put
      rw [lives.tombstone_eq alive later] at run
      exact ⟨alive,later,(Except.ok.inj run).symm⟩

private theorem rebuilt_step {item : Option KeyIndex} (rebuilt : Rebuilt key item) (bk : KvBucketKey) :
    Rebuilt key (rebuildStep key item bk) := by
  intro ki after
  cases item with
  | none =>
    rw [rebuildStep] at after
    cases marked : bk.tombstone
    · simp only [marked,Bool.false_eq_true,if_false] at after
      cases run : (KeyIndex.new key).put bk.rev.main bk.rev.sub with
      | error e => simp [run,Except.toOption] at after
      | ok ki₁ =>
        simp only [run,Except.toOption,Option.some.injEq] at after
        obtain ⟨-,form⟩ := put_ok_iff run
        rw [← after,form]
        exact ⟨rfl,_,_,Lives.first key bk.rev⟩
    · simp [marked] at after
  | some old =>
    obtain ⟨named,ended,current,lives⟩ := rebuilt old rfl
    simp only [rebuildStep,Option.some.injEq] at after
    cases marked : bk.tombstone
    · simp only [marked,Bool.false_eq_true,if_false] at after
      cases run : old.put bk.rev.main bk.rev.sub with
      | error e => simp only [run,Except.toOption,Option.getD_none] at after; rw [← after]; exact rebuilt old rfl
      | ok ki₁ =>
        obtain ⟨later,form⟩ := put_ok_iff run
        simp only [run,Except.toOption,Option.getD_some] at after
        rw [← after,form]
        exact ⟨named,_,_,lives.put later⟩
    · simp only [marked,if_true] at after
      cases run : old.tombstone bk.rev.main bk.rev.sub with
      | error e => simp only [run,Except.toOption,Option.getD_none] at after; rw [← after]; exact rebuilt old rfl
      | ok ki₁ =>
        obtain ⟨alive,later,form⟩ := lives.tombstone_ok run
        simp only [run,Except.toOption,Option.getD_some] at after
        rw [← after,form]
        exact ⟨named,_,_,lives.bury alive later⟩

/-- What is rebuilt is well formed, from whatever records. -/
theorem rebuild_valid (keys : List KvBucketKey)
    (found : rebuild key none keys = some ki) : ki.key = key ∧ ki.WellFormed := by
  have general : ∀ (keys : List KvBucketKey) (item : Option KeyIndex), Rebuilt key item → Rebuilt key (rebuild key item keys) := by
    intro keys
    induction keys with
    | nil => exact fun _ rebuilt => rebuilt
    | cons bk rest ih => exact fun item rebuilt => ih _ (rebuilt_step rebuilt bk)
  exact general keys none (fun ki absurd_ => by cases absurd_) ki found

theorem restoreIndex_valid (kv : KvBucket) : (KvStore.restoreIndex kv).Valid := by
  intro key ki found
  rw [find_restoreIndex] at found
  exact rebuild_valid _ found

/-! ### The life a replay leaves going on -/

/-- The puts since the last tombstone. -/
def openRun (keys : List KvBucketKey) : List Revision :=
  keys.foldl (fun run bk => if bk.tombstone then [] else run ++ [bk.rev]) []

@[simp] theorem openRun_nil : openRun [] = [] := rfl

@[simp] theorem openRun_snoc (keys : List KvBucketKey) (bk : KvBucketKey) :
    openRun (keys ++ [bk]) = if bk.tombstone then [] else openRun keys ++ [bk.rev] := by
  simp [openRun]

theorem openRun_append_puts (keys : List KvBucketKey) {puts : List KvBucketKey}
    (unmarked : ∀ bk ∈ puts, bk.tombstone = false) : openRun (keys ++ puts) = openRun keys ++ puts.map (·.rev) := by
  induction puts using List.reverseRecOn with
  | nil => simp
  | append_singleton puts bk ih =>
    have first := ih fun old inside => unmarked old (by simp [inside])
    rw [← List.append_assoc,openRun_snoc,unmarked bk (by simp),if_neg Bool.false_ne_true,first]
    simp

theorem openRun_split (keys : List KvBucketKey) :
    ∃ closed puts, keys = closed ++ puts ∧ (∀ bk ∈ puts, bk.tombstone = false) ∧ openRun keys = puts.map (·.rev) ∧
      (closed = [] ∨ ∃ older tomb, closed = older ++ [tomb] ∧ tomb.tombstone = true) := by
  induction keys using List.reverseRecOn with
  | nil => exact ⟨[],[],rfl,by simp,rfl,Or.inl rfl⟩
  | append_singleton keys bk ih =>
    obtain ⟨closed,puts,split,unmarked,run,ends⟩ := ih
    cases marked : bk.tombstone with
    | true => exact ⟨keys ++ [bk],[],by simp,by simp,by simp [marked],Or.inr ⟨keys,bk,rfl,marked⟩⟩
    | false =>
      refine ⟨closed,puts ++ [bk],by simp [split],?_,by simp [marked,run],ends⟩
      intro old inside
      rcases List.mem_append.mp inside with before | new
      · exact unmarked old before
      · rw [List.mem_singleton.mp new]
        exact marked

theorem openRun_eq_nil_iff (keys : List KvBucketKey) :
    openRun keys = [] ↔ ∀ bk ∈ keys.getLast?, bk.tombstone = true := by
  rcases List.eq_nil_or_concat' keys with rfl | ⟨older,bk,rfl⟩
  · simp
  · cases marked : bk.tombstone <;> simp [marked]

/-- The generation a replay makes of a life: the create revision and the version are read off the revisions. -/
def life (revs : List Revision) : Generation := ⟨revs.length,revs.headD Revision.zero,revs⟩

theorem life_append (revs : List Revision) (rev : Revision) : (life revs).append rev = life (revs ++ [rev]) := by
  cases revs <;> simp [life,Generation.append]

theorem KeyIndex.Lives.tombstone_error (lives : ki.Lives ended current) (dead : current.revs = []) (main sub : Int) :
    (ki.tombstone main sub).toOption = none := by
  have last : ki.generations.getLast? = some current := by simp [lives.generations]
  have empty : current.isEmpty = true := by simpa [Generation.isEmpty] using dead
  simp [KeyIndex.tombstone,lives.not_empty,last,empty,Except.toOption]

/-- The current life of what is rebuilt are the puts behind the last tombstone. -/
theorem rebuild_openRun (key : Bytes) {keys : List KvBucketKey} (sorted : keys.Pairwise fun a b => a.rev < b.rev)
    (positive : ∀ bk ∈ keys, Revision.zero < bk.rev) :
    rebuild key none keys = none ∧ openRun keys = [] ∨
      ∃ ki ended, rebuild key none keys = some ki ∧ ki.Lives ended (life (openRun keys)) ∧
        (∃ bk ∈ keys, ki.modRev = bk.rev) ∧ ∀ bk ∈ ki.bucketKeys, bk ∈ keys := by
  induction keys using List.reverseRecOn with
  | nil => exact Or.inl ⟨rfl,rfl⟩
  | append_singleton keys bk ih =>
    obtain ⟨before,-,later⟩ := List.pairwise_append.mp sorted
    have step : rebuild key none (keys ++ [bk]) = rebuildStep key (rebuild key none keys) bk := rebuild_append _ _ _ _
    have above := positive bk (by simp)
    have grows : ∀ {old : List KvBucketKey}, (∀ x ∈ old, x ∈ keys) → ∀ x ∈ old ++ [⟨bk.rev,bk.tombstone⟩], x ∈ keys ++ [bk] := by
      intro old known x member
      rcases List.mem_append.mp member with before | new
      · exact List.mem_append_left _ (known x before)
      · exact List.mem_append_right _ new
    rw [step,openRun_snoc]
    rcases ih before fun old inside => positive old (by simp [inside]) with
      ⟨missing,run⟩ | ⟨ki,ended,found,lives,⟨newest,inside,newestIs⟩,known⟩
    · rw [missing,run]
      cases marked : bk.tombstone with
      | true => exact Or.inl ⟨by simp [rebuildStep,marked],by simp⟩
      | false =>
        have put := @put_eq (KeyIndex.new key) _ above
        refine Or.inr ⟨_,[],by simp [rebuildStep,marked,put,Except.toOption]; rfl,?_,⟨bk,by simp,rfl⟩,?_⟩
        · exact Lives.first key bk.rev
        · intro old member
          have only : old = ⟨bk.rev,false⟩ := by
            simpa [bucketKeys,genKeys,KeyIndex.new,appendRev,Generation.append,Generation.zero] using member
          rw [only,← marked]
          simp
    · have after : ki.modRev < bk.rev := by
        rw [newestIs]
        exact later newest inside bk (by simp)
      rw [found]
      cases marked : bk.tombstone with
      | false =>
        refine Or.inr ⟨_,ended,by simp [rebuildStep,marked,put_eq after,Except.toOption]; rfl,?_,⟨bk,by simp,rfl⟩,?_⟩
        · simp only [Bool.false_eq_true,if_false,← life_append]
          exact lives.put after
        · rw [lives.keys_put,← marked]
          exact grows known
      | true =>
        by_cases dead : openRun keys = []
        · -- a tombstone of a dead key is refused and only logged
          have refused := lives.tombstone_error dead bk.rev.main bk.rev.sub
          refine Or.inr ⟨ki,ended,by simp [rebuildStep,marked,refused],?_,⟨newest,by simp [inside],newestIs⟩,?_⟩
          · simp only [if_true]
            rw [← dead]
            exact lives
          · intro old member
            exact List.mem_append_left _ (known old member)
        · have bury := lives.tombstone_eq dead after
          refine Or.inr ⟨_,ended ++ [(life (openRun keys)).append bk.rev],
            by simp only [rebuildStep,marked,if_true,bury]; rfl,?_,⟨bk,by simp,rfl⟩,?_⟩
          · exact lives.bury dead after
          · rw [Except.toOption,Option.getD_some,lives.keys_bury after,← marked]
            exact grows known

theorem KeyIndex.Lives.openRun_eq (lives : ki.Lives ended current) : openRun ki.bucketKeys = current.revs := by
  have unmarked : ∀ bk ∈ current.revs.map fun rev => (⟨rev,false⟩ : KvBucketKey), bk.tombstone = false := by
    intro bk inside
    obtain ⟨rev,-,rfl⟩ := List.mem_map.mp inside
    rfl
  rw [bucketKeys,lives.generations,genKeys_snoc,openRun_append_puts _ unmarked]
  rcases List.eq_nil_or_concat' ended with rfl | ⟨older,g,rfl⟩
  · simp [Function.comp_def]
  · obtain ⟨puts,tomb,revs⟩ := (List.eq_nil_or_concat' g.revs).resolve_left (lives.closed g (by simp))
    simp [revs,List.flatMap_append,← List.append_assoc,Function.comp_def]

end Kave
