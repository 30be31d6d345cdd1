import Kave.Transaction

/-! The store refines the history of maps: what it answers at a revision is the map of that revision. -/

namespace Kave

open TreeIndex

/-- What a reader can learn of a key from the content at a revision. -/
def shown (kv : KvBucket) (answer : Option (Revision × Revision × Int)) : Option (Int × Int × Int × Option Entry) :=
  answer.map fun found => (found.1.main,found.2.1.main,found.2.2,kv.find? ⟨found.2.1,false⟩)

/-- What a reader of the store learns of a key at a revision. -/
def KvStore.seenAt (s : KvStore) (key : Bytes) (r : Int) : Option (Int × Int × Int × Option Entry) :=
  shown s.backend.buckets.kv (s.kvIndex.look key r)

/-- What the abstract map says of a key. -/
def wanted (key : Bytes) (item : Option Item) : Option (Int × Int × Int × Option Entry) :=
  item.map fun item => (item.createRev,item.modRev,item.version,some (item.entry key))

/-- The content shows the map `m` at revision `r`. -/
def Content.Shows (c : Content) (r : Int) (m : KvMap) : Prop :=
  ∀ key, shown c.kv (c.index.look key r) = wanted key (m.find? key)

variable {m : KvMap} {next : Int} {r : Int} {ti : TreeIndex} {n : Nat} {a b : Content} {s : KvStore} {h : History} {lo : Int}

theorem Content.Shows.domain {c : Content} (shows_ : c.Shows next m) : c.Domain next m := by
  intro key
  have same := congrArg Option.isSome (shows_ key)
  simpa [shown,wanted] using same

theorem shown_congr {kv kv' : KvBucket} {key : Bytes}
    (same : ∀ bk ∈ ti.records key, bk.tombstone = false → bk.rev.main ≤ r → kv'.find? bk = kv.find? bk) :
    shown kv' (ti.look key r) = shown kv (ti.look key r) := by
  cases answer : ti.look key r with
  | none => rfl
  | some found =>
    obtain ⟨created,mod,version⟩ := found
    obtain ⟨member,le⟩ := look_mem answer
    simp [shown,same _ member rfl le]

theorem shown_insert {a : Content} (before : a.Before ⟨next,n⟩) (key : Bytes) (r : Int)
    {bk : KvBucketKey} (new : bk.rev = ⟨next,n⟩) (entry : Entry) :
    shown (a.kv.insert bk entry) (a.index.look key r) = shown a.kv (a.index.look key r) := by
  refine shown_congr fun old member _ _ => ?_
  have different : old ≠ bk := by
    rintro rfl
    exact absurd (before.early key old member).2.2 (by rw [new]; exact lt_irrefl _)
  simp [different]

theorem WriteStep.shows_past {w : Write} (step : WriteStep next n a w b)
    (before : a.Before ⟨next,n⟩) (past : r < next) (shows_ : a.Shows r m) : b.Shows r m := by
  obtain ⟨key,bk,entry,rev,wrote,kv,-⟩ := step.wrote
  intro k
  have look : b.index.look k r = a.index.look k r := by
    by_cases same : k = key
    · subst same
      rw [wrote.look,if_pos (by rw [rev]; exact past)]
    · exact wrote.look_other same r
  rw [look,kv,shown_insert before k r rev entry]
  exact shows_ k

theorem WriteStep.shows_now {w : Write} (step : WriteStep next n a w b)
    (before : a.Before ⟨next,n⟩) (shows_ : a.Shows next m) : b.Shows next (KvMap.write next m w) := by
  intro k
  cases step with
  | @put key value leaseID ti wrote =>
    simp only [KvMap.write,KvMap.put,SortedMap.find_insert]
    by_cases same : k = key
    · subst same
      have old := shows_ k
      rw [wrote.look,if_neg (lt_irrefl next),if_pos rfl]
      cases answer : a.index.look k next with
      | none =>
        rw [answer] at old
        have gone : m.find? k = none := by simpa [shown,wanted] using old.symm
        simp [shown,wanted,KeyIndex.extend,gone,Item.entry,KvMap.putItem,Writer.putEntry,Entry.stored]
      | some found =>
        obtain ⟨created,mod,version⟩ := found
        rw [answer] at old
        obtain ⟨item,here,same⟩ := Option.map_eq_some_iff.mp old.symm
        simp only [Prod.mk.injEq] at same
        obtain ⟨createdIs,-,versionIs,-⟩ := same
        simp [shown,wanted,KeyIndex.extend,here,Item.entry,KvMap.putItem,Writer.putEntry,Entry.stored,createdIs,
          versionIs]
    · rw [if_neg same,wrote.look_other same,shown_insert before k next rfl]
      exact shows_ k
  | @delete key ti alive wrote =>
    simp only [KvMap.write,SortedMap.find_erase]
    by_cases same : k = key
    · subst same
      simp [wrote.look,shown,wanted]
    · rw [if_neg same,wrote.look_other same,shown_insert before k next rfl]
      exact shows_ k

theorem Chain.shows_past {ws : List Write} (positive : 0 < next)
    (chain : Chain next n a ws b) (before : a.Before ⟨next,n⟩) (past : r < next)
    (shows_ : a.Shows r m) : b.Shows r m := by
  induction chain with
  | nil => exact shows_
  | cons step rest ih => exact ih (step.before positive before) (step.shows_past before past shows_)

theorem Chain.shows_now {ws : List Write} (positive : 0 < next)
    (chain : Chain next n a ws b) (before : a.Before ⟨next,n⟩) (shows_ : a.Shows next m) :
    b.Shows next (KvMap.writes next m ws) := by
  induction chain generalizing m with
  | nil => exact shows_
  | cons step rest ih => exact ih (step.before positive before) (step.shows_now before shows_)

/-- The store answers the history at every revision from `lo` to the current one. -/
structure Refines (lo : Int) (s : KvStore) (h : History) : Prop where
  settled : s.Settled
  current : s.currentRev.main = h.current
  reach : lo ≤ h.current
  agree : ∀ r, lo ≤ r → r ≤ h.current → s.content.Shows r (h.snap r)

theorem KvStore.Settled.look_now (settled : s.Settled) (key : Bytes) {t : Int} (le : s.currentRev.main ≤ t) :
    s.kvIndex.look key t = s.kvIndex.look key s.currentRev.main := by
  refine settled.before.valid.look_now (fun bk member => ?_) le
  obtain ⟨-,sub,less⟩ := settled.before.early key bk member
  rcases Revision.lt_iff.mp less with below | ⟨-,below⟩
  · exact Int.lt_add_one_iff.mp below
  · simp only at below
    omega

theorem Refines.shows_next (refines_ : Refines lo s h) :
    s.content.Shows (s.currentRev.main + 1) h.last := by
  intro key
  change shown _ (s.kvIndex.look key (s.currentRev.main + 1)) = _
  rw [refines_.settled.look_now key (Int.lt_succ _).le,refines_.current]
  exact refines_.agree h.current refines_.reach le_rfl key

theorem Refines.txn (refines_ : Refines lo s h) (ops : List Op) :
    Refines lo (s.txn ops) (h.txn ops) := by
  have shows_ := refines_.shows_next
  have committed := refines_.settled.txn shows_.domain ops
  have settled := committed.settled refines_.settled
  have positive : 0 < s.currentRev.main + 1 := by have := refines_.settled.nonneg; omega
  have current := committed.current
  have chain := committed.chain
  have before := refines_.settled.before
  rw [refines_.current] at current shows_ positive chain before
  have result := KvMap.applyOps_eq (h.current + 1) h.last ops
  generalize KvMap.opsWrites (h.current + 1) ops h.last = ws at current chain result
  rw [History.txn,result]
  cases ws with
  | nil =>
    refine ⟨settled,current,refines_.reach,?_⟩
    generalize (s.txn ops).content = c at chain ⊢
    cases chain
    exact refines_.agree
  | cons w rest =>
    refine ⟨settled,current,refines_.reach.trans (Int.lt_succ _).le,fun r low high => ?_⟩
    change r ≤ h.current + 1 at high
    change Content.Shows _ r (if r = h.current + 1 then _ else h.snap r)
    by_cases now : r = h.current + 1
    · rw [if_pos now,now]
      exact chain.shows_now positive before shows_
    · rw [if_neg now]
      exact chain.shows_past positive before (by omega) (refines_.agree r low (by omega))

/-! ### Reads -/

/-- The records a read comes to, in key order. -/
def recordsAt (ti : TreeIndex) (kv : KvBucket) (r : Int) (p : Bytes → Bool) : List (Option Entry) :=
  ((ti.live r).filter fun k _ => p k).entries.map fun e => kv.find? ⟨e.2.2.1,false⟩

private theorem whole_filter {α : Type} (o : Option α) : (o.filter fun _ => true) = o := by cases o <;> rfl

theorem recordsAt_congr {ti ti' : TreeIndex} {kv kv' : KvBucket}
    (same : ∀ key, (ti'.look key r).map (fun found => kv'.find? ⟨found.2.1,false⟩) =
      (ti.look key r).map fun found => kv.find? ⟨found.2.1,false⟩) (p : Bytes → Bool) :
    recordsAt ti' kv' r p = recordsAt ti kv r p := by
  have maps : ((ti'.live r).filter fun k _ => p k).mapVals (fun _ found => kv'.find? ⟨found.2.1,false⟩)
      = ((ti.live r).filter fun k _ => p k).mapVals fun _ found => kv.find? ⟨found.2.1,false⟩ := by
    refine SortedMap.ext_find fun k => ?_
    rw [SortedMap.find_mapVals,SortedMap.find_mapVals,SortedMap.find_filter,SortedMap.find_filter,find_live,find_live]
    have here := same k
    cases p k
    · simp
    · simpa only [whole_filter] using here
  have lists := congrArg (fun m => m.entries.map (·.2)) maps
  simpa [recordsAt,SortedMap.mapVals,Function.comp_def] using lists

private theorem Content.Shows.records_eq {c : Content} (shows_ : c.Shows r m) (p : Bytes → Bool) :
    recordsAt c.index c.kv r p = (History.entries m p).map some := by
  have maps : ((c.index.live r).filter fun k _ => p k).mapVals (fun _ found => c.kv.find? ⟨found.2.1,false⟩)
      = (m.filter fun k _ => p k).mapVals fun k item => some (item.entry k) := by
    refine SortedMap.ext_find fun k => ?_
    rw [SortedMap.find_mapVals,SortedMap.find_mapVals,SortedMap.find_filter,SortedMap.find_filter,find_live]
    have same := congrArg (Option.map (·.2.2.2)) (shows_ k)
    simp only [shown,wanted,Option.map_map,Function.comp_def] at same
    cases p k
    · simp
    · simpa only [whole_filter] using same
  have lists := congrArg (fun m => m.entries.map (·.2)) maps
  simpa [recordsAt,SortedMap.mapVals,History.entries,Function.comp_def] using lists

theorem cut_map {α β : Type} (f : α → β) (limit : Int) (l : List α) : (cut limit l).map f = cut limit (l.map f) := by
  rw [cut,cut]
  split
  · rfl
  · exact List.map_take

theorem mem_of_mem_cut {α : Type} {limit : Int} {l : List α} {x : α} (member : x ∈ cut limit l) : x ∈ l := by
  rw [cut] at member
  split at member
  · exact member
  · exact List.mem_of_mem_take member

private theorem take_cut {α : Type} (limit : Int) (l : List α) :
    (cut limit l).take (if limit ≤ 0 ∨ limit > (cut limit l).length then (cut limit l).length else limit.toNat)
      = cut limit l := by
  refine List.take_of_length_le ?_
  split
  · exact le_rfl
  next bounded =>
    rw [cut,if_neg fun none => bounded (Or.inl none),List.length_take]
    omega

theorem fetchRange_eq (ti : TreeIndex) (b : Buckets) (r : Int) (key : Bytes) (endKey : Option Bytes) (limit : Int) :
    fetchRange ti b r key endKey limit =
      let records := recordsAt ti b.kv r (selects key endKey)
      let got := (cut limit records).filterMap id
      ⟨got,records.length,if cut limit records = [] then r else lastRevOf got⟩ := by
  have records : recordsAt ti b.kv r (selects key endKey) =
      (((ti.live r).filter fun k _ => selects key endKey k).entries.map (·.2.2.1)).map fun mod => b.kv.find? ⟨mod,false⟩ := by
    rw [recordsAt,List.map_map]
    rfl
  rw [fetchRange,revisions_eq,records]
  generalize ((ti.live r).filter fun k _ => selects key endKey k).entries.map (·.2.2.1) = mods
  simp only [take_cut,← cut_map,List.filterMap_map,List.length_map,List.map_eq_nil_iff]
  split
  next none => simp [none]
  next => rfl

theorem Content.Shows.fetchRange {b : Buckets}
    (shows_ : Content.Shows ⟨ti,b.kv⟩ r m) (key : Bytes) (endKey : Option Bytes) (limit : Int) :
    Kave.fetchRange ti b r key endKey limit = History.read m (selects key endKey) r limit := by
  have records := shows_.records_eq (selects key endKey)
  change recordsAt ti b.kv r _ = _ at records
  rw [fetchRange_eq,records]
  simp only [← cut_map,List.filterMap_map,Function.comp_def,id,List.filterMap_some,List.length_map,List.map_eq_nil_iff]
  rfl

/-- The keys a read is about, with the pair of zero bytes that stands for everything. -/
def reads (key : Bytes) (endKey : Option Bytes) : Bytes → Bool :=
  if key = [0] ∧ endKey = some [0] then selects [] none else selects key endKey

/-- The revision a read asks for, the current one if it names none. -/
def askedRev (curr rev : Int) : Int := if rev ≤ 0 then curr else rev

/-- A read of content that shows `m` is a read of `m`, if its guards let it through. -/
theorem Content.Shows.doRange {b : Buckets} {curr rev : Int}
    (shows_ : Content.Shows ⟨ti,b.kv⟩ (askedRev curr rev) m) (compacted : Int) (key : Bytes) (endKey : Option Bytes)
    (limit : Int) :
    Kave.doRange ti b curr compacted rev key endKey limit =
      if rev > curr then .error .futureRevision
      else if askedRev curr rev < compacted then .error .compacted
      else .ok (History.read m (reads key endKey) (askedRev curr rev) limit) := by
  rw [Kave.doRange,reads]
  change (if rev > curr then _ else if askedRev curr rev < compacted then _ else
    Except.ok (Kave.fetchRange ti b (askedRev curr rev) _ _ limit)) = _
  rw [shows_.fetchRange]
  by_cases all : key = [0] ∧ endKey = some [0] <;> simp only [all,and_self,if_true,if_false]

/-- The store reads the history. -/
theorem Refines.range (refines_ : Refines lo s h) (low : lo ≤ r)
    (positive : 0 < r) (le : r ≤ s.currentRev.main) (kept : s.compactedMainRev ≤ r) (key : Bytes)
    (endKey : Option Bytes) (limit : Int) :
    s.range key endKey r limit = .ok (History.read (h.snap r) (reads key endKey) r limit) := by
  have asked : askedRev s.currentRev.main r = r := if_neg (not_le.mpr positive)
  have shows_ : s.content.Shows (askedRev s.currentRev.main r) (h.snap r) := by
    rw [asked]
    exact refines_.agree r low (by rw [← refines_.current]; exact le)
  rw [KvStore.range,Content.Shows.doRange shows_,asked,if_neg (not_lt.mpr le),if_neg (not_lt.mpr kept)]

/-! ### Whole runs -/

def KvStore.txns (s : KvStore) (txns : List (List Op)) : KvStore := txns.foldl KvStore.txn s

theorem refines_empty : Refines 0 (KvStore.new Backend.empty) History.empty where
  settled := ⟨le_rfl,valid_empty,fun key bk member => by simp [KvStore.content,KvStore.new,records] at member⟩
  current := rfl
  reach := le_rfl
  agree := fun r _ _ key => by simp [KvStore.content,KvStore.new,look,shown,wanted,History.empty]

theorem Refines.txns (refines_ : Refines lo s h) (txns : List (List Op)) :
    Refines lo (s.txns txns) (h.txns txns) ∧ (s.txns txns).compactedMainRev = s.compactedMainRev := by
  induction txns generalizing s h with
  | nil => exact ⟨refines_,rfl⟩
  | cons ops rest ih =>
    obtain ⟨final,compacted⟩ := ih (refines_.txn ops)
    exact ⟨final,compacted.trans (refines_.settled.txn refines_.shows_next.domain ops).compacted⟩

/-- The keys of `[key, end)`, or the one key if there is no end. -/
def inRange (key : Bytes) (endKey : Option Bytes) (k : Bytes) : Bool :=
  match endKey with
  | none => k = key
  | some stop => key ≤ k && k < stop

theorem reads_eq_inRange {key : Bytes} (nonempty : key ≠ []) {endKey : Option Bytes} (bounded : endKey ≠ some [])
    (ordinary : ¬(key = [0] ∧ endKey = some [0])) : reads key endKey = inRange key endKey := by
  funext k
  rw [reads,if_neg ordinary,selects]
  cases endKey with
  | none => simp [nonempty,inRange]
  | some stop =>
    have full : stop.isEmpty = false := List.isEmpty_eq_false_iff.mpr fun none => bounded (by rw [none])
    simp [inRange,visits,full]

/-- After any sequence of transactions, a read at a revision is a read of the map that the transactions up to
    that revision leave. -/
theorem range_reads_history (txns : List (List Op)) {r : Int} (first : 1 ≤ r)
    (le : r ≤ ((KvStore.new Backend.empty).txns txns).currentRev.main) {key : Bytes} (nonempty : key ≠ [])
    {endKey : Option Bytes} (bounded : endKey ≠ some []) (ordinary : ¬(key = [0] ∧ endKey = some [0])) (limit : Int) :
    ((KvStore.new Backend.empty).txns txns).range key endKey r limit =
      .ok (History.read (History.empty.txns ((History.effective History.empty txns).take r.toNat)).last
        (inRange key endKey) r limit) := by
  obtain ⟨refines_,compacted⟩ := refines_empty.txns txns
  obtain ⟨-,-,snaps⟩ := History.snap_eq txns
  have kept : ((KvStore.new Backend.empty).txns txns).compactedMainRev ≤ r := by rw [compacted]; simp [KvStore.new]; omega
  rw [refines_.range (by omega) (by omega) le kept, reads_eq_inRange nonempty bounded ordinary,
    snaps r (by omega) (by rw [← refines_.current]; exact le)]

theorem range_reads_history_two_puts :
    ((KvStore.new Backend.empty).txns [[.put [97] (some [1]) 0],[.put [97] (some [2]) 0]]).range [97] none 1 0 =
      .ok (History.read (History.empty.txns ((History.effective History.empty
        [[.put [97] (some [1]) 0],[.put [97] (some [2]) 0]]).take 1)).last (inRange [97] none) 1 0) :=
  range_reads_history [[.put [97] (some [1]) 0],[.put [97] (some [2]) 0]] (r := 1) (by decide) (by decide)
    (by decide) (by decide) (by decide) 0

/-- The pair of zero bytes is not read as a range, and a transaction that deletes nothing takes no revision. -/
theorem range_differs_on_zero_bytes_and_on_idle_txns :
    ((KvStore.new Backend.empty).txns [[.put [97] (some [1]) 0]]).range [0] (some [0]) 1 0 ≠
      .ok (History.read (History.empty.txns ([[Op.put [97] (some [1]) 0]].take 1)).last (inRange [0] (some [0])) 1 0) ∧
    ((KvStore.new Backend.empty).txns [[.deleteKey [98]],[.put [97] (some [1]) 0]]).range [97] none 1 0 ≠
      .ok (History.read (History.empty.txns ([[Op.deleteKey [98]],[.put [97] (some [1]) 0]].take 1)).last
        (inRange [97] none) 1 0) := by
  decide

end Kave
