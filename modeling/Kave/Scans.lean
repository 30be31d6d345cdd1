import Kave.BatchWrites
import Kave.Codec

/-! The scans of the two byte stores. A scan hands the pairs of a bucket to a callback, in the order of the keys, until the callback
    asks it to stop. What a callback is, and what it keeps between its calls, is left open. -/

namespace Kave

/-! ### Callbacks -/

section
variable {K V W σ : Type}

/-- A loop that the callback can end. -/
def visitWhile (op : K → V → σ → σ × Bool) : List (K × V) → σ → σ
  | [], s => s
  | (key,value) :: rest, s =>
    match op key value s with
    | (s,true) => visitWhile op rest s
    | (s,false) => s

/-- A loop that goes on whatever the callback says. -/
def visitAll (op : K → V → σ → σ × Bool) (l : List (K × V)) (s : σ) : σ := l.foldl (fun s e => (op e.1 e.2 s).1) s

/-- The pairs up to and including the first for which the callback says no. -/
def untilNo (op : K → V → σ → σ × Bool) : List (K × V) → σ → List (K × V)
  | [], _ => []
  | (key,value) :: rest, s =>
    match op key value s with
    | (s,true) => (key,value) :: untilNo op rest s
    | (_,false) => [(key,value)]

/-- What the callback says to all the pairs. -/
def answers (op : K → V → σ → σ × Bool) : List (K × V) → σ → List Bool
  | [], _ => []
  | (key,value) :: rest, s => (op key value s).2 :: answers op rest (op key value s).1

/-- The callback, with a list of its calls. -/
def recorded (op : K → V → σ → σ × Bool) (key : K) (value : V) (s : σ × List (K × V)) : (σ × List (K × V)) × Bool :=
  (((op key value s.1).1,s.2 ++ [(key,value)]),(op key value s.1).2)

theorem visitWhile_recorded (op : K → V → σ → σ × Bool) (l : List (K × V)) (s : σ) (calls : List (K × V)) :
    visitWhile (recorded op) l (s,calls) = (visitWhile op l s,calls ++ untilNo op l s) := by
  induction l generalizing s calls with
  | nil => simp [visitWhile,untilNo]
  | cons e rest ih =>
    obtain ⟨key,value⟩ := e
    rw [visitWhile,visitWhile,untilNo,recorded]
    obtain ⟨s',yes⟩ := op key value s
    cases yes with
    | true =>
      simp only
      rw [ih,List.append_assoc]
      rfl
    | false => rfl

theorem visitAll_cons (op : K → V → σ → σ × Bool) (e : K × V) (rest : List (K × V)) (s : σ) :
    visitAll op (e :: rest) s = visitAll op rest (op e.1 e.2 s).1 := rfl

theorem visitAll_recorded (op : K → V → σ → σ × Bool) (l : List (K × V)) (s : σ) (calls : List (K × V)) :
    visitAll (recorded op) l (s,calls) = (visitAll op l s,calls ++ l) := by
  induction l generalizing s calls with
  | nil => simp [visitAll]
  | cons e rest ih =>
    rw [visitAll_cons,visitAll_cons,recorded,ih,List.append_assoc]
    rfl

theorem untilNo_eq_self_iff (op : K → V → σ → σ × Bool) (l : List (K × V)) (s : σ) :
    untilNo op l s = l ↔ ∀ yes ∈ (answers op l s).dropLast, yes = true := by
  induction l generalizing s with
  | nil => simp [untilNo,answers]
  | cons e rest ih =>
    obtain ⟨key,value⟩ := e
    rw [untilNo,answers]
    have later := ih (op key value s).1
    generalize op key value s = result at later ⊢
    obtain ⟨s',yes⟩ := result
    cases rest with
    | nil => cases yes <;> simp [untilNo,answers]
    | cons e' rest' =>
      cases yes with
      | true => simpa [answers] using later
      | false => simp [answers]

theorem visitWhile_map (op : K → W → σ → σ × Bool) (g : V → W) (l : List (K × V)) (s : σ) :
    visitWhile (fun key value => op key (g value)) l s = visitWhile op (l.map fun e => (e.1,g e.2)) s := by
  induction l generalizing s with
  | nil => rfl
  | cons e rest ih =>
    obtain ⟨key,value⟩ := e
    rw [visitWhile,List.map_cons,visitWhile]
    cases op key (g value) s with
    | mk s' yes => cases yes <;> simp [ih]

theorem visitWhile_guarded (test : K → Bool) (op : K → V → σ → σ × Bool) (l : List (K × V)) (s : σ) :
    visitWhile (fun key value s => if test key then op key value s else (s,false)) l s = visitWhile op (l.takeWhile fun e => test e.1) s := by
  induction l generalizing s with
  | nil => rfl
  | cons e rest ih =>
    obtain ⟨key,value⟩ := e
    rw [visitWhile]
    by_cases passes : test key
    · rw [List.takeWhile_cons_of_pos (by simpa using passes),visitWhile]
      simp only [passes,if_true,ih]
    · rw [List.takeWhile_cons_of_neg (by simpa using passes),visitWhile]
      simp only [passes,Bool.false_eq_true,if_false]

theorem visitAll_guarded (test : K → Bool) (op : K → V → σ → σ × Bool) (l : List (K × V)) (s : σ) :
    visitAll (fun key value s => if test key then op key value s else (s,false)) l s = visitAll op (l.filter fun e => test e.1) s := by
  induction l generalizing s with
  | nil => rfl
  | cons e rest ih =>
    rw [visitAll_cons,ih]
    by_cases passes : test e.1
    · rw [List.filter_cons_of_pos (by simpa using passes),if_pos passes]
      rfl
    · rw [List.filter_cons_of_neg (by simpa using passes),if_neg passes]

end

/-! ### Scans by prefix -/

section
variable {B σ : Type} [LinearOrder B]

/-- `PrefixScan` in memory; to the callback a nil value is an empty one. -/
def InmemStore.prefixScan (s : InmemStore B) (bucket : B) (p : Bytes) (f : Bytes → Bytes → σ → σ × Bool) (st : σ) :
    σ × Option StorageError :=
  match s.buckets.find? bucket with
  | none => (st,some .bucketNotFound)
  | some tree =>
    let op (key : Bytes) (value : Option Bytes) (st : σ) : σ × Bool := if p.isPrefixOf key then f key (value.getD []) st else (st,false)
    (visitWhile op (tree.ascend p fun _ => true) st,none)

/-- `PrefixScan` in a bolt file, whose loop continues where the callback of `Scan` would break. -/
def BoltStore.prefixScan (s : BoltStore B) (bucket : B) (p : Bytes) (f : Bytes → Bytes → σ → σ × Bool) (st : σ) :
    σ × Option StorageError :=
  match BoltStore.lookup s.bucketMap s.db bucket with
  | .error e => (st,some e)
  | .ok (_,contents) =>
    let g (key value : Bytes) (st : σ) : σ × Bool := if p.isPrefixOf key then f key value st else (st,false)
    (visitAll g contents.entries st,none)

theorem ascend_isPrefixOf {V : Type} (tree : SortedMap Bytes V) (p : Bytes) :
    ((tree.ascend p fun _ => true).takeWhile fun e => p.isPrefixOf e.1) = tree.entries.filter fun e => p.isPrefixOf e.1 := by
  have first : ∀ key : Bytes, p.isPrefixOf key = true → p ≤ key := by
    intro key has
    obtain ⟨rest,rfl⟩ := List.isPrefixOf_iff_prefix.mp has
    exact LexPrefix.le_append p rest
  have downward : ∀ a b : Bytes, p ≤ a → a ≤ b → p.isPrefixOf b = true → p.isPrefixOf a = true := by
    intro a b above below has
    exact List.isPrefixOf_iff_prefix.mpr (LexPrefix.isPrefix_of_le_of_le above below (List.isPrefixOf_iff_prefix.mp has))
  rw [tree.takeWhile_ascend p p.isPrefixOf,tree.ascend_eq_filter p p.isPrefixOf downward]
  refine List.filter_congr fun e _ => ?_
  by_cases has : p.isPrefixOf e.1 = true
  · simp [has,first e.1 has]
  · simp [has]

/-- The pairs with a prefix in a bucket that may be absent. -/
def prefixed (contents : Option (SortedMap Bytes Bytes)) (p : Bytes) : List (Bytes × Bytes) :=
  ((contents.map SortedMap.entries).getD []).filter fun e => p.isPrefixOf e.1

def InmemStore.contents (s : InmemStore B) (bucket : B) : Option (SortedMap Bytes Bytes) :=
  (s.buckets.find? bucket).map fun tree => tree.mapVals fun _ value => value.getD []

def BoltStore.contents (s : BoltStore B) (bucket : B) : Option (SortedMap Bytes Bytes) :=
  (BoltStore.lookup s.bucketMap s.db bucket).toOption.map Prod.snd

theorem InmemStore.prefixScan_eq (s : InmemStore B) (bucket : B) (p : Bytes) (f : Bytes → Bytes → σ → σ × Bool) (st : σ) :
    (s.prefixScan bucket p f st).1 = visitWhile f (prefixed (s.contents bucket) p) st := by
  rw [prefixScan,contents]
  cases s.buckets.find? bucket with
  | none => rfl
  | some tree =>
    simp only [Option.map_some,prefixed,Option.getD_some]
    rw [visitWhile_guarded p.isPrefixOf fun key (value : Option Bytes) => f key (value.getD []),ascend_isPrefixOf,
      visitWhile_map f fun value : Option Bytes => value.getD []]
    congr 1
    rw [SortedMap.mapVals,List.filter_map]
    rfl

theorem BoltStore.prefixScan_eq (s : BoltStore B) (bucket : B) (p : Bytes) (f : Bytes → Bytes → σ → σ × Bool) (st : σ) :
    (s.prefixScan bucket p f st).1 = visitAll f (prefixed (s.contents bucket) p) st := by
  rw [prefixScan,contents]
  cases BoltStore.lookup s.bucketMap s.db bucket with
  | error e => rfl
  | ok found =>
    simp only [Except.toOption,Option.map_some,prefixed,Option.getD_some]
    exact visitAll_guarded p.isPrefixOf f found.2.entries st

/-- Over the same contents the scan in memory calls the callback on the pairs with the prefix until it says no, and the scan of the
    bolt file does so if and only if the callback says no to none of them but the last. -/
theorem prefix_scans_call_alike_iff (s : InmemStore B) (t : BoltStore B) (bucket : B) (same : s.contents bucket = t.contents bucket)
    (p : Bytes) (f : Bytes → Bytes → σ → σ × Bool) (st : σ) :
    let pairs := prefixed (s.contents bucket) p
    (s.prefixScan bucket p (recorded f) (st,[])).1.2 = untilNo f pairs st ∧
      ((t.prefixScan bucket p (recorded f) (st,[])).1.2 = untilNo f pairs st ↔
        ∀ yes ∈ (answers f pairs st).dropLast, yes = true) := by
  intro pairs
  rw [InmemStore.prefixScan_eq, BoltStore.prefixScan_eq, ← same, visitWhile_recorded, visitAll_recorded, ← untilNo_eq_self_iff]
  exact ⟨rfl,eq_comm⟩

end

/-- Two pairs with the prefix, the second refused. -/
theorem prefix_scans_call_alike_no_at_last :
    let s : InmemStore Nat := ⟨SortedMap.empty.insert 0 (((SortedMap.empty.insert [97,49] (some [1])).insert [97,50] none).insert [98] none),1⟩
    let t := BoltStore.oneBucket (((SortedMap.empty.insert [97,49] [1]).insert [97,50] []).insert [98] []) 1
    let f (key _ : Bytes) (_ : Unit) : Unit × Bool := ((),key ≠ [97,50])
    (s.prefixScan 0 [97] (recorded f) ((),[])).1.2 = [([97,49],[1]),([97,50],[])] ∧
      (t.prefixScan 0 [97] (recorded f) ((),[])).1.2 = [([97,49],[1]),([97,50],[])] := by
  intro s t f
  obtain ⟨inmem,bolt⟩ := prefix_scans_call_alike_iff s t 0 rfl [97] f ()
  exact ⟨inmem,bolt.mpr (by decide)⟩

/-- The callback refuses the first of two pairs: the bolt file hands it the second as well. -/
theorem prefix_scan_goes_on_after_no :
    let s : InmemStore Nat := ⟨SortedMap.empty.insert 0 ((SortedMap.empty.insert [97,49] (some [1])).insert [97,50] (some [2])),2⟩
    let t := BoltStore.oneBucket ((SortedMap.empty.insert [97,49] [1]).insert [97,50] [2]) 2
    let f (_ _ : Bytes) (_ : Unit) : Unit × Bool := ((),false)
    s.contents 0 = t.contents 0 ∧ (s.prefixScan 0 [97] (recorded f) ((),[])).1.2 = [([97,49],[1])] ∧
      (t.prefixScan 0 [97] (recorded f) ((),[])).1.2 = [([97,49],[1]),([97,50],[2])] :=
  ⟨rfl,rfl,rfl⟩

/-! ### Scans of a range -/

section
variable {B σ E : Type} [LinearOrder B]

def InmemStore.scan (s : InmemStore B) (bucket : B) (op : Bytes → Bytes → σ → σ × Bool) (st : σ) : σ × Option StorageError :=
  match s.buckets.find? bucket with
  | none => (st,some .bucketNotFound)
  | some tree => (visitWhile (fun key (value : Option Bytes) => op key (value.getD [])) tree.entries st,none)

def BoltStore.scan (s : BoltStore B) (bucket : B) (f : Bytes → Bytes → σ → σ × Bool) (st : σ) : σ × Option StorageError :=
  match BoltStore.lookup s.bucketMap s.db bucket with
  | .error e => (st,some e)
  | .ok (_,contents) => (visitWhile f contents.entries st,none)

/-- The test of `UnsafeScan`; a nil bound is none. -/
def inBounds (start stop : Option Bytes) (key : Bytes) : Bool :=
  (start.all fun start => decide (start ≤ key)) && stop.all fun stop => decide (key < stop)

/-- The callback that `UnsafeScan` hands to `Scan`, with its variable `err`. -/
def rangeCallback (start stop : Option Bytes) (f : Bytes → Bytes → σ → σ × Option E) (key value : Bytes) (st : σ × Option E) :
    (σ × Option E) × Bool :=
  if inBounds start stop key then
    match f key value st.1 with
    | (s,some e) => ((s,some e),false)
    | (s,none) => ((s,none),true)
  else (st,true)

/-- `UnsafeScan failed: '%v' (inner error: '%v')` -/
structure ScanError (E : Type) where
  scanErr : Option StorageError
  err : Option E
deriving DecidableEq, Repr

/-- `UnsafeScan`, over the `Scan` of a store. -/
def unsafeScan (scan : (Bytes → Bytes → σ × Option E → (σ × Option E) × Bool) → σ × Option E → (σ × Option E) × Option StorageError)
    (start stop : Option Bytes) (f : Bytes → Bytes → σ → σ × Option E) (st : σ) : σ × Option (ScanError E) :=
  match scan (rangeCallback start stop f) (st,none) with
  | ((st,none),none) => (st,none)
  | ((st,err),scanErr) => (st,some ⟨scanErr,err⟩)

theorem InmemStore.scan_eq {s : InmemStore B} {bucket : B} {contents : SortedMap Bytes Bytes} (is : s.contents bucket = some contents)
    (op : Bytes → Bytes → σ → σ × Bool) (st : σ) : s.scan bucket op st = (visitWhile op contents.entries st,none) := by
  obtain ⟨tree,found,rfl⟩ := Option.map_eq_some_iff.mp is
  rw [scan,found]
  simp only
  rw [visitWhile_map op fun value : Option Bytes => value.getD []]
  rfl

theorem BoltStore.scan_eq {s : BoltStore B} {bucket : B} {contents : SortedMap Bytes Bytes} (is : s.contents bucket = some contents)
    (f : Bytes → Bytes → σ → σ × Bool) (st : σ) : s.scan bucket f st = (visitWhile f contents.entries st,none) := by
  rw [BoltStore.contents] at is
  rw [scan]
  cases looked : BoltStore.lookup s.bucketMap s.db bucket with
  | error e => simp [looked,Except.toOption] at is
  | ok found =>
    have same : found.2 = contents := by simpa [looked,Except.toOption] using is
    rw [← same]

theorem visitWhile_rangeCallback (start stop : Option Bytes) (f : Bytes → Bytes → σ → σ × Option E) (l : List (Bytes × Bytes)) (st : σ) :
    visitWhile (rangeCallback start stop f) l (st,none) =
      loopAll (fun e => f e.1 e.2) (l.filter fun e => inBounds start stop e.1) st := by
  induction l generalizing st with
  | nil => rfl
  | cons e rest ih =>
    obtain ⟨key,value⟩ := e
    rw [visitWhile,rangeCallback]
    by_cases inside : inBounds start stop key = true
    · rw [if_pos inside,List.filter_cons_of_pos (by simpa using inside),loopAll]
      rcases f key value st with ⟨st',_ | e⟩
      · exact ih st'
      · rfl
    · rw [if_neg inside,List.filter_cons_of_neg (by simpa using inside)]
      exact ih st

/-- A bucket with the given records, which are listed in the order in which they were written. -/
def Holds (contents : SortedMap Bytes Bytes) (records : List (KvBucketKey × Bytes)) : Prop :=
  records.Pairwise (fun r r' => r.1 < r'.1) ∧ (∀ r ∈ records, r.1.Storable) ∧
    ∀ key value, contents.find? key = some value ↔ ∃ r ∈ records, r.1.bytes = key ∧ r.2 = value

theorem Holds.entries_eq {contents : SortedMap Bytes Bytes} {records : List (KvBucketKey × Bytes)} (holds : Holds contents records) :
    contents.entries = records.map fun r => (r.1.bytes,r.2) := by
  obtain ⟨written,storable,exactly⟩ := holds
  have sorted : (records.map fun r => (r.1.bytes,r.2)).Pairwise fun a b => a.1 < b.1 :=
    List.pairwise_map.mpr (written.imp_of_mem fun here there less => ((storable _ here).bytes_lt_iff (storable _ there)).mpr less)
  have same : contents = ⟨records.map fun r => (r.1.bytes,r.2),sorted⟩ := by
    refine SortedMap.ext_find fun key => Option.ext fun value => ?_
    rw [exactly,← SortedMap.mem_entries]
    simp only [List.mem_map,Prod.mk.injEq]
  rw [same]

theorem inBounds_main_iff {k : KvBucketKey} (range : k.Storable) {a b : Int} (a_range : 0 ≤ a ∧ a < 2 ^ 63) (b_range : 0 ≤ b ∧ b < 2 ^ 63) :
    inBounds (some (KvBucketKey.encodeRevisionAsBucketKey ⟨a,0⟩).bytes) (some (KvBucketKey.encodeRevisionAsBucketKey ⟨b,0⟩).bytes) k.bytes =
      decide (a ≤ k.rev.main ∧ k.rev.main < b) := by
  have bound : ∀ c : Int, 0 ≤ c ∧ c < 2 ^ 63 →
      (k.bytes < (KvBucketKey.encodeRevisionAsBucketKey ⟨c,0⟩).bytes ↔ k.rev.main < c) := by
    intro c c_range
    have positive := range.sub_nonneg
    have two_pow_pos : (0 : Int) < 2 ^ 63 := by decide
    rw [range.bytes_lt_iff ⟨c_range.1,c_range.2,le_refl 0,two_pow_pos⟩,KvBucketKey.encodeRevisionAsBucketKey,
      KvBucketKey.lt_unmarked_iff,Revision.lt_iff]
    dsimp only
    omega
  simp only [inBounds,Option.all_some]
  rw [← Bool.decide_and,decide_eq_decide,bound b b_range,← not_lt,bound a a_range,not_lt]

end

/-- The keys of records are encoded without loss and in their order, so that a scan between two main revisions visits the records
    between them as they were written. -/
theorem bucket_keys_sort_like_revisions :
    (∀ k : KvBucketKey, k.Storable → encodeKvBucketKey k newRevBytes = some k.bytes ∧ decodeKvBucketKey k.bytes = some k) ∧
    (∀ k k' : KvBucketKey, k.Storable → k'.Storable → k ≠ k' → k.bytes ≠ k'.bytes) ∧
    (∀ k k' : KvBucketKey, k.Storable → k'.Storable → (k.bytes < k'.bytes ↔ k.rev.main < k'.rev.main ∨
      k.rev.main = k'.rev.main ∧ (k.rev.sub < k'.rev.sub ∨ k.rev.sub = k'.rev.sub ∧ k.tombstone = false ∧ k'.tombstone = true))) ∧
    ∀ (contents : SortedMap Bytes Bytes) (records : List (KvBucketKey × Bytes)), Holds contents records →
      ∀ a b : Int, 0 ≤ a ∧ a < 2 ^ 63 → 0 ≤ b ∧ b < 2 ^ 63 →
      ∀ (B σ E : Type) [LinearOrder B] (bucket : B) (f : Bytes → Bytes → σ → σ × Option E) (st : σ),
        let start := (KvBucketKey.encodeRevisionAsBucketKey ⟨a,0⟩).bytes
        let stop := (KvBucketKey.encodeRevisionAsBucketKey ⟨b,0⟩).bytes
        let visited := loopAll (fun r => f r.1.bytes r.2) (records.filter fun r => a ≤ r.1.rev.main ∧ r.1.rev.main < b) st
        let result : σ × Option (ScanError E) := (visited.1,visited.2.map fun e => ⟨none,some e⟩)
        (∀ s : InmemStore B, s.contents bucket = some contents → unsafeScan (s.scan bucket) (some start) (some stop) f st = result) ∧
          ∀ s : BoltStore B, s.contents bucket = some contents → unsafeScan (s.scan bucket) (some start) (some stop) f st = result := by
  refine ⟨fun k range => ⟨encodeKvBucketKey_fresh k,range.decode⟩,
    fun k k' range range' different same => different (range.bytes_inj range' same),fun k k' range range' => ?_,?_⟩
  · rw [range.bytes_lt_iff range', KvBucketKey.lt_iff, Revision.lt_iff, Bool.lt_iff, Revision.mk.injEq]
    grind
  · intro contents records holds a b a_range b_range B σ E _ bucket f st start stop visited result
    have runs : visitWhile (rangeCallback (some start) (some stop) f) contents.entries (st,none) = visited := by
      rw [visitWhile_rangeCallback, holds.entries_eq, List.filter_map, loopAll_map]
      refine congrArg (fun l => loopAll _ l st) (List.filter_congr fun r member => ?_)
      exact inBounds_main_iff (holds.2.1 r member) a_range b_range
    have ended : ∀ scan : (Bytes → Bytes → σ × Option E → (σ × Option E) × Bool) → σ × Option E → (σ × Option E) × Option StorageError,
        scan (rangeCallback (some start) (some stop) f) (st,none) = (visited,none) →
        unsafeScan scan (some start) (some stop) f st = result := by
      intro scan scanned
      rw [unsafeScan, scanned]
      change _ = (visited.1,visited.2.map _)
      rcases visited with ⟨st',_ | e⟩ <;> rfl
    constructor
    · intro s is
      exact ended _ (by rw [s.scan_eq is, runs])
    · intro s is
      exact ended _ (by rw [s.scan_eq is, runs])

/-- Four records of three revisions, of which a scan from the second to the third visits two. -/
theorem bucket_keys_sort_like_revisions_two_to_three :
    let k (main sub : Int) (mark : Bool) : KvBucketKey := ⟨⟨main,sub⟩,mark⟩
    let records : List (KvBucketKey × Bytes) := [(k 1 0 false,[1]),(k 2 0 true,[]),(k 2 1 false,[2]),(k 3 0 false,[3])]
    let t := BoltStore.oneBucket ⟨records.map fun r => (r.1.bytes,r.2),by decide⟩ 3
    unsafeScan (t.scan 0) (some (k 2 0 false).bytes) (some (k 3 0 false).bytes)
      (fun key value seen => (seen ++ [(key,value)],(none : Option Unit))) [] =
        ([((k 2 0 true).bytes,[]),((k 2 1 false).bytes,[2])],none) := by
  intro k records t
  have holds : Holds ⟨records.map fun r => (r.1.bytes,r.2),by decide⟩ records := by
    refine ⟨by decide,fun r member => ?_,fun key value => ?_⟩
    · have small : ∀ r ∈ records, 0 ≤ r.1.rev.main ∧ r.1.rev.main < 2 ^ 63 ∧ 0 ≤ r.1.rev.sub ∧ r.1.rev.sub < 2 ^ 63 := by decide
      obtain ⟨main,main',sub,sub'⟩ := small r member
      exact ⟨main,main',sub,sub'⟩
    · rw [← SortedMap.mem_entries]
      simp only [List.mem_map, Prod.mk.injEq]
  exact (bucket_keys_sort_like_revisions.2.2.2 _ records holds 2 3 (by decide) (by decide) Nat _ Unit 0 _ []).2 t rfl

end Kave
