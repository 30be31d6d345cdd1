import Kave.Revision
import Kave.SortedMap

/-! What a batch collects before it is committed. `WriteCollector` keeps one map of the keys to put and one of the keys to
    delete, bucket by bucket, and a later call takes back what an earlier one has recorded for its key. Laid over the
    contents of a store, deletes first and puts over them, the two maps give what the calls give one after another. -/

/-- The value of a key in a map of maps. -/
def SortedMap.at? {B C W : Type*} [LinearOrder B] [LinearOrder C] (m : SortedMap B (SortedMap C W)) (bucket : B) (key : C) :
    Option W :=
  (m.find? bucket).bind (·.find? key)

namespace SortedMap

variable {B C W : Type*} [LinearOrder B] [LinearOrder C] {m n : SortedMap B (SortedMap C W)}

theorem at_of_find {bucket : B} {inner : SortedMap C W} (found : m.find? bucket = some inner) (key : C) :
    m.at? bucket key = inner.find? key := by
  rw [at?,found]
  rfl

theorem isSome_find_of_at {bucket : B} {key : C} {value : W} (at_ : m.at? bucket key = some value) : (m.find? bucket).isSome := by
  obtain ⟨inner,found,-⟩ := Option.bind_eq_some_iff.mp at_
  rw [found]
  rfl

theorem at_insert (m : SortedMap B (SortedMap C W)) (bucket : B) (inner : SortedMap C W) (bucket' : B) (key : C) :
    (m.insert bucket inner).at? bucket' key = if bucket' = bucket then inner.find? key else m.at? bucket' key := by
  rw [at?,at?,find_insert]
  split <;> rfl

theorem isSome_find_update {bucket : B} (there : (m.find? bucket).isSome) (inner : SortedMap C W) (bucket' : B) :
    ((m.insert bucket inner).find? bucket').isSome = (m.find? bucket').isSome := by
  rw [find_insert]
  split
  next same => rw [same,there]; rfl
  next => rfl

theorem ext_at (buckets : ∀ bucket, (m.find? bucket).isSome = (n.find? bucket).isSome)
    (same : ∀ bucket key, m.at? bucket key = n.at? bucket key) : m = n := by
  refine ext_find fun bucket => ?_
  have there := buckets bucket
  have keys := same bucket
  simp only [at?] at keys
  cases foundM : m.find? bucket with
  | none =>
    cases foundN : n.find? bucket with
    | none => rfl
    | some inner => simp [foundM,foundN] at there
  | some inner =>
    cases foundN : n.find? bucket with
    | none => simp [foundM,foundN] at there
    | some inner' =>
      simp only [foundM,foundN,Option.bind_some] at keys
      rw [ext_find keys]

end SortedMap

namespace Kave

section
variable {B V W : Type} [LinearOrder B]

/-- The order in which the two nested loops over a map of maps run: all buckets and, of each, all keys, as they come. -/
structure Iteration (m : SortedMap B (SortedMap Bytes W)) where
  items : List (B × List (Bytes × W))
  buckets : (items.map (·.1)).Perm m.keys
  keys : ∀ item ∈ items, ∃ inner, m.find? item.1 = some inner ∧ item.2.Perm inner.entries

namespace Iteration

variable {m : SortedMap B (SortedMap Bytes W)}

/-- The order of the keys. -/
def sorted (m : SortedMap B (SortedMap Bytes W)) : Iteration m where
  items := m.entries.map fun e => (e.1,e.2.entries)
  buckets := by
    rw [List.map_map]
    exact .refl _
  keys := by
    intro item member
    obtain ⟨e,inside,rfl⟩ := List.mem_map.mp member
    exact ⟨e.2,SortedMap.mem_entries.mp inside,.refl _⟩

/-- The pairs that the inner loop meets, with their buckets. -/
def pairs (order : Iteration m) : List (B × Bytes × W) := order.items.flatMap fun item => item.2.map fun p => (item.1,p)

theorem mem_pairs (order : Iteration m) {bucket : B} {key : Bytes} {value : W} :
    (bucket,key,value) ∈ order.pairs ↔ m.at? bucket key = some value := by
  rw [pairs,List.mem_flatMap]
  constructor
  · rintro ⟨item,inItems,inside⟩
    obtain ⟨p,inKeys,same⟩ := List.mem_map.mp inside
    obtain ⟨inner,found,perm⟩ := order.keys item inItems
    cases same
    rw [SortedMap.at_of_find found]
    exact SortedMap.mem_entries.mp (perm.subset inKeys)
  · intro at_
    obtain ⟨inner,found,value_⟩ := Option.bind_eq_some_iff.mp at_
    have bucket_ : bucket ∈ order.items.map (·.1) := by
      rw [order.buckets.mem_iff,SortedMap.mem_keys,found]
      rfl
    obtain ⟨item,inItems,rfl⟩ := List.mem_map.mp bucket_
    obtain ⟨inner',found',perm⟩ := order.keys item inItems
    cases found.symm.trans found'
    exact ⟨item,inItems,List.mem_map.mpr ⟨(key,value),perm.mem_iff.mpr (SortedMap.mem_entries.mpr value_),rfl⟩⟩

/-- Loops that write each pair they meet leave the values of the map where it has one, in whatever order they run. -/
theorem view_foldl {σ : Type} {view : σ → B → Bytes → Option V} {write : σ → B × Bytes × W → σ} {value : W → Option V} {P : σ → Prop}
    (order : Iteration m) (writes : ∀ p ∈ order.pairs, ∀ s, P s → P (write s p) ∧ ∀ bucket key,
      view (write s p) bucket key = if bucket = p.1 ∧ key = p.2.1 then value p.2.2 else view s bucket key)
    {s : σ} (start : P s) (bucket : B) (key : Bytes) :
    view (order.pairs.foldl write s) bucket key = ((m.at? bucket key).map value).getD (view s bucket key) := by
  have general : ∀ (l : List (B × Bytes × W)) (s : σ), l ⊆ order.pairs → P s →
      (∀ w, (bucket,key,w) ∈ l → view (l.foldl write s) bucket key = value w) ∧
      ((∀ w, (bucket,key,w) ∉ l) → view (l.foldl write s) bucket key = view s bucket key) := by
    intro l
    induction l with
    | nil => exact fun s _ _ => ⟨fun w member => absurd member List.not_mem_nil,fun _ => rfl⟩
    | cons p rest ih =>
      intro s inside there
      obtain ⟨keeps,wrote⟩ := writes p (inside List.mem_cons_self) s there
      obtain ⟨found,absent⟩ := ih (write s p) (fun x member => inside (List.mem_cons_of_mem _ member)) keeps
      rw [List.foldl_cons]
      refine ⟨fun w member => ?_,fun nowhere => ?_⟩
      · by_cases later : ∃ w', (bucket,key,w') ∈ rest
        · obtain ⟨w',later⟩ := later
          -- the map has one value for the key
          have same : some w' = some w := by
            rw [← order.mem_pairs.mp (inside member),← order.mem_pairs.mp (inside (List.mem_cons_of_mem _ later))]
          rw [found w' later,Option.some.inj same]
        · have here : (bucket,key,w) = p := (List.mem_cons.mp member).resolve_right fun rest => later ⟨w,rest⟩
          subst here
          rw [absent fun w' member => later ⟨w',member⟩,wrote]
          simp
      · have other : ¬(bucket = p.1 ∧ key = p.2.1) := by
          rintro ⟨rfl,rfl⟩
          exact nowhere p.2.2 List.mem_cons_self
        rw [absent fun w member => nowhere w (List.mem_cons_of_mem _ member),wrote,if_neg other]
  obtain ⟨found,absent⟩ := general order.pairs s (List.Subset.refl _) start
  cases at_ : m.at? bucket key with
  | none =>
    refine absent fun w member => ?_
    rw [order.mem_pairs,at_] at member
    cases member
  | some w => exact found w (order.mem_pairs.mpr at_)

end Iteration

inductive BatchCall (B : Type)
  | put (bucket : B) (key : Bytes) (value : Option Bytes)
  | delete (bucket : B) (key : Bytes)
deriving DecidableEq, Repr

def BatchCall.bucket : BatchCall B → B
  | .put bucket _ _ | .delete bucket _ => bucket

def BatchCall.key : BatchCall B → Bytes
  | .put _ key _ | .delete _ key => key

end

/-- The writes of a batch; a value is `none` where the source has a nil slice. -/
structure WriteCollector (B : Type) [LinearOrder B] where
  puts : SortedMap B (SortedMap Bytes (Option Bytes))
  deletes : SortedMap B (SortedMap Bytes Unit)

namespace WriteCollector

variable {B W : Type} [LinearOrder B]

/-- `NewWriteCollector` -/
def new : WriteCollector B := ⟨SortedMap.empty,SortedMap.empty⟩

/-- An assignment, with a new map for the bucket if it has none. -/
def assign (m : SortedMap B (SortedMap Bytes W)) (bucket : B) (key : Bytes) (value : W) : SortedMap B (SortedMap Bytes W) :=
  m.insert bucket (((m.find? bucket).getD SortedMap.empty).insert key value)

/-- `delete` in the map of the bucket, if it has one. -/
def undo (m : SortedMap B (SortedMap Bytes W)) (bucket : B) (key : Bytes) : SortedMap B (SortedMap Bytes W) :=
  match m.find? bucket with
  | none => m
  | some keys => m.insert bucket (keys.erase key)

def recordPut (wc : WriteCollector B) (bucket : B) (key : Bytes) (value : Option Bytes) : WriteCollector B where
  puts := assign wc.puts bucket key value
  deletes := undo wc.deletes bucket key

def recordDelete (wc : WriteCollector B) (bucket : B) (key : Bytes) : WriteCollector B where
  deletes := assign wc.deletes bucket key ()
  puts := undo wc.puts bucket key

def record (wc : WriteCollector B) : BatchCall B → WriteCollector B
  | .put bucket key value => wc.recordPut bucket key value
  | .delete bucket key => wc.recordDelete bucket key

theorem at_assign (m : SortedMap B (SortedMap Bytes W)) (bucket : B) (key : Bytes) (value : W) (bucket' : B) (key' : Bytes) :
    (assign m bucket key value).at? bucket' key' = if bucket' = bucket ∧ key' = key then some value else m.at? bucket' key' := by
  rw [assign,SortedMap.at_insert]
  by_cases same : bucket' = bucket
  · subst same
    cases found : m.find? bucket' <;> simp [SortedMap.at?,found]
  · simp [same]

theorem at_undo (m : SortedMap B (SortedMap Bytes W)) (bucket : B) (key : Bytes) (bucket' : B) (key' : Bytes) :
    (undo m bucket key).at? bucket' key' = if bucket' = bucket ∧ key' = key then none else m.at? bucket' key' := by
  rw [undo]
  cases found : m.find? bucket with
  | none =>
    by_cases same : bucket' = bucket
    · subst same
      simp [SortedMap.at?,found]
    · simp [same]
  | some keys =>
    rw [SortedMap.at_insert]
    by_cases same : bucket' = bucket
    · subst same
      simp [SortedMap.at_of_find found]
    · simp [same]

theorem isSome_find_undo (m : SortedMap B (SortedMap Bytes W)) (bucket : B) (key : Bytes) (bucket' : B) :
    ((undo m bucket key).find? bucket').isSome = (m.find? bucket').isSome := by
  rw [undo]
  cases found : m.find? bucket with
  | none => rfl
  | some keys => exact SortedMap.isSome_find_update (by rw [found]; rfl) _ bucket'

theorem isSome_find_record {wc : WriteCollector B} {call : BatchCall B} {bucket : B}
    (present : ((wc.record call).puts.find? bucket).isSome ∨ ((wc.record call).deletes.find? bucket).isSome) :
    bucket = call.bucket ∨ (wc.puts.find? bucket).isSome ∨ (wc.deletes.find? bucket).isSome := by
  by_cases same : bucket = call.bucket
  · exact .inl same
  · refine .inr ?_
    cases call with
    | put bucket' key value =>
      simp only [BatchCall.bucket] at same
      simpa [record,recordPut,assign,same,isSome_find_undo] using present
    | delete bucket' key =>
      simp only [BatchCall.bucket] at same
      simpa [record,recordDelete,assign,same,isSome_find_undo] using present

/-- The contents under the collected deletes and, over these, the collected puts. -/
def overlay (wc : WriteCollector B) {V : Type} (store : Option Bytes → V) (contents : B → Bytes → Option V) (bucket : B) (key : Bytes) :
    Option V :=
  ((wc.puts.at? bucket key).map fun value => some (store value)).getD
    (((wc.deletes.at? bucket key).map fun _ => none).getD (contents bucket key))

/-- What a call does to contents; `store` is what a value becomes when it is stored. -/
def onContents {V : Type} (store : Option Bytes → V) (contents : B → Bytes → Option V) : BatchCall B → B → Bytes → Option V
  | .put bucket key value, bucket', key' => if bucket' = bucket ∧ key' = key then some (store value) else contents bucket' key'
  | .delete bucket key, bucket', key' => if bucket' = bucket ∧ key' = key then none else contents bucket' key'

theorem overlay_record {V : Type} (store : Option Bytes → V) (contents : B → Bytes → Option V) (wc : WriteCollector B) (call : BatchCall B) :
    (wc.record call).overlay store contents = onContents store (wc.overlay store contents) call := by
  funext bucket' key'
  cases call with
  | put bucket key value =>
    rw [record,recordPut,overlay,onContents,overlay,at_assign,at_undo]
    by_cases same : bucket' = bucket ∧ key' = key
    · rw [if_pos same,if_pos same,if_pos same]
      rfl
    · rw [if_neg same,if_neg same,if_neg same]
  | delete bucket key =>
    rw [record,recordDelete,overlay,onContents,overlay,at_assign,at_undo]
    by_cases same : bucket' = bucket ∧ key' = key
    · rw [if_pos same,if_pos same,if_pos same]
      rfl
    · rw [if_neg same,if_neg same,if_neg same]

/-- The collected calls give, over any contents, what the calls give one after another. -/
theorem overlay_calls {V : Type} (store : Option Bytes → V) (contents : B → Bytes → Option V) (calls : List (BatchCall B)) :
    (calls.foldl record new).overlay store contents = calls.foldl (onContents store) contents := by
  have general : ∀ (wc : WriteCollector B), (calls.foldl record wc).overlay store contents =
      calls.foldl (onContents store) (wc.overlay store contents) := by
    induction calls with
    | nil => exact fun _ => rfl
    | cons call rest ih =>
      intro wc
      rw [List.foldl_cons,List.foldl_cons,ih,overlay_record]
  have nothing : (new : WriteCollector B).overlay store contents = contents := by
    funext bucket key
    simp [overlay,new,SortedMap.at?]
  rw [general,nothing]

theorem buckets_called {calls : List (BatchCall B)} {P : B → Prop} (called : ∀ call ∈ calls, P call.bucket) (bucket : B) :
    (((calls.foldl record new).puts.find? bucket).isSome → P bucket) ∧
      (((calls.foldl record new).deletes.find? bucket).isSome → P bucket) := by
  have general : ∀ (calls : List (BatchCall B)) (wc : WriteCollector B),
      ((calls.foldl record wc).puts.find? bucket).isSome ∨ ((calls.foldl record wc).deletes.find? bucket).isSome →
      (∃ call ∈ calls, bucket = call.bucket) ∨ (wc.puts.find? bucket).isSome ∨ (wc.deletes.find? bucket).isSome := by
    intro calls
    induction calls with
    | nil => exact fun _ present => .inr present
    | cons call rest ih =>
      intro wc present
      rcases ih (wc.record call) present with ⟨call',member,is⟩ | earlier
      · exact .inl ⟨call',List.mem_cons_of_mem _ member,is⟩
      · rcases isSome_find_record earlier with is | old
        · exact .inl ⟨call,List.mem_cons_self,is⟩
        · exact .inr old
  have found : ((calls.foldl record new).puts.find? bucket).isSome ∨ ((calls.foldl record new).deletes.find? bucket).isSome →
      P bucket := by
    intro present
    rcases general calls new present with ⟨call,member,rfl⟩ | old
    · exact called call member
    · simp [new] at old
  exact ⟨fun present => found (.inl present),fun present => found (.inr present)⟩

end WriteCollector

end Kave
