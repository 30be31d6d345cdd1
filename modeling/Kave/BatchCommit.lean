import Kave.WriteCollector

/-! The commit of a batch, in memory and in a bolt file. Both run over the collected deletes and then over the collected
    puts, in whatever order the maps are iterated, and leave the contents that the calls of the batch leave one after
    another. A bolt bucket is taken as a map from bytes to bytes. -/

namespace Kave

inductive StorageError
  /-- `storage error: bucket not found` -/
  | bucketNotFound
  /-- `storage error: batch already closed` -/
  | batchClosed
  /-- `storage error: empty key inserted` -/
  | emptyKey
deriving DecidableEq, Repr

/-- A loop that returns with its first error. -/
def loopAll {α σ E : Type} (body : α → σ → σ × Option E) : List α → σ → σ × Option E
  | [], s => (s,none)
  | a :: rest, s =>
    match body a s with
    | (s,some e) => (s,some e)
    | (s,none) => loopAll body rest s

theorem loopAll_eq {α σ E : Type} {body : α → σ → σ × Option E} {next : σ → α → σ} {P : σ → Prop} {l : List α}
    (runs : ∀ a ∈ l, ∀ s, P s → body a s = (next s a,none) ∧ P (next s a)) {s : σ} (start : P s) :
    loopAll body l s = (l.foldl next s,none) ∧ P (l.foldl next s) := by
  induction l generalizing s with
  | nil => exact ⟨rfl,start⟩
  | cons a rest ih =>
    obtain ⟨ran,keeps⟩ := runs a List.mem_cons_self s start
    rw [loopAll,ran]
    exact ih (fun a' member => runs a' (List.mem_cons_of_mem _ member)) keeps

/-- A batch over a store. -/
structure Batch (B S : Type) [LinearOrder B] where
  inner : S
  closed : Bool
  wc : WriteCollector B

namespace Batch

variable {B S : Type} [LinearOrder B]

/-- `newBatch` -/
def new (s : S) : Batch B S := ⟨s,false,WriteCollector.new⟩

/-- `Put` and `Delete`, of either batch -/
def call (b : Batch B S) (c : BatchCall B) : Batch B S × Option StorageError :=
  if b.closed then (b,some .batchClosed)
  else if c.key = [] then (b,some .emptyKey)
  else ({ b with wc := b.wc.record c },none)

theorem calls_eq {calls : List (BatchCall B)} (named : ∀ call ∈ calls, call.key ≠ []) (b : Batch B S) (opened : b.closed = false) :
    calls.foldl (fun b call => (b.call call).1) b = { b with wc := calls.foldl WriteCollector.record b.wc } := by
  induction calls generalizing b with
  | nil => rfl
  | cons call rest ih =>
    have recorded : (b.call call).1 = { b with wc := b.wc.record call } := by
      rw [Batch.call,if_neg (by simp [opened]),if_neg (named call List.mem_cons_self)]
    rw [List.foldl_cons,recorded]
    exact ih (fun c member => named c (List.mem_cons_of_mem _ member)) { b with wc := b.wc.record call } opened

end Batch

structure CommitInfo where
  newKeys : Nat
  deletedKeys : Nat
deriving DecidableEq, Repr

/-- What a running commit has done: the contents, the difference in size and the counts. -/
structure Progress (C : Type) where
  contents : C
  totalDelta : Int
  info : CommitInfo

section
variable {B W : Type} [LinearOrder B]

/-- The two nested loops of a commit over one of the maps. -/
def Iteration.run {m : SortedMap B (SortedMap Bytes W)} {σ E : Type} (order : Iteration m) (enter : B → σ → Option E)
    (body : B → Bytes → W → σ → σ × Option E) : σ → σ × Option E :=
  loopAll (fun item s =>
    match enter item.1 s with
    | some e => (s,some e)
    | none => loopAll (fun p s => body item.1 p.1 p.2 s) item.2 s) order.items

theorem Iteration.run_spec {V : Type} {m : SortedMap B (SortedMap Bytes W)} {σ E : Type} (order : Iteration m) (enter : B → σ → Option E)
    (body : B → Bytes → W → σ → σ × Option E) (view : σ → B → Bytes → Option V) (value : W → Option V) (P : σ → Prop)
    (enters : ∀ bucket, (m.find? bucket).isSome → ∀ s, P s → enter bucket s = none)
    (runs : ∀ bucket key w, m.at? bucket key = some w → ∀ s, P s → ∃ s', body bucket key w s = (s',none) ∧ P s' ∧
      ∀ bucket' key', view s' bucket' key' = if bucket' = bucket ∧ key' = key then value w else view s bucket' key')
    {s : σ} (start : P s) :
    ∃ s', order.run enter body s = (s',none) ∧ P s' ∧
      ∀ bucket key, view s' bucket key = ((m.at? bucket key).map value).getD (view s bucket key) := by
  let next : σ → B × Bytes × W → σ := fun s p => (body p.1 p.2.1 p.2.2 s).1
  have step : ∀ bucket key w, m.at? bucket key = some w → ∀ s, P s →
      body bucket key w s = (next s (bucket,key,w),none) ∧ P (next s (bucket,key,w)) := by
    intro bucket key w at_ s there
    obtain ⟨s',ran,keeps,-⟩ := runs bucket key w at_ s there
    have is : next s (bucket,key,w) = s' := by simp only [next,ran]
    rw [ran,is]
    exact ⟨rfl,keeps⟩
  have ran : order.run enter body s = (order.pairs.foldl next s,none) ∧ P (order.pairs.foldl next s) := by
    have flat : order.pairs.foldl next s = order.items.foldl (fun s item => item.2.foldl (fun s p => next s (item.1,p)) s) s := by
      rw [Iteration.pairs,List.foldl_flatMap]
      simp only [List.foldl_map]
    rw [flat]
    refine loopAll_eq (fun item member s there => ?_) start
    obtain ⟨inner,found,perm⟩ := order.keys item member
    simp only [enters item.1 (by rw [found]; rfl) s there]
    refine loopAll_eq (fun p inside s there => step item.1 p.1 p.2 ?_ s there) there
    rw [SortedMap.at_of_find found]
    exact SortedMap.mem_entries.mp (perm.subset inside)
  refine ⟨_,ran.1,ran.2,order.view_foldl (fun p member s there => ?_) start⟩
  obtain ⟨s',ended,keeps,wrote⟩ := runs p.1 p.2.1 p.2.2 (order.mem_pairs.mp member) s there
  have is : next s p = s' := by simp only [next,ended]
  rw [is]
  exact ⟨keeps,wrote⟩

end

/-! ### In memory -/

/-- The trees of the buckets, and `sz`. -/
structure InmemStore (B : Type) [LinearOrder B] where
  buckets : SortedMap B (SortedMap Bytes (Option Bytes))
  sz : Int

namespace InmemStore

variable {B : Type} [LinearOrder B]

abbrev Trees (B : Type) [LinearOrder B] := SortedMap B (SortedMap Bytes (Option Bytes))

/-- `unsafePut`: the trees after it and the old value, nil if there is none. -/
def unsafePut (buckets : Trees B) (bucket : B) (key : Bytes) (value : Option Bytes) : Except StorageError (Trees B × Option Bytes) :=
  if key = [] then .error .emptyKey
  else match buckets.find? bucket with
    | none => .error .bucketNotFound
    | some tree => .ok (buckets.insert bucket (tree.insert key value),(tree.find? key).join)

def unsafeDelete (buckets : Trees B) (bucket : B) (key : Bytes) : Except StorageError (Trees B × Option Bytes) :=
  match buckets.find? bucket with
  | none => .error .bucketNotFound
  | some tree => .ok (buckets.insert bucket (tree.erase key),(tree.find? key).join)

/-- `Put` and `Delete` of the store itself. -/
def apply (s : InmemStore B) : BatchCall B → InmemStore B × Except StorageError (Option Bytes)
  | .put bucket key value =>
    match unsafePut s.buckets bucket key value with
    | .error e => (s,.error e)
    | .ok (buckets,old) => ({ s with buckets := buckets },.ok old)
  | .delete bucket key =>
    match unsafeDelete s.buckets bucket key with
    | .error e => (s,.error e)
    | .ok (buckets,old) => ({ s with buckets := buckets },.ok old)

/-- The buckets are those of `start`, and the keys are written as `contents` has them. -/
def Wrote (start trees : Trees B) (contents : B → Bytes → Option (Option Bytes)) : Prop :=
  (∀ bucket, (trees.find? bucket).isSome = (start.find? bucket).isSome) ∧ ∀ bucket key, trees.at? bucket key = contents bucket key

theorem unsafePut_spec {buckets : Trees B} {bucket : B} (there : (buckets.find? bucket).isSome) {key : Bytes} (named : key ≠ [])
    (value : Option Bytes) : ∃ trees old, unsafePut buckets bucket key value = .ok (trees,old) ∧
      Wrote buckets trees (WriteCollector.onContents id buckets.at? (.put bucket key value)) := by
  obtain ⟨tree,found⟩ := Option.isSome_iff_exists.mp there
  refine ⟨_,_,by rw [unsafePut,if_neg named,found],SortedMap.isSome_find_update there _,fun bucket' key' => ?_⟩
  rw [SortedMap.at_insert,WriteCollector.onContents]
  by_cases same : bucket' = bucket
  · subst same
    simp [SortedMap.at_of_find found]
  · simp [same]

theorem unsafeDelete_spec {buckets : Trees B} {bucket : B} (there : (buckets.find? bucket).isSome) (key : Bytes) :
    ∃ trees old, unsafeDelete buckets bucket key = .ok (trees,old) ∧
      Wrote buckets trees (WriteCollector.onContents id buckets.at? (.delete bucket key)) := by
  obtain ⟨tree,found⟩ := Option.isSome_iff_exists.mp there
  refine ⟨_,_,by rw [unsafeDelete,found],SortedMap.isSome_find_update there _,fun bucket' key' => ?_⟩
  rw [SortedMap.at_insert,WriteCollector.onContents]
  by_cases same : bucket' = bucket
  · subst same
    simp [SortedMap.at_of_find found]
  · simp [same]

theorem apply_spec {s : InmemStore B} {call : BatchCall B} (there : (s.buckets.find? call.bucket).isSome) (named : call.key ≠ []) :
    Wrote s.buckets (s.apply call).1.buckets (WriteCollector.onContents id s.buckets.at? call) := by
  cases call with
  | put bucket key value =>
    simp only [BatchCall.bucket,BatchCall.key] at there named
    obtain ⟨trees,old,ran,wrote⟩ := unsafePut_spec there named value
    rw [apply,ran]
    exact wrote
  | delete bucket key =>
    simp only [BatchCall.bucket] at there
    obtain ⟨trees,old,ran,wrote⟩ := unsafeDelete_spec there key
    rw [apply,ran]
    exact wrote

theorem apply_all {calls : List (BatchCall B)} (named : ∀ call ∈ calls, call.key ≠ []) {s : InmemStore B}
    (there : ∀ call ∈ calls, (s.buckets.find? call.bucket).isSome) :
    Wrote s.buckets (calls.foldl (fun s call => (s.apply call).1) s).buckets
      (calls.foldl (WriteCollector.onContents id) s.buckets.at?) := by
  induction calls generalizing s with
  | nil => exact ⟨fun _ => rfl,fun _ _ => rfl⟩
  | cons call rest ih =>
    obtain ⟨buckets,keys⟩ := apply_spec (there call List.mem_cons_self) (named call List.mem_cons_self)
    have keys : (s.apply call).1.buckets.at? = WriteCollector.onContents id s.buckets.at? call := funext fun b => funext (keys b)
    obtain ⟨buckets',keys'⟩ := ih (fun c member => named c (List.mem_cons_of_mem _ member)) fun c member => by
      rw [buckets]
      exact there c (List.mem_cons_of_mem _ member)
    rw [keys] at keys'
    exact ⟨fun b => (buckets' b).trans (buckets b),keys'⟩

end InmemStore

abbrev InmemBatch (B : Type) [LinearOrder B] := Batch B (InmemStore B)

namespace InmemBatch

variable {B : Type} [LinearOrder B]

/-- The body of the loop over the deletes. -/
def commitDelete (bucket : B) (key : Bytes) (_ : Unit) (p : Progress (InmemStore.Trees B)) :
    Progress (InmemStore.Trees B) × Option StorageError :=
  match InmemStore.unsafeDelete p.contents bucket key with
  | .error e => (p,some e)
  | .ok (trees,none) => ({ p with contents := trees },none)
  | .ok (trees,some old) => (⟨trees,p.totalDelta - old.length,{ p.info with deletedKeys := p.info.deletedKeys + 1 }⟩,none)

/-- The body of the loop over the puts. -/
def commitPut (bucket : B) (key : Bytes) (value : Option Bytes) (p : Progress (InmemStore.Trees B)) :
    Progress (InmemStore.Trees B) × Option StorageError :=
  let size : Int := (value.getD []).length
  match InmemStore.unsafePut p.contents bucket key value with
  | .error e => (p,some e)
  | .ok (trees,none) => (⟨trees,p.totalDelta + size,{ p.info with newKeys := p.info.newKeys + 1 }⟩,none)
  | .ok (trees,some old) => ({ p with contents := trees, totalDelta := p.totalDelta + (old.length - size) },none)

/-- `Commit`: the batch after it, with the store it has written to. An error leaves what has been written until then. -/
def commit (b : InmemBatch B) (deletes : Iteration b.wc.deletes) (puts : Iteration b.wc.puts) :
    InmemBatch B × Except StorageError CommitInfo :=
  if b.closed then (b,.error .batchClosed)
  else
    match deletes.run (fun _ _ => none) commitDelete ⟨b.inner.buckets,0,⟨0,0⟩⟩ with
    | (p,some e) => ({ b with inner := { b.inner with buckets := p.contents }, closed := true },.error e)
    | (p,none) =>
      match puts.run (fun _ _ => none) commitPut p with
      | (p,some e) => ({ b with inner := { b.inner with buckets := p.contents }, closed := true },.error e)
      | (p,none) => ({ b with inner := ⟨p.contents,b.inner.sz + p.totalDelta⟩, closed := true },.ok p.info)

theorem commitDelete_spec {p : Progress (InmemStore.Trees B)} {bucket : B} (there : (p.contents.find? bucket).isSome) (key : Bytes) :
    ∃ p', commitDelete bucket key () p = (p',none) ∧
      InmemStore.Wrote p.contents p'.contents (WriteCollector.onContents id p.contents.at? (.delete bucket key)) := by
  obtain ⟨trees,old,ran,wrote⟩ := InmemStore.unsafeDelete_spec there key
  cases old with
  | none => exact ⟨_,by rw [commitDelete,ran],wrote⟩
  | some old => exact ⟨_,by rw [commitDelete,ran],wrote⟩

theorem commitPut_spec {p : Progress (InmemStore.Trees B)} {bucket : B} (there : (p.contents.find? bucket).isSome) {key : Bytes}
    (named : key ≠ []) (value : Option Bytes) : ∃ p', commitPut bucket key value p = (p',none) ∧
      InmemStore.Wrote p.contents p'.contents (WriteCollector.onContents id p.contents.at? (.put bucket key value)) := by
  obtain ⟨trees,old,ran,wrote⟩ := InmemStore.unsafePut_spec there named value
  cases old with
  | none => exact ⟨_,by rw [commitPut,ran],wrote⟩
  | some old => exact ⟨_,by rw [commitPut,ran],wrote⟩

theorem commit_spec {b : InmemBatch B} (opened : b.closed = false)
    (deleted : ∀ bucket, (b.wc.deletes.find? bucket).isSome → (b.inner.buckets.find? bucket).isSome)
    (put : ∀ bucket, (b.wc.puts.find? bucket).isSome → (b.inner.buckets.find? bucket).isSome)
    (named : ∀ bucket key value, b.wc.puts.at? bucket key = some value → key ≠ []) (deletes : Iteration b.wc.deletes)
    (puts : Iteration b.wc.puts) : ∃ info, (b.commit deletes puts).2 = .ok info ∧
      InmemStore.Wrote b.inner.buckets (b.commit deletes puts).1.inner.buckets (b.wc.overlay id b.inner.buckets.at?) := by
  let same (p : Progress (InmemStore.Trees B)) : Prop :=
    ∀ bucket, (p.contents.find? bucket).isSome = (b.inner.buckets.find? bucket).isSome
  obtain ⟨p,ran,kept,wrote⟩ := deletes.run_spec (fun _ _ => none) commitDelete (fun p => p.contents.at?) (fun _ => none) same
    (s := ⟨b.inner.buckets,0,⟨0,0⟩⟩) (fun _ _ _ _ => rfl)
    (fun bucket key _ at_ p same => by
      obtain ⟨p',ran,buckets,keys⟩ := commitDelete_spec (by rw [same]; exact deleted bucket (SortedMap.isSome_find_of_at at_)) key
      exact ⟨p',ran,fun b' => (buckets b').trans (same b'),keys⟩)
    fun _ => rfl
  obtain ⟨p',ran',kept',wrote'⟩ := puts.run_spec (fun _ _ => none) commitPut (fun p => p.contents.at?) (fun value => some value) same
    (fun _ _ _ _ => rfl)
    (fun bucket key value at_ p same => by
      obtain ⟨p',ran,buckets,keys⟩ :=
        commitPut_spec (by rw [same]; exact put bucket (SortedMap.isSome_find_of_at at_)) (named bucket key value at_) value
      exact ⟨p',ran,fun b' => (buckets b').trans (same b'),keys⟩)
    kept
  have committed : b.commit deletes puts =
      ({ b with inner := ⟨p'.contents,b.inner.sz + p'.totalDelta⟩, closed := true },.ok p'.info) := by
    rw [commit,if_neg (by simp [opened]),ran]
    simp only
    rw [ran']
  rw [committed]
  refine ⟨_,rfl,kept',fun bucket key => ?_⟩
  rw [wrote',wrote]
  rfl

end InmemBatch

/-! ### In a bolt file -/

/-- The buckets of a bolt file by their names, and the names of the buckets of the store. -/
structure BoltStore (B : Type) [LinearOrder B] where
  db : SortedMap Bytes (SortedMap Bytes Bytes)
  sz : Int
  bucketMap : SortedMap B Bytes
  -- the name of a bucket is its own bytes
  named : ∀ b b' name, bucketMap.find? b = some name → bucketMap.find? b' = some name → b = b'

namespace BoltStore

variable {B : Type} [LinearOrder B]

abbrev Files := SortedMap Bytes (SortedMap Bytes Bytes)

/-- The name of a bucket that is in the file, with its contents. -/
def lookup (bucketMap : SortedMap B Bytes) (tx : Files) (bucket : B) : Except StorageError (Bytes × SortedMap Bytes Bytes) :=
  match bucketMap.find? bucket with
  | none => .error .bucketNotFound
  | some name =>
    match tx.find? name with
    | none => .error .bucketNotFound
    | some contents => .ok (name,contents)

/-- `Put` and `Delete` of the store itself, each a transaction of its own. -/
def apply (s : BoltStore B) : BatchCall B → BoltStore B × Except StorageError (Option Bytes)
  | .put bucket key value =>
    if key = [] then (s,.error .emptyKey)
    else match lookup s.bucketMap s.db bucket with
      | .error e => (s,.error e)
      | .ok (name,contents) => ({ s with db := s.db.insert name (contents.insert key (value.getD [])) },.ok (contents.find? key))
  | .delete bucket key =>
    match lookup s.bucketMap s.db bucket with
    | .error e => (s,.error e)
    | .ok (name,contents) => ({ s with db := s.db.insert name (contents.erase key) },.ok (contents.find? key))

/-- A file with one bucket, for the bucket 0 of the store. -/
def oneBucket (contents : SortedMap Bytes Bytes) (sz : Int) : BoltStore Nat where
  db := SortedMap.empty.insert [107] contents
  sz := sz
  bucketMap := SortedMap.empty.insert 0 [107]
  named b b' name is is' := by
    simp only [SortedMap.find_insert, SortedMap.find_empty] at is is'
    grind

/-- The value of a key in a bucket of the store. -/
def view (bucketMap : SortedMap B Bytes) (files : Files) (bucket : B) (key : Bytes) : Option Bytes :=
  (bucketMap.find? bucket).bind fun name => files.at? name key

def Has (bucketMap : SortedMap B Bytes) (files : Files) (bucket : B) : Prop :=
  ∃ name, bucketMap.find? bucket = some name ∧ (files.find? name).isSome

/-- The bolt buckets are those of `start`, the ones of the store are written as `contents` has them and the others are not. -/
structure Wrote (bucketMap : SortedMap B Bytes) (start files : Files) (contents : B → Bytes → Option Bytes) : Prop where
  names : ∀ name, (files.find? name).isSome = (start.find? name).isSome
  foreign : ∀ name, (∀ bucket, bucketMap.find? bucket ≠ some name) → files.find? name = start.find? name
  keys : ∀ bucket key, view bucketMap files bucket key = contents bucket key

section
variable {bucketMap : SortedMap B Bytes} {start files files' : Files} {contents contents' : B → Bytes → Option Bytes}

theorem Wrote.trans (first : Wrote bucketMap start files contents) (second : Wrote bucketMap files files' contents') :
    Wrote bucketMap start files' contents' where
  names name := (second.names name).trans (first.names name)
  foreign name other := (second.foreign name other).trans (first.foreign name other)
  keys := second.keys

theorem Wrote.has (wrote : Wrote bucketMap start files contents) {bucket : B} (there : Has bucketMap start bucket) :
    Has bucketMap files bucket := by
  obtain ⟨name,is,found⟩ := there
  exact ⟨name,is,by rw [wrote.names]; exact found⟩

theorem Wrote.eq (first : Wrote bucketMap start files contents) (second : Wrote bucketMap start files' contents) : files = files' := by
  refine SortedMap.ext_find fun name => ?_
  by_cases own : ∃ bucket, bucketMap.find? bucket = some name
  · obtain ⟨bucket,is⟩ := own
    have there := (first.names name).trans (second.names name).symm
    have keys : ∀ key, files.at? name key = files'.at? name key := by
      intro key
      have same := (first.keys bucket key).trans (second.keys bucket key).symm
      rw [view,view,is] at same
      exact same
    cases found : files.find? name with
    | none =>
      rw [found,Option.isSome_none] at there
      exact (Option.isSome_eq_false_iff.mp there.symm |> Option.isNone_iff_eq_none.mp).symm
    | some inner =>
      rw [found] at there
      obtain ⟨inner',found'⟩ := Option.isSome_iff_exists.mp there.symm
      rw [found',SortedMap.ext_find (m := inner) (n := inner') fun key => ?_]
      have same := keys key
      rwa [SortedMap.at_of_find found, SortedMap.at_of_find found'] at same
  · simp only [not_exists] at own
    rw [first.foreign name own,second.foreign name own]

theorem lookup_of {bucket : B} (there : Has bucketMap files bucket) : ∃ name inner, bucketMap.find? bucket = some name ∧
    files.find? name = some inner ∧ lookup bucketMap files bucket = .ok (name,inner) := by
  obtain ⟨name,is,there⟩ := there
  obtain ⟨inner,found⟩ := Option.isSome_iff_exists.mp there
  exact ⟨name,inner,is,found,by rw [lookup,is]; simp only [found]⟩

theorem wrote_update (named : ∀ b b' name, bucketMap.find? b = some name → bucketMap.find? b' = some name → b = b') {bucket : B}
    {name : Bytes} (is : bucketMap.find? bucket = some name) {inner : SortedMap Bytes Bytes} (found : files.find? name = some inner)
    (inner' : SortedMap Bytes Bytes) (key : Bytes) (value : Option Bytes)
    (changed : ∀ key', inner'.find? key' = if key' = key then value else inner.find? key') :
    Wrote bucketMap files (files.insert name inner') fun bucket' key' =>
      if bucket' = bucket ∧ key' = key then value else view bucketMap files bucket' key' where
  names := SortedMap.isSome_find_update (by rw [found]; rfl) inner'
  foreign name' other := by
    have different : name' ≠ name := fun same => other bucket (by rw [same]; exact is)
    rw [SortedMap.find_insert,if_neg different]
  keys bucket' key' := by
    by_cases same : bucket' = bucket
    · subst same
      rw [view,view,is,Option.bind_some,Option.bind_some,SortedMap.at_insert,if_pos rfl,changed,SortedMap.at_of_find found]
      simp
    · rw [if_neg fun both => same both.1,view,view]
      cases is' : bucketMap.find? bucket' with
      | none => rfl
      | some name' =>
        have different : name' ≠ name := by
          rintro rfl
          exact same (named _ _ _ is' is)
        rw [Option.bind_some,Option.bind_some,SortedMap.at_insert,if_neg different]

end

/-- The value that bolt keeps of a slice. -/
def stored (value : Option Bytes) : Bytes := value.getD []

theorem apply_spec {s : BoltStore B} {call : BatchCall B} (there : Has s.bucketMap s.db call.bucket) (named : call.key ≠ []) :
    (s.apply call).1.bucketMap = s.bucketMap ∧
      Wrote s.bucketMap s.db (s.apply call).1.db (WriteCollector.onContents stored (view s.bucketMap s.db) call) := by
  obtain ⟨name,inner,is,found,looked⟩ := lookup_of there
  cases call with
  | put bucket key value =>
    simp only [BatchCall.bucket,BatchCall.key] at is named looked
    simp only [apply,if_neg named,looked,true_and]
    exact wrote_update s.named is found _ _ _ fun key' => by simp [stored]
  | delete bucket key =>
    simp only [BatchCall.bucket] at is looked
    simp only [apply,looked,true_and]
    exact wrote_update s.named is found _ _ _ fun key' => by simp

theorem apply_all {calls : List (BatchCall B)} (named : ∀ call ∈ calls, call.key ≠ []) {s : BoltStore B}
    (there : ∀ call ∈ calls, Has s.bucketMap s.db call.bucket) :
    Wrote s.bucketMap s.db (calls.foldl (fun s call => (s.apply call).1) s).db
      (calls.foldl (WriteCollector.onContents stored) (view s.bucketMap s.db)) := by
  induction calls generalizing s with
  | nil => exact ⟨fun _ => rfl,fun _ _ => rfl,fun _ _ => rfl⟩
  | cons call rest ih =>
    obtain ⟨map,wrote⟩ := apply_spec (there call List.mem_cons_self) (named call List.mem_cons_self)
    have later := ih (s := (s.apply call).1) (fun c member => named c (List.mem_cons_of_mem _ member)) fun c member => by
      rw [map]
      exact wrote.has (there c (List.mem_cons_of_mem _ member))
    have keys : view s.bucketMap (s.apply call).1.db = WriteCollector.onContents stored (view s.bucketMap s.db) call :=
      funext fun b => funext (wrote.keys b)
    rw [map,keys] at later
    exact wrote.trans later

end BoltStore

/-- A batch with its open transaction; the file is as it was when the transaction was begun. -/
abbrev DurableBatch (B : Type) [LinearOrder B] := Batch B (BoltStore B)

namespace DurableBatch

variable {B : Type} [LinearOrder B]

/-- The test of a bucket before the loop over its keys. -/
def enter (bucketMap : SortedMap B Bytes) (bucket : B) (p : Progress BoltStore.Files) : Option StorageError :=
  match BoltStore.lookup bucketMap p.contents bucket with
  | .error e => some e
  | .ok _ => none

/-- The body of the loop over the deletes. -/
def commitDelete (bucketMap : SortedMap B Bytes) (bucket : B) (key : Bytes) (_ : Unit) (p : Progress BoltStore.Files) :
    Progress BoltStore.Files × Option StorageError :=
  match BoltStore.lookup bucketMap p.contents bucket with
  | .error e => (p,some e)
  | .ok (name,contents) =>
    if key = [] then (p,some .emptyKey)
    else
      let files := p.contents.insert name (contents.erase key)
      match contents.find? key with
      | none => ({ p with contents := files },none)
      | some old => (⟨files,p.totalDelta - old.length,{ p.info with deletedKeys := p.info.deletedKeys + 1 }⟩,none)

/-- The body of the loop over the puts. -/
def commitPut (bucketMap : SortedMap B Bytes) (bucket : B) (key : Bytes) (value : Option Bytes) (p : Progress BoltStore.Files) :
    Progress BoltStore.Files × Option StorageError :=
  match BoltStore.lookup bucketMap p.contents bucket with
  | .error e => (p,some e)
  | .ok (name,contents) =>
    if key = [] then (p,some .emptyKey)
    else
      let size : Int := (value.getD []).length
      let files := p.contents.insert name (contents.insert key (value.getD []))
      match contents.find? key with
      | none => (⟨files,p.totalDelta + size,{ p.info with newKeys := p.info.newKeys + 1 }⟩,none)
      | some old => ({ p with contents := files, totalDelta := p.totalDelta + (old.length - size) },none)

/-- `Commit`: the file changes with the commit of the transaction only. -/
def commit (b : DurableBatch B) (deletes : Iteration b.wc.deletes) (puts : Iteration b.wc.puts) :
    DurableBatch B × Except StorageError CommitInfo :=
  if b.closed then (b,.error .batchClosed)
  else
    match deletes.run (enter b.inner.bucketMap) (commitDelete b.inner.bucketMap) ⟨b.inner.db,0,⟨0,0⟩⟩ with
    | (_,some e) => ({ b with closed := true },.error e)
    | (p,none) =>
      match puts.run (enter b.inner.bucketMap) (commitPut b.inner.bucketMap) p with
      | (_,some e) => ({ b with closed := true },.error e)
      | (p,none) => ({ b with inner := { b.inner with db := p.contents, sz := b.inner.sz + p.totalDelta }, closed := true },.ok p.info)

section
variable {bucketMap : SortedMap B Bytes} (named : ∀ b b' name, bucketMap.find? b = some name → bucketMap.find? b' = some name → b = b')
include named

theorem commitDelete_spec {p : Progress BoltStore.Files} {bucket : B} (there : BoltStore.Has bucketMap p.contents bucket) {key : Bytes}
    (nonempty : key ≠ []) : ∃ p', commitDelete bucketMap bucket key () p = (p',none) ∧ BoltStore.Wrote bucketMap p.contents p'.contents
      (WriteCollector.onContents BoltStore.stored (BoltStore.view bucketMap p.contents) (.delete bucket key)) := by
  obtain ⟨name,inner,is,found,looked⟩ := BoltStore.lookup_of there
  have wrote := BoltStore.wrote_update named is found (inner.erase key) key none fun key' => by simp
  cases old : inner.find? key with
  | none => exact ⟨_,by simp only [commitDelete,looked,if_neg nonempty,old]; rfl,wrote⟩
  | some bytes => exact ⟨_,by simp only [commitDelete,looked,if_neg nonempty,old]; rfl,wrote⟩

theorem commitPut_spec {p : Progress BoltStore.Files} {bucket : B} (there : BoltStore.Has bucketMap p.contents bucket) {key : Bytes}
    (nonempty : key ≠ []) (value : Option Bytes) : ∃ p', commitPut bucketMap bucket key value p = (p',none) ∧
      BoltStore.Wrote bucketMap p.contents p'.contents
        (WriteCollector.onContents BoltStore.stored (BoltStore.view bucketMap p.contents) (.put bucket key value)) := by
  obtain ⟨name,inner,is,found,looked⟩ := BoltStore.lookup_of there
  have wrote := BoltStore.wrote_update named is found (inner.insert key (value.getD [])) key (some (value.getD [])) fun key' => by simp
  cases old : inner.find? key with
  | none => exact ⟨_,by simp only [commitPut,looked,if_neg nonempty,old]; rfl,wrote⟩
  | some bytes => exact ⟨_,by simp only [commitPut,looked,if_neg nonempty,old]; rfl,wrote⟩

end

theorem commit_spec {b : DurableBatch B} (opened : b.closed = false)
    (deleted : ∀ bucket, (b.wc.deletes.find? bucket).isSome → BoltStore.Has b.inner.bucketMap b.inner.db bucket)
    (put : ∀ bucket, (b.wc.puts.find? bucket).isSome → BoltStore.Has b.inner.bucketMap b.inner.db bucket)
    (keyed : ∀ bucket key, b.wc.deletes.at? bucket key = some () → key ≠ [])
    (keyed' : ∀ bucket key value, b.wc.puts.at? bucket key = some value → key ≠ []) (deletes : Iteration b.wc.deletes)
    (puts : Iteration b.wc.puts) : ∃ info, (b.commit deletes puts).2 = .ok info ∧
      BoltStore.Wrote b.inner.bucketMap b.inner.db (b.commit deletes puts).1.inner.db
        (b.wc.overlay BoltStore.stored (BoltStore.view b.inner.bucketMap b.inner.db)) := by
  let kept (p : Progress BoltStore.Files) : Prop :=
    BoltStore.Wrote b.inner.bucketMap b.inner.db p.contents (BoltStore.view b.inner.bucketMap p.contents)
  have enters : ∀ (p : Progress BoltStore.Files) (bucket : B), kept p → BoltStore.Has b.inner.bucketMap b.inner.db bucket →
      enter b.inner.bucketMap bucket p = none := by
    intro p bucket keeps there
    obtain ⟨name,inner,-,-,looked⟩ := BoltStore.lookup_of (keeps.has there)
    rw [enter,looked]
  obtain ⟨p,ran,keeps,wrote⟩ := deletes.run_spec (enter b.inner.bucketMap) (commitDelete b.inner.bucketMap)
    (fun p => BoltStore.view b.inner.bucketMap p.contents) (fun _ => none) kept (s := ⟨b.inner.db,0,⟨0,0⟩⟩)
    (fun bucket present p keeps => enters p bucket keeps (deleted bucket present))
    (fun bucket key _ at_ p keeps => by
      obtain ⟨p',ran,wrote⟩ := commitDelete_spec b.inner.named (keeps.has (deleted bucket (SortedMap.isSome_find_of_at at_)))
        (keyed bucket key at_)
      exact ⟨p',ran,keeps.trans ⟨wrote.names,wrote.foreign,fun _ _ => rfl⟩,wrote.keys⟩)
    ⟨fun _ => rfl,fun _ _ => rfl,fun _ _ => rfl⟩
  obtain ⟨p',ran',keeps',wrote'⟩ := puts.run_spec (enter b.inner.bucketMap) (commitPut b.inner.bucketMap)
    (fun p => BoltStore.view b.inner.bucketMap p.contents) (fun value => some (BoltStore.stored value)) kept
    (fun bucket present p keeps => enters p bucket keeps (put bucket present))
    (fun bucket key value at_ p keeps => by
      obtain ⟨p',ran,wrote⟩ := commitPut_spec b.inner.named (keeps.has (put bucket (SortedMap.isSome_find_of_at at_)))
        (keyed' bucket key value at_) value
      exact ⟨p',ran,keeps.trans ⟨wrote.names,wrote.foreign,fun _ _ => rfl⟩,wrote.keys⟩)
    keeps
  have committed : b.commit deletes puts = ({ b with
      inner := { b.inner with db := p'.contents, sz := b.inner.sz + p'.totalDelta }, closed := true },.ok p'.info) := by
    rw [commit,if_neg (by simp [opened]),ran]
    simp only
    rw [ran']
  rw [committed]
  refine ⟨_,rfl,keeps'.names,keeps'.foreign,fun bucket key => ?_⟩
  rw [wrote',wrote]
  rfl

end DurableBatch

section
variable {B : Type} [LinearOrder B]

theorem WriteCollector.keys_named {calls : List (BatchCall B)} (named : ∀ call ∈ calls, call.key ≠ []) :
    (∀ bucket key, (calls.foldl record new).deletes.at? bucket key = some () → key ≠ []) ∧
      ∀ bucket key value, (calls.foldl record new).puts.at? bucket key = some value → key ≠ [] := by
  have general : ∀ (calls : List (BatchCall B)) (wc : WriteCollector B), (∀ call ∈ calls, call.key ≠ []) →
      (∀ bucket key, wc.deletes.at? bucket key = some () → key ≠ []) ∧ (∀ bucket key value, wc.puts.at? bucket key = some value → key ≠ []) →
      (∀ bucket key, (calls.foldl record wc).deletes.at? bucket key = some () → key ≠ []) ∧
        ∀ bucket key value, (calls.foldl record wc).puts.at? bucket key = some value → key ≠ [] := by
    intro calls
    induction calls with
    | nil => exact fun _ _ both => both
    | cons call rest ih =>
      intro wc named both
      refine ih (wc.record call) (fun c member => named c (List.mem_cons_of_mem _ member)) ?_
      have key_ := named call List.mem_cons_self
      cases call with
      | put bucket key value =>
        simp only [record,recordPut,at_assign,at_undo,BatchCall.key] at key_ ⊢
        grind
      | delete bucket key =>
        simp only [record,recordDelete,at_assign,at_undo,BatchCall.key] at key_ ⊢
        grind
  exact general calls new named (by simp [new,SortedMap.at?])

/-- A commit leaves the contents that the calls of the batch leave when they are applied one after another, in memory and in
    a bolt file, in whatever order the collected maps are iterated. -/
theorem commit_applies_calls_in_order (calls : List (BatchCall B)) (named : ∀ call ∈ calls, call.key ≠ []) :
    (∀ s : InmemStore B, (∀ call ∈ calls, (s.buckets.find? call.bucket).isSome) →
      let batch : InmemBatch B := calls.foldl (fun b call => (b.call call).1) (Batch.new s)
      ∀ (deletes : Iteration batch.wc.deletes) (puts : Iteration batch.wc.puts),
        (∃ info, (InmemBatch.commit batch deletes puts).2 = .ok info) ∧
          (InmemBatch.commit batch deletes puts).1.inner.buckets = (calls.foldl (fun s call => (s.apply call).1) s).buckets) ∧
    ∀ s : BoltStore B, (∀ call ∈ calls, BoltStore.Has s.bucketMap s.db call.bucket) →
      let batch : DurableBatch B := calls.foldl (fun b call => (b.call call).1) (Batch.new s)
      ∀ (deletes : Iteration batch.wc.deletes) (puts : Iteration batch.wc.puts),
        (∃ info, (DurableBatch.commit batch deletes puts).2 = .ok info) ∧
          (DurableBatch.commit batch deletes puts).1.inner.db = (calls.foldl (fun s call => (s.apply call).1) s).db := by
  obtain ⟨keyed,keyed'⟩ := WriteCollector.keys_named named
  constructor
  · intro s there batch
    have is : batch = ⟨s,false,calls.foldl WriteCollector.record WriteCollector.new⟩ := Batch.calls_eq named _ rfl
    clear_value batch
    subst is
    intro deletes puts
    have known := WriteCollector.buckets_called (P := fun bucket => (s.buckets.find? bucket).isSome) there
    obtain ⟨info,ok,buckets,keys⟩ := InmemBatch.commit_spec rfl (fun bucket => (known bucket).2) (fun bucket => (known bucket).1)
      keyed' deletes puts
    obtain ⟨buckets',keys'⟩ := InmemStore.apply_all named there
    refine ⟨⟨info,ok⟩,SortedMap.ext_at (fun bucket => (buckets bucket).trans (buckets' bucket).symm) fun bucket key => ?_⟩
    rw [keys, keys', WriteCollector.overlay_calls]
  · intro s there batch
    have is : batch = ⟨s,false,calls.foldl WriteCollector.record WriteCollector.new⟩ := Batch.calls_eq named _ rfl
    clear_value batch
    subst is
    intro deletes puts
    have known := WriteCollector.buckets_called (P := BoltStore.Has s.bucketMap s.db) there
    obtain ⟨info,ok,wrote⟩ := DurableBatch.commit_spec rfl (fun bucket => (known bucket).2) (fun bucket => (known bucket).1)
      keyed keyed' deletes puts
    rw [WriteCollector.overlay_calls] at wrote
    exact ⟨⟨info,ok⟩,wrote.eq (BoltStore.apply_all named there)⟩

end

/-- A key that is put, deleted and put again beside one that is put once. -/
theorem commit_applies_put_delete_put :
    let calls : List (BatchCall Nat) := [.put 0 [97] (some [1]),.delete 0 [97],.put 0 [98] none,.put 0 [97] (some [2])]
    let s : InmemStore Nat := ⟨SortedMap.empty.insert 0 (SortedMap.empty.insert [99] (some [3])),1⟩
    let t := BoltStore.oneBucket SortedMap.empty 0
    (InmemBatch.commit (calls.foldl (fun b call => (b.call call).1) (Batch.new s)) (.sorted _) (.sorted _)).1.inner.buckets =
      (calls.foldl (fun s call => (s.apply call).1) s).buckets ∧
    (DurableBatch.commit (calls.foldl (fun b call => (b.call call).1) (Batch.new t)) (.sorted _) (.sorted _)).1.inner.db =
      (calls.foldl (fun s call => (s.apply call).1) t).db := by
  intro calls s t
  obtain ⟨inmem,durable⟩ := commit_applies_calls_in_order calls (by decide)
  have one : ∀ call ∈ calls, call.bucket = 0 := by decide
  refine ⟨(inmem s (by decide) _ _).2,(durable t (fun call member => ⟨[107],?_,rfl⟩) _ _).2⟩
  rw [one call member]
  rfl

end Kave
