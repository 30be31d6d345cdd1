import Kave.Scans

/-! The snapshot of the store in memory. `WriteTo` hands the buckets to a gob encoder, as counts, names and items without anything
    between them, and `ReadFrom` takes them from a gob decoder. Of gob only this is used: what is encoded into one stream is decoded
    from it in the same order, and an empty slice comes out as a nil one. -/

namespace Kave

/-- A value of a stream; the key and the value of an item are the fields of `Item`. -/
inductive GobValue (B : Type)
  | int (n : Int)
  | bucket (name : B)
  | item (key : Bytes) (value : Option Bytes)
deriving DecidableEq, Repr

namespace GobValue

variable {B : Type}

def int? : GobValue B → Option Int
  | int n => some n
  | _ => none

def bucket? : GobValue B → Option B
  | bucket name => some name
  | _ => none

def item? : GobValue B → Option (Bytes × Option Bytes)
  | item key value => some (key,value)
  | _ => none

/-- What comes out of the stream: fields without bytes are not sent. -/
def sent : GobValue B → GobValue B
  | item key value => item key (value.filter (· ≠ []))
  | v => v

end GobValue

/-- Streams of gob, with the encoder and the decoder that belong together. -/
structure Gob (B Stream : Type) where
  encode : List (GobValue B) → Stream
  decode : Stream → List (GobValue B)
  decode_encode : ∀ values, decode (encode values) = values.map GobValue.sent

inductive GobError
  /-- `EOF` -/
  | eof
  /-- `gob: decoding into local type ..., received remote type ...` -/
  | wrongType
deriving DecidableEq, Repr

/-- `codec error (while working on %s): %s` -/
structure CodecError where
  err : GobError
  field : String
deriving DecidableEq, Repr

section
variable {B : Type} [LinearOrder B]

/-! ### Writing -/

def encodeTree (tree : SortedMap Bytes (Option Bytes)) : List (GobValue B) :=
  .int tree.entries.length :: tree.entries.map fun e => .item e.1 e.2

/-- `encode`, for the buckets as the map is iterated. -/
def encodeBuckets (buckets : List (B × SortedMap Bytes (Option Bytes))) : List (GobValue B) :=
  .int buckets.length :: buckets.flatMap fun e => .bucket e.1 :: encodeTree e.2

def InmemStore.writeTo {Stream : Type} (gob : Gob B Stream) (s : InmemStore B)
    (order : { l : List (B × SortedMap Bytes (Option Bytes)) // l.Perm s.buckets.entries }) : Stream :=
  gob.encode (encodeBuckets order.1)

/-! ### Reading -/

/-- `Decode` into a variable of the type that `pick` takes. -/
def decodeValue {α : Type} (pick : GobValue B → Option α) (field : String) : List (GobValue B) → Except CodecError (α × List (GobValue B))
  | [] => .error ⟨.eof,field⟩
  | v :: rest =>
    match pick v with
    | none => .error ⟨.wrongType,field⟩
    | some a => .ok (a,rest)

/-- The loop of `decodeTree` -/
def decodeItems : Nat → SortedMap Bytes (Option Bytes) → List (GobValue B) →
    Except CodecError (SortedMap Bytes (Option Bytes) × List (GobValue B))
  | 0, tree, dec => .ok (tree,dec)
  | n + 1, tree, dec => do
    let (item,dec) ← decodeValue GobValue.item? "btree item" dec
    decodeItems n (tree.insert item.1 item.2) dec

def decodeTree (dec : List (GobValue B)) : Except CodecError (SortedMap Bytes (Option Bytes) × List (GobValue B)) := do
  let (count,dec) ← decodeValue GobValue.int? "btree item count" dec
  decodeItems count.toNat SortedMap.empty dec

/-- The loop of `decode` -/
def decodeBuckets : Nat → InmemStore.Trees B → List (GobValue B) → Except CodecError (InmemStore.Trees B)
  | 0, buckets, _ => .ok buckets
  | n + 1, buckets, dec => do
    let (bucket,dec) ← decodeValue GobValue.bucket? "bucket name" dec
    let (tree,dec) ← decodeTree dec
    decodeBuckets n (buckets.insert bucket tree) dec

/-- `decode` -/
def decodeStore (dec : List (GobValue B)) : Except CodecError (InmemStore.Trees B) := do
  let (bucketCount,dec) ← decodeValue GobValue.int? "buckets count" dec
  decodeBuckets bucketCount.toNat SortedMap.empty dec

/-- `ReadFrom`, which leaves the size as it is. -/
def InmemStore.readFrom {Stream : Type} (gob : Gob B Stream) (s : InmemStore B) (r : Stream) : InmemStore B × Option CodecError :=
  match decodeStore (gob.decode r) with
  | .error e => (s,some e)
  | .ok buckets => ({ s with buckets := buckets },none)

/-! ### Round trip -/

/-- A value after the trip. -/
def received (value : Option Bytes) : Option Bytes := value.filter (· ≠ [])

theorem getD_received (value : Option Bytes) : (received value).getD [] = value.getD [] := by
  rcases value with _ | _ | ⟨b,rest⟩ <;> rfl

omit [LinearOrder B] in
theorem decodeItems_sent (l : List (Bytes × Option Bytes)) (tree : SortedMap Bytes (Option Bytes)) (rest : List (GobValue B)) :
    decodeItems l.length tree ((l.map fun e => GobValue.item e.1 e.2).map GobValue.sent ++ rest) =
      .ok (l.foldl (fun tree e => tree.insert e.1 (received e.2)) tree,rest) := by
  induction l generalizing tree with
  | nil => rfl
  | cons e l ih => exact ih (tree.insert e.1 (received e.2))

omit [LinearOrder B] in
theorem decodeTree_sent (tree : SortedMap Bytes (Option Bytes)) (rest : List (GobValue B)) :
    decodeTree ((encodeTree tree).map GobValue.sent ++ rest) = .ok (tree.mapVals fun _ value => received value,rest) := by
  have items := decodeItems_sent tree.entries SortedMap.empty rest
  rw [SortedMap.foldl_insert_entries (.refl _) received] at items
  exact items

theorem decodeBuckets_succ (n : Nat) (buckets : InmemStore.Trees B) (bucket : B) {dec rest : List (GobValue B)}
    {tree : SortedMap Bytes (Option Bytes)} (read : decodeTree dec = .ok (tree,rest)) :
    decodeBuckets (n + 1) buckets (.bucket bucket :: dec) = decodeBuckets n (buckets.insert bucket tree) rest := by
  simp only [decodeBuckets,decodeValue,GobValue.bucket?,bind,Except.bind,read]

theorem decodeBuckets_sent (l : List (B × SortedMap Bytes (Option Bytes))) (buckets : InmemStore.Trees B) :
    decodeBuckets l.length buckets ((l.flatMap fun e => .bucket e.1 :: encodeTree e.2).map GobValue.sent) =
      .ok (l.foldl (fun buckets e => buckets.insert e.1 (e.2.mapVals fun _ value => received value)) buckets) := by
  induction l generalizing buckets with
  | nil => rfl
  | cons e l ih =>
    rw [List.length_cons,List.flatMap_cons,List.map_append]
    exact (decodeBuckets_succ l.length buckets e.1 (decodeTree_sent e.2 _)).trans (ih _)

theorem InmemStore.readFrom_writeTo {Stream : Type} (gob : Gob B Stream) (s into : InmemStore B)
    (order : { l : List (B × SortedMap Bytes (Option Bytes)) // l.Perm s.buckets.entries }) :
    ∃ s', into.readFrom gob (s.writeTo gob order) = (s',none) ∧ ∀ bucket, s'.contents bucket = s.contents bucket := by
  have decoded : decodeStore ((encodeBuckets order.1).map GobValue.sent) =
      .ok (s.buckets.mapVals fun _ tree => tree.mapVals fun _ value => received value) := by
    rw [← SortedMap.foldl_insert_entries order.2 fun tree => tree.mapVals fun _ value => received value]
    exact decodeBuckets_sent order.1 SortedMap.empty
  refine ⟨_,by rw [InmemStore.readFrom, InmemStore.writeTo, gob.decode_encode, decoded],fun bucket => ?_⟩
  rw [InmemStore.contents, InmemStore.contents, SortedMap.find_mapVals, Option.map_map]
  refine Option.map_congr fun tree _ => SortedMap.ext_find fun key => ?_
  rw [Function.comp_apply, SortedMap.find_mapVals, SortedMap.find_mapVals, SortedMap.find_mapVals, Option.map_map]
  exact Option.map_congr fun value _ => getD_received value

/-- What is read back from a snapshot is what was written, in whatever order the buckets were written. -/
theorem inmem_snapshot_round_trips {Stream : Type} (gob : Gob B Stream) (s into : InmemStore B)
    (order : { l : List (B × SortedMap Bytes (Option Bytes)) // l.Perm s.buckets.entries }) :
    ∃ s', into.readFrom gob (s.writeTo gob order) = (s',none) ∧ ∀ bucket, s'.contents bucket = s.contents bucket :=
  s.readFrom_writeTo gob into order

end

/-- A stream that is the list of what comes out of it. -/
def Gob.values (B : Type) : Gob B (List (GobValue B)) where
  encode values := values.map GobValue.sent
  decode values := values
  decode_encode _ := rfl

/-- Two buckets that are written in descending order, with an empty value. -/
theorem inmem_snapshot_round_trips_two_buckets :
    let tree : SortedMap Bytes (Option Bytes) := (SortedMap.empty.insert [97] (some [1])).insert [98] (some [])
    let s : InmemStore Nat := ⟨(SortedMap.empty.insert 0 tree).insert 1 SortedMap.empty,1⟩
    ∃ s', (⟨SortedMap.empty,0⟩ : InmemStore Nat).readFrom (Gob.values Nat) (s.writeTo (Gob.values Nat) ⟨[(1,SortedMap.empty),(0,tree)],.swap _ _ _⟩) =
      (s',none) ∧ ∀ bucket, s'.contents bucket = s.contents bucket := by
  intro tree s
  exact inmem_snapshot_round_trips (Gob.values Nat) s ⟨SortedMap.empty,0⟩ ⟨[(1,SortedMap.empty),(0,tree)],.swap _ _ _⟩

end Kave
