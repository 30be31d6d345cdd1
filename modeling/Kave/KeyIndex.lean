import Kave.Revision

/-! The revision history of one user key: a list of generations, one for each life of the key. -/

namespace Kave

/-- Why no generation holds the requested revision. -/
inductive FindGenError
  /-- `tombstone at %d` -/
  | tombstone (main : Int)
  /-- `revision is at the gap of two generations` -/
  | gap
deriving DecidableEq, Repr

/-- The errors of the key index and of the tree of key indexes. -/
inductive IndexError
  /-- `ErrRevNotFound` -/
  | revNotFound
  /-- `ErrKeyNotFound: get: …` -/
  | keyNotFound (cause : FindGenError)
  /-- `ErrKeyIndexError: put with unexpected smaller version` -/
  | putSmallerVersion
  /-- `ErrKeyIndexError: delete: placing tombstone on empty key index` -/
  | tombstoneOnEmptyKeyIndex
  /-- `ErrKeyIndexError: delete: placing tombstone on empty generation` -/
  | tombstoneOnEmptyGeneration
  /-- `'compact' got an unexpected empty keyIndex: %s` -/
  | compactOnEmptyKeyIndex (key : Bytes)
  /-- `ErrCompactionFailed: failed to delete key index` -/
  | deleteKeyIndexFailed
  /-- The source panics: `get: getting empty key index`. -/
  | panicOnEmptyKeyIndex
  /-- The source panics: a slice index is out of range. -/
  | panicOutOfRange
deriving DecidableEq, Repr

/-- One life of a key: the revisions that wrote it, the last of which is a tombstone once the life is over. -/
structure Generation where
  version : Int
  created : Revision
  revs : List Revision
deriving DecidableEq, Repr

namespace Generation

/-- The zero value `generation{}`. -/
def zero : Generation := ⟨0,Revision.zero,[]⟩

def isEmpty (g : Generation) : Bool := g.revs.isEmpty

/-- The update `put` makes to the generation it writes to. -/
def append (g : Generation) (rev : Revision) : Generation where
  version := g.version + 1
  created := if g.revs = [] then rev else g.created
  revs := g.revs ++ [rev]

/-- The position of the last revision at which `f` is false; `none` is the `-1` of the source. -/
def walkBackwards (g : Generation) (f : Revision → Bool) : Option Nat :=
  (g.revs.reverse.findIdx? fun rev => !f rev).map fun i => g.revs.length - i - 1

end Generation

structure KeyIndex where
  key : Bytes
  modRev : Revision
  generations : List Generation
deriving DecidableEq, Repr

namespace KeyIndex

/-- The index `&keyIndex{key: key}` of a key never seen before. -/
def new (key : Bytes) : KeyIndex := ⟨key,Revision.zero,[]⟩

def isEmpty (ki : KeyIndex) : Bool :=
  match ki.generations with
  | [g] => g.revs.isEmpty
  | _ => false

/-- The last generation with `rev` appended; a key without generations gets its first one. -/
def appendRev (gens : List Generation) (rev : Revision) : List Generation :=
  gens.dropLast ++ [(gens.getLast?.getD Generation.zero).append rev]

def put (ki : KeyIndex) (main sub : Int) : Except IndexError KeyIndex :=
  let rev : Revision := ⟨main,sub⟩
  if !rev.greaterThan ki.modRev then .error .putSmallerVersion
  else .ok { ki with generations := appendRev ki.generations rev, modRev := rev }

/-- The loop of `findGen` over the generations from the newest to the oldest; `last` holds at the newest. -/
def findGenLoop (rev : Int) : Bool → List Generation → Except FindGenError Generation
  | _, [] => .error .gap
  | last, g :: older =>
    match g.revs with
    | [] => findGenLoop rev false older
    | first :: rest =>
      let tomb := ((first :: rest).getLastD first).main
      if !last && tomb ≤ rev then .error (.tombstone tomb)
      else if first.main ≤ rev then .ok g
      else findGenLoop rev false older

def findGen (ki : KeyIndex) (rev : Int) : Except FindGenError Generation :=
  findGenLoop rev true ki.generations.reverse

/-- The create revision, the mod revision and the version of a generation at `targetRev`. -/
def getIn (g : Generation) (targetRev : Int) : Option (Revision × Revision × Int) :=
  (g.walkBackwards fun rev => rev.main > targetRev).bind fun n =>
    g.revs[n]?.map fun rev => (g.created,rev,g.version - ((g.revs.length : Int) - n - 1))

def get (ki : KeyIndex) (targetRev : Int) : Except IndexError (Revision × Revision × Int) :=
  if ki.isEmpty then .error .panicOnEmptyKeyIndex
  else match ki.findGen targetRev with
    | .error cause => .error (.keyNotFound cause)
    | .ok g =>
      match getIn g targetRev with
      | some found => .ok found
      | none => .error .revNotFound

def tombstone (ki : KeyIndex) (main sub : Int) : Except IndexError KeyIndex :=
  if ki.isEmpty then .error .tombstoneOnEmptyKeyIndex
  else match ki.generations.getLast? with
    | none => .error .panicOutOfRange
    | some g =>
      if g.isEmpty then .error .tombstoneOnEmptyGeneration
      else match ki.put main sub with
        | .error e => .error e
        | .ok ki => .ok { ki with generations := ki.generations ++ [Generation.zero] }

/-- The loop of `doCompact`: how many generations end below `atRev`. The newest generation never counts. -/
def compactGenIdx (atRev : Int) : List Generation → Option Nat
  | [] => none
  | [_] => some 0
  | g :: newer =>
    match g.revs.getLast? with
    | none => none
    | some tomb => if tomb.main ≥ atRev then some 0 else (compactGenIdx atRev newer).map (· + 1)

/-- The generation that holds `atRev` or is created after it, and in it the last revision up to `atRev`.
    `none` is an index out of range. -/
def doCompact (ki : KeyIndex) (atRev : Int) : Option (Nat × Option Nat) :=
  (compactGenIdx atRev ki.generations).bind fun genIdx =>
    ki.generations[genIdx]?.map fun g => (genIdx,g.walkBackwards fun rev => rev.main > atRev)

/-- Drops the revisions up to `atRev` except the largest one, which joins `available`. -/
def compact (ki : KeyIndex) (atRev : Int) (available : List Revision) :
    Except IndexError (KeyIndex × List Revision) :=
  if ki.isEmpty then .error (.compactOnEmptyKeyIndex ki.key)
  else match ki.doCompact atRev with
    | none => .error .panicOutOfRange
    | some (genIdx,revIdx) =>
      match ki.generations.drop genIdx with
      | [] => .error .panicOutOfRange
      | g :: newer =>
        let n := revIdx.getD 0
        let kept := if revIdx.isSome then g.revs[n]?.toList else []
        .ok ({ ki with generations := { g with revs := g.revs.drop n } :: newer },available ++ kept)

/-- Takes back the newest revision, and the empty generation a tombstone opened. -/
def dropRev (ki : KeyIndex) (rev : Revision) : KeyIndex :=
  let gens := match ki.generations.getLast? with
    | some g => if g.revs.isEmpty then ki.generations.dropLast else ki.generations
    | none => []
  match gens.getLast? with
  | none => if ki.generations.isEmpty then ki else { ki with generations := [], modRev := Revision.zero }
  | some g =>
    let g := if g.revs.getLast? = some rev then { g with revs := g.revs.dropLast, version := g.version - 1 } else g
    let gens := gens.dropLast ++ [g]
    { ki with generations := gens, modRev := (gens.reverse.findSome? (·.revs.getLast?)).getD Revision.zero }

end KeyIndex

end Kave
