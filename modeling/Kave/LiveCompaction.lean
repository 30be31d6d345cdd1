import Kave.Runs
import Kave.TreeCompaction
import Kave.Undo

/-! `Compact` of the tree beside writers. It clones the tree and then visits the cloned items one by one, each under the lock, so a
    writer puts, deletes and takes back in between. The clone shares its items with the tree: an item that a writer has taken back
    entirely is visited all the same, as an empty one. -/

namespace Kave

open TreeIndex KeyIndex

/-- An open writer with the changes it has made to the index, each a key and whether it was deleted. -/
structure IndexWriter where
  changes : List (Bytes × Bool)
  /-- Set once it takes its changes back: in `Abort`, or in an `End` whose commit has failed, which keeps the new revision. -/
  undoing : Option Bool
deriving DecidableEq, Repr

/-- `Compact` under way: the keys it has visited and the items of the clone still to visit, with whether they are in the tree. -/
structure IndexRun where
  target : Int
  visited : List Bytes
  pending : List (Bytes × Bool)
  avail : List Revision
deriving DecidableEq, Repr

structure IndexSys where
  index : TreeIndex
  /-- The committed revision. -/
  current : Int
  writer : Option IndexWriter
  compaction : Option IndexRun
  /-- The error of a `Compact` that has failed. -/
  failed : Option IndexError

inductive IndexEvent
  | begin
  | put (key : Bytes)
  | tombstone (key : Bytes)
  | commit
  | undo (committing : Bool)
  /-- `DropRevision` of the newest change; without one left, the writer is closed. -/
  | drop
  /-- `Compact` clones the tree. -/
  | compact (target : Int)
  /-- `Compact` visits the next item of the clone; without one left, it returns. -/
  | visit
deriving DecidableEq, Repr

def IndexWriter.records (w : IndexWriter) (next : Int) (key : Bytes) : List KvBucketKey :=
  (w.changes.zipIdx.filter fun p => p.1.1 = key).map fun p => ⟨⟨next,p.2⟩,p.1.2⟩

/-- The items that have left the tree are marked. -/
def IndexRun.detach (run : IndexRun) (ti : TreeIndex) : IndexRun :=
  { run with pending := run.pending.map fun p => (p.1,p.2 && (ti.find? p.1).isSome) }

namespace IndexSys

def new : IndexSys := ⟨SortedMap.empty,0,none,none,none⟩

/-- A change of the open writer, unless the index refuses it. -/
def write (σ : IndexSys) (key : Bytes) (deleted : Bool) : IndexSys :=
  match σ.writer with
  | some ⟨changes,none⟩ =>
    let rev : Revision := ⟨σ.current + 1,changes.length⟩
    match if deleted then σ.index.tombstone key rev else σ.index.put key rev with
    | .error _ => σ
    | .ok index => { σ with index := index, writer := some ⟨changes ++ [(key,deleted)],none⟩ }
  | some ⟨_,some _⟩ | none => σ

def commit (σ : IndexSys) : IndexSys :=
  match σ.writer with
  | some ⟨changes,none⟩ => { σ with current := if changes = [] then σ.current else σ.current + 1, writer := none }
  | some ⟨_,some _⟩ | none => σ

def drop (σ : IndexSys) : IndexSys :=
  match σ.writer with
  | some ⟨changes,some committing⟩ =>
    match changes.getLast? with
    | none => { σ with current := if committing then σ.current + 1 else σ.current, writer := none }
    | some change =>
      let index := σ.index.dropRevision change.1 ⟨σ.current + 1,changes.length - 1⟩
      { σ with
        index := index
        writer := some ⟨changes.dropLast,some committing⟩
        compaction := σ.compaction.map (·.detach index) }
  | some ⟨_,none⟩ | none => σ

def visit (σ : IndexSys) : IndexSys :=
  match σ.compaction with
  | none => σ
  | some run =>
    match run.pending with
    | [] => { σ with compaction := none }
    | (key,attached) :: rest =>
      if attached then
        match σ.index.compactKey run.target key run.avail with
        | .error e => { σ with compaction := none, failed := some e }
        | .ok (index,avail) => { σ with index := index, compaction := some ⟨run.target,run.visited ++ [key],rest,avail⟩ }
      else { σ with compaction := none, failed := some (.compactOnEmptyKeyIndex key) }

def step (σ : IndexSys) : IndexEvent → IndexSys
  | .begin => if σ.writer = none then { σ with writer := some ⟨[],none⟩ } else σ
  | .put key => σ.write key false
  | .tombstone key => σ.write key true
  | .commit => σ.commit
  | .undo committing =>
    match σ.writer with
    | some ⟨changes,none⟩ => { σ with writer := some ⟨changes,some committing⟩ }
    | some ⟨_,some _⟩ | none => σ
  | .drop => σ.drop
  | .compact target =>
    -- a target above the committed revision is refused before
    if σ.compaction = none ∧ target ≤ σ.current then
      { σ with compaction := some ⟨target,[],σ.index.keys.map fun key => (key,true),[]⟩ }
    else σ
  | .visit => σ.visit

def run (σ : IndexSys) (events : List IndexEvent) : IndexSys := events.foldl step σ

/-- The change that `DropRevision` takes back is not all that the item of its key has, or `Compact` does not have that item to visit
    any more. -/
def Keeps (σ : IndexSys) : IndexEvent → Prop
  | .drop => ∀ w ∈ σ.writer, ∀ run ∈ σ.compaction, ∀ change ∈ w.changes.getLast?, change.1 ∈ run.pending.map (·.1) →
      1 < (σ.index.records change.1).length
  | .begin | .put _ | .tombstone _ | .commit | .undo _ | .compact _ | .visit => True

instance decidableKeeps (σ : IndexSys) : (event : IndexEvent) → Decidable (σ.Keeps event)
  | .drop => inferInstanceAs (Decidable (∀ w ∈ σ.writer, ∀ run ∈ σ.compaction, ∀ change ∈ w.changes.getLast?,
      change.1 ∈ run.pending.map (·.1) → 1 < (σ.index.records change.1).length))
  | .begin | .put _ | .tombstone _ | .commit | .undo _ | .compact _ | .visit => inferInstanceAs (Decidable True)

end IndexSys

/-! ### One change of the index -/

namespace TreeIndex

variable {ti ti' : TreeIndex} {key : Bytes} {rev : Revision} {t : Int}

/-- All items have counted their revisions after `t`. -/
def Counted (t : Int) (ti : TreeIndex) : Prop := ∀ key ki, ti.find? key = some ki → ki.Counted t

/-- One more record of a key. A deletion comes after a put. -/
structure Added (ti ti' : TreeIndex) (key : Bytes) (bk : KvBucketKey) : Prop where
  valid : ti'.Valid
  other : ∀ k, k ≠ key → ti'.find? k = ti.find? k
  records : ti'.records key = ti.records key ++ [bk]
  counted : ∀ t, ti.Counted t → ti'.Counted t
  put : bk.tombstone = true → ∃ p, (ti.records key).getLast? = some p ∧ p.tombstone = false

theorem Added.records_other {bk : KvBucketKey} (added : ti.Added ti' key bk) {k : Bytes} (different : k ≠ key) :
    ti'.records k = ti.records k := by
  rw [TreeIndex.records,added.other k different,TreeIndex.records]

theorem Added.present {bk : KvBucketKey} (added : ti.Added ti' key bk) {k : Bytes} (present : (ti.find? k).isSome) :
    (ti'.find? k).isSome := by
  by_cases same : k = key
  · subst same
    have records := added.records
    cases found : ti'.find? k with
    | none => simp [TreeIndex.records,found] at records
    | some ki => rfl
  · rwa [added.other k same]

private theorem counted_insert (counted : ti.Counted t) {ki : KeyIndex} (new : ki.Counted t) : Counted t (ti.insert key ki) := by
  intro k found here
  rw [SortedMap.find_insert] at here
  split at here
  · cases here
    exact new
  · exact counted k found here

private theorem version_append {g : Generation} (counted : (∀ r ∈ g.revs, t < r.main) → g.version = g.revs.length)
    (late : ∀ r ∈ (g.append rev).revs, t < r.main) : (g.append rev).version = (g.append rev).revs.length := by
  have before := counted fun r member => late r (List.mem_append_left _ member)
  simp only [Generation.append,List.length_append,List.length_singleton,before]
  push_cast
  rfl

theorem Valid.put_added (valid : ti.Valid) (run : ti.put key rev = .ok ti') : ti.Added ti' key ⟨rev,false⟩ := by
  rw [TreeIndex.put] at run
  cases found : ti.find? key with
  | none =>
    cases first : (KeyIndex.new key).put rev.main rev.sub with
    | error e => simp [found,first,Except.map] at run
    | ok ki =>
      simp only [found,first,Except.map,Except.ok.injEq] at run
      subst run
      have is : ki = ⟨key,rev,[Generation.zero.append rev]⟩ := (put_ok_iff first).2
      subst is
      refine ⟨valid_insert valid rfl ⟨_,_,Lives.first key rev⟩,fun k different => by simp [different],?_,?_,by simp⟩
      · simp [TreeIndex.records,found,bucketKeys,genKeys,Generation.append,Generation.zero]
      · intro t counted
        refine counted_insert counted fun g member late => ?_
        rw [List.mem_singleton.mp member]
        rfl
  | some old =>
    cases next : old.put rev.main rev.sub with
    | error e => simp [found,next,Except.map] at run
    | ok ki =>
      simp only [found,next,Except.map,Except.ok.injEq] at run
      subst run
      obtain ⟨named,ended,current,lives⟩ := valid key old found
      obtain ⟨later,rfl⟩ := put_ok_iff next
      refine ⟨valid_insert valid named ⟨_,_,lives.put later⟩,fun k different => by simp [different],?_,?_,by simp⟩
      · simpa [TreeIndex.records,found] using lives.keys_put rev
      · intro t counted
        have before := counted key old found
        refine counted_insert counted fun g member late => ?_
        simp only [lives.generations,appendRev_snoc] at member
        rcases List.mem_append.mp member with inside | last
        · exact before g (by simp [lives.generations,inside]) late
        · rw [List.mem_singleton.mp last] at late ⊢
          exact version_append (before current (by simp [lives.generations])) late

theorem Valid.tombstone_added (valid : ti.Valid) (run : ti.tombstone key rev = .ok ti') : ti.Added ti' key ⟨rev,true⟩ := by
  rw [TreeIndex.tombstone] at run
  cases found : ti.find? key with
  | none => simp [found] at run
  | some old =>
    cases next : old.tombstone rev.main rev.sub with
    | error e => simp [found,next,Except.map] at run
    | ok ki =>
      simp only [found,next,Except.map,Except.ok.injEq] at run
      subst run
      obtain ⟨named,ended,current,lives⟩ := valid key old found
      obtain ⟨alive,later,rfl⟩ := lives.tombstone_ok next
      refine ⟨valid_insert valid named ⟨_,_,lives.bury alive later⟩,fun k different => by simp [different],?_,?_,fun _ => ?_⟩
      · simpa [TreeIndex.records,found] using lives.keys_bury later
      · intro t counted
        have before := counted key old found
        refine counted_insert counted fun g member late => ?_
        rcases List.mem_append.mp member with inside | last
        · rcases List.mem_append.mp inside with older | current'
          · exact before g (by simp [lives.generations,older]) late
          · rw [List.mem_singleton.mp current'] at late ⊢
            exact version_append (before current (by simp [lives.generations])) late
        · rw [List.mem_singleton.mp last]
          rfl
      · obtain ⟨revs,r,split⟩ := (List.eq_nil_or_concat' current.revs).resolve_left alive
        refine ⟨⟨r,false⟩,?_,rfl⟩
        simp [TreeIndex.records,found,bucketKeys,lives.generations,genKeys_snoc,split]

theorem forall_dropRevision {Q : Bytes → KeyIndex → Prop} {ki : KeyIndex} (found : ti.find? key = some ki)
    (all : ∀ k item, ti.find? k = some item → Q k item) (changed : (ki.dropRev rev).isEmpty = false → Q key (ki.dropRev rev)) :
    ∀ k item, (ti.dropRevision key rev).find? k = some item → Q k item := by
  intro k item is
  rw [find_dropRevision] at is
  by_cases at_ : k = key
  · rw [if_pos at_,found,Option.map_some,Option.filter_eq_some_iff] at is
    obtain ⟨same,full⟩ := is
    cases same
    rw [at_]
    exact changed (by simpa using full)
  · rw [if_neg at_] at is
    exact all k item is

theorem Valid.dropRevision_newest (valid : ti.Valid) (counted : ti.Counted t) {older : List KvBucketKey} {bk : KvBucketKey}
    (records : ti.records key = older ++ [bk]) (late : t < bk.rev.main)
    (put : bk.tombstone = true → ∃ p, older.getLast? = some p ∧ p.tombstone = false) :
    (ti.dropRevision key bk.rev).Valid ∧ (ti.dropRevision key bk.rev).Counted t ∧ (ti.dropRevision key bk.rev).records key = older ∧
      (older ≠ [] → ((ti.dropRevision key bk.rev).find? key).isSome) := by
  cases found : ti.find? key with
  | none => simp [TreeIndex.records,found] at records
  | some ki =>
    have keys : ki.bucketKeys = older ++ [bk] := by simpa [TreeIndex.records,found] using records
    obtain ⟨named,wellFormed⟩ := valid key ki found
    have here : (ti.dropRevision key bk.rev).find? key = if (ki.dropRev bk.rev).isEmpty then none else some (ki.dropRev bk.rev) := by
      rw [find_dropRevision,if_pos rfl,found,Option.map_some,Option.filter]
      cases (ki.dropRev bk.rev).isEmpty <;> rfl
    rcases wellFormed.dropRev (counted key ki found) keys late put with ⟨no,empty⟩ | ⟨left,listed,same,counted'⟩
    · have full : (ki.dropRev bk.rev).isEmpty ≠ false := by simp [empty]
      refine ⟨forall_dropRevision found valid fun is => absurd is full,forall_dropRevision found counted fun is => absurd is full,?_,
        fun some => absurd no some⟩
      simp [TreeIndex.records,here,empty,no]
    · have full : (ki.dropRev bk.rev).isEmpty = false := by
        obtain ⟨ended,current,lives⟩ := left
        exact lives.not_empty
      refine ⟨forall_dropRevision found valid fun _ => ⟨same.trans named,left⟩,forall_dropRevision found counted fun _ => counted',?_,
        fun _ => by simp [here,full]⟩
      simp [TreeIndex.records,here,full,listed]

theorem Valid.compactKey_counted (valid : ti.Valid) (counted : ti.Counted t) {c : Int} (le : c ≤ t) {avail avail' : List Revision}
    (run : ti.compactKey c key avail = .ok (ti',avail')) : ti'.Counted t := by
  rw [compactKey] at run
  cases found : ti.find? key with
  | none => simp [found] at run
  | some ki =>
    obtain ⟨-,wellFormed⟩ := valid key ki found
    cases compacted : ki.compact c avail with
    | error e => simp [found,compacted,Except.map] at run
    | ok result =>
      obtain ⟨ki',avail₁⟩ := result
      simp only [found,compacted,Except.map,Except.ok.injEq,Prod.mk.injEq] at run
      obtain ⟨rfl,rfl⟩ := run
      have new : ki'.Counted t := by
        intro g member late
        rcases wellFormed.compact_generations compacted member with old | ⟨r,inside,below⟩
        · exact counted key ki found g old late
        · have := late r inside
          omega
      split
      · intro k item is
        rw [SortedMap.find_erase] at is
        split at is
        · cases is
        · exact counted k item is
      · exact counted_insert counted new

end TreeIndex

/-! ### What the interleaving keeps -/

/-- The records of the open writer that are in the index. -/
def IndexSys.inFlight (σ : IndexSys) (key : Bytes) : List KvBucketKey :=
  match σ.writer with
  | none => []
  | some w => w.records (σ.current + 1) key

/-- `Compact` under way: whatever it still has to visit is in the tree, and what it has not cloned has no record up to its target. -/
structure IndexRun.Sound (run : IndexRun) (ti : TreeIndex) (current : Int) : Prop where
  target : run.target ≤ current
  attached : ∀ p ∈ run.pending, p.2 = true ∧ (ti.find? p.1).isSome
  distinct : (run.pending.map (·.1)).Nodup
  covered : ∀ key, key ∈ run.visited ∨ key ∈ run.pending.map (·.1) ∨ ∀ bk ∈ ti.records key, run.target < bk.rev.main

/-- Deletions after `t` come after a put. -/
def DeletesPut (t : Int) (records : List KvBucketKey) : Prop :=
  ∀ older bk newer, records = older ++ bk :: newer → bk.tombstone = true → t < bk.rev.main →
    ∃ p, older.getLast? = some p ∧ p.tombstone = false

/-- The tree beside its writer: the records of every key are those that are committed, as far as they are not compacted, and those of
    the open writer. -/
structure IndexSys.Ordered (σ : IndexSys) : Prop where
  valid : σ.index.Valid
  counted : σ.index.Counted σ.current
  records : ∀ key, ∃ old, σ.index.records key = old ++ σ.inFlight key ∧ ∀ bk ∈ old, bk.rev.main ≤ σ.current
  deletes : ∀ key, DeletesPut σ.current (σ.index.records key)

/-- The records of every key are those that are committed, as far as they are not compacted, and those of the open writer. -/
structure IndexSys.Sound (σ : IndexSys) : Prop where
  valid : σ.index.Valid
  counted : σ.index.Counted σ.current
  records : ∀ key, ∃ old, σ.index.records key = old ++ σ.inFlight key ∧ ∀ bk ∈ old, bk.rev.main ≤ σ.current
  deletes : ∀ key, DeletesPut σ.current (σ.index.records key)
  compaction : ∀ run ∈ σ.compaction, run.Sound σ.index σ.current
  failed : σ.failed = none

variable {bk : KvBucketKey} {t : Int} {σ : IndexSys}

theorem DeletesPut.snoc {records : List KvBucketKey} (deletes : DeletesPut t records)
    (put : bk.tombstone = true → ∃ p, records.getLast? = some p ∧ p.tombstone = false) : DeletesPut t (records ++ [bk]) := by
  intro older b newer split marked late
  rcases List.eq_nil_or_concat' newer with none | ⟨newer',last,is⟩
  · rw [none] at split
    obtain ⟨rfl,same⟩ := List.append_inj' split rfl
    cases same
    exact put marked
  · rw [is,← List.cons_append,← List.append_assoc] at split
    obtain ⟨same,-⟩ := List.append_inj' split rfl
    exact deletes older b newer' same marked late

theorem DeletesPut.dropLast {records : List KvBucketKey} (deletes : DeletesPut t (records ++ [bk])) :
    DeletesPut t records := by
  intro older b newer split marked late
  exact deletes older b (newer ++ [bk]) (by rw [split]; simp) marked late

theorem DeletesPut.suffix {t c : Int} (le : c ≤ t) {gone records : List KvBucketKey} (deletes : DeletesPut t (gone ++ records))
    (sorted : (gone ++ records).Pairwise fun a b => a.rev < b.rev) (old : ∀ bk ∈ gone, Superseded c (gone ++ records) bk) :
    DeletesPut t records := by
  intro older bk newer split marked late
  obtain ⟨p,last,unmarked⟩ := deletes (gone ++ older) bk newer (by rw [split,List.append_assoc]) marked late
  rcases List.eq_nil_or_concat' older with none | ⟨older',q,is⟩
  · -- the put was not superseded at `c`: whatever is newer is at least as late as the deletion
    rw [none,List.append_nil] at last
    rw [none,List.nil_append] at split
    obtain ⟨gone',whole⟩ := List.getLast?_eq_some_iff.mp last
    rcases old p (List.mem_of_getLast? last) with ⟨tomb,-⟩ | ⟨n,member,less,below⟩
    · rw [unmarked] at tomb
      cases tomb
    · rw [whole,split] at member sorted
      rw [List.append_assoc] at member sorted
      have after := List.pairwise_cons.mp (List.pairwise_append.mp sorted).2.1
      rcases List.mem_append.mp member with before | here
      · exact absurd ((List.pairwise_append.mp sorted).2.2 n before p (by simp)) (lt_asymm less)
      · have reaches : bk.rev ≤ n.rev := by
          have inside := after.2
          rcases List.mem_cons.mp here with same | rest
          · rw [same] at less
            exact absurd less (lt_irrefl _)
          · rcases List.mem_cons.mp rest with same | later
            · rw [same]
            · exact ((List.pairwise_cons.mp inside).1 n later).le
        have := Revision.main_le_of_le reaches
        omega
  · exact ⟨p,by simpa [is] using last,unmarked⟩

theorem exists_committed {gone rest old mine : List KvBucketKey} (cut : gone ++ rest = old ++ mine)
    (past : ∀ bk ∈ gone, bk.rev.main ≤ t) (committed : ∀ bk ∈ old, bk.rev.main ≤ t) (late : ∀ bk ∈ mine, t < bk.rev.main) :
    ∃ left, rest = left ++ mine ∧ ∀ bk ∈ left, bk.rev.main ≤ t := by
  rcases List.append_eq_append_iff.mp cut with ⟨more,is,left⟩ | ⟨more,is,left⟩
  · exact ⟨more,left,fun bk member => committed bk (by rw [is]; exact List.mem_append_right _ member)⟩
  · have none : more = [] := by
      refine List.eq_nil_iff_forall_not_mem.mpr fun bk member => ?_
      have below := past bk (by rw [is]; exact List.mem_append_right _ member)
      have above := late bk (by rw [left]; exact List.mem_append_left _ member)
      omega
    rw [none,List.nil_append] at left
    exact ⟨[],left.symm,fun bk member => absurd member List.not_mem_nil⟩

theorem IndexWriter.records_snoc (changes : List (Bytes × Bool)) (change : Bytes × Bool) (undoing undoing' : Option Bool) (next : Int)
    (key : Bytes) : IndexWriter.records ⟨changes ++ [change],undoing⟩ next key =
      IndexWriter.records ⟨changes,undoing'⟩ next key ++
        if change.1 = key then [⟨⟨next,changes.length⟩,change.2⟩] else [] := by
  simp only [records,List.zipIdx_append,List.filter_append,List.map_append]
  congr 1
  by_cases same : change.1 = key <;> simp [same]

theorem IndexWriter.main_records {w : IndexWriter} {next : Int} {key : Bytes} (member : bk ∈ w.records next key) :
    bk.rev.main = next := by
  obtain ⟨p,-,rfl⟩ := List.mem_map.mp member
  rfl

theorem IndexSys.main_inFlight {key : Bytes} (member : bk ∈ σ.inFlight key) :
    bk.rev.main = σ.current + 1 := by
  rw [inFlight] at member
  split at member
  · cases member
  · exact IndexWriter.main_records member

/-! ### The steps -/

/-- What a step does to the tree, its writer and `Compact`. -/
inductive IndexSys.Moves (σ : IndexSys) : IndexEvent → IndexSys → Prop
  | idle {event : IndexEvent} : Moves σ event σ
  | staged {event : IndexEvent} {w : Option IndexWriter} (same : ∀ key, inFlight { σ with writer := w } key = σ.inFlight key) :
    Moves σ event { σ with writer := w }
  | added {event : IndexEvent} {changes : List (Bytes × Bool)} {key : Bytes} {deleted : Bool} {index : TreeIndex}
    (opened : σ.writer = some ⟨changes,none⟩)
    (added : σ.index.Valid → σ.index.Added index key ⟨⟨σ.current + 1,changes.length⟩,deleted⟩) :
    Moves σ event { σ with index := index, writer := some ⟨changes ++ [(key,deleted)],none⟩ }
  | closed {event : IndexEvent} {current : Int} (le : σ.current ≤ current) (left : ∀ key, ∀ bk ∈ σ.inFlight key, bk.rev.main ≤ current) :
    Moves σ event { σ with current := current, writer := none }
  | dropped {changes : List (Bytes × Bool)} {change : Bytes × Bool} {committing : Bool}
    (opened : σ.writer = some ⟨changes ++ [change],some committing⟩) : Moves σ .drop σ.drop
  | cloned {target : Int} (le : target ≤ σ.current) :
    Moves σ (.compact target) { σ with compaction := some ⟨target,[],σ.index.keys.map fun key => (key,true),[]⟩ }
  | visit : Moves σ .visit σ.visit

theorem IndexSys.write_moves (σ : IndexSys) (event : IndexEvent) (key : Bytes) (deleted : Bool) : σ.Moves event (σ.write key deleted) := by
  rw [write]
  split
  next changes opened =>
    cases deleted with
    | false =>
      simp only [Bool.false_eq_true,if_false]
      cases result : σ.index.put key ⟨σ.current + 1,changes.length⟩ with
      | error e => exact .idle
      | ok index => exact .added opened fun valid => valid.put_added result
    | true =>
      simp only [if_true]
      cases result : σ.index.tombstone key ⟨σ.current + 1,changes.length⟩ with
      | error e => exact .idle
      | ok index => exact .added opened fun valid => valid.tombstone_added result
  next => exact .idle
  next => exact .idle

theorem IndexSys.step_moves (σ : IndexSys) (event : IndexEvent) : σ.Moves event (σ.step event) := by
  cases event with
  | begin =>
    change Moves σ _ (if σ.writer = none then _ else σ)
    split
    next free =>
      refine .staged fun key => ?_
      rw [inFlight,inFlight,free]
      rfl
    next => exact .idle
  | put key => exact σ.write_moves _ key false
  | tombstone key => exact σ.write_moves _ key true
  | commit =>
    change Moves σ _ σ.commit
    rw [commit]
    split
    next changes opened =>
      by_cases none : changes = []
      · rw [if_pos none]
        refine .closed le_rfl fun key bk member => ?_
        rw [inFlight,opened,none] at member
        cases member
      · rw [if_neg none]
        exact .closed (by omega) fun key bk member => (main_inFlight member).le
    next => exact .idle
    next => exact .idle
  | undo committing =>
    rw [step]
    split
    next changes opened =>
      refine .staged fun key => ?_
      rw [inFlight,inFlight,opened]
      rfl
    next => exact .idle
    next => exact .idle
  | drop =>
    change Moves σ _ σ.drop
    cases opened : σ.writer with
    | none =>
      rw [drop,opened]
      exact .idle
    | some w =>
      obtain ⟨changes,undoing⟩ := w
      cases undoing with
      | none =>
        rw [drop,opened]
        exact .idle
      | some committing =>
        rcases List.eq_nil_or_concat' changes with none | ⟨older,change,split⟩
        · rw [drop,opened,none]
          refine .closed (by split <;> omega) fun key bk member => ?_
          rw [inFlight,opened,none] at member
          cases member
        · rw [split] at opened
          exact .dropped opened
  | compact target =>
    change Moves σ _ (if _ then _ else σ)
    split
    next accepted => exact .cloned accepted.2
    next => exact .idle
  | visit => exact .visit

theorem IndexSys.drop_last {changes : List (Bytes × Bool)} {change : Bytes × Bool} {committing : Bool}
    (opened : σ.writer = some ⟨changes ++ [change],some committing⟩) :
    σ.drop = { σ with
      index := σ.index.dropRevision change.1 ⟨σ.current + 1,changes.length⟩
      writer := some ⟨changes,some committing⟩
      compaction := σ.compaction.map (·.detach (σ.index.dropRevision change.1 ⟨σ.current + 1,changes.length⟩)) } := by
  rw [drop,opened]
  simp

namespace IndexSys.Ordered

variable {σ : IndexSys}

theorem new : IndexSys.new.Ordered where
  valid := valid_empty
  counted key ki found := by cases found
  records key := ⟨[],rfl,fun bk member => absurd member List.not_mem_nil⟩
  deletes key older bk newer split := by simp [IndexSys.new,TreeIndex.records] at split

section

variable (ordered : σ.Ordered)

include ordered

theorem added {changes : List (Bytes × Bool)} (opened : σ.writer = some ⟨changes,none⟩) {key : Bytes} {deleted : Bool}
    {index : TreeIndex} (added : σ.index.Added index key ⟨⟨σ.current + 1,changes.length⟩,deleted⟩) :
    IndexSys.Ordered { σ with index := index, writer := some ⟨changes ++ [(key,deleted)],none⟩ } where
  valid := added.valid
  counted := added.counted _ ordered.counted
  records k := by
    obtain ⟨old,split,committed⟩ := ordered.records k
    have before : σ.inFlight k = IndexWriter.records ⟨changes,none⟩ (σ.current + 1) k := by rw [inFlight,opened]
    refine ⟨old,?_,committed⟩
    change index.records k = old ++ IndexWriter.records ⟨changes ++ [(key,deleted)],none⟩ (σ.current + 1) k
    rw [IndexWriter.records_snoc changes (key,deleted) none none,← List.append_assoc,← before,← split]
    by_cases same : key = k
    · subst same
      rw [added.records,if_pos rfl]
    · rw [added.records_other fun is => same is.symm,if_neg same,List.append_nil]
  deletes k := by
    change DeletesPut σ.current (index.records k)
    by_cases same : k = key
    · subst same
      rw [added.records]
      exact (ordered.deletes k).snoc added.put
    · rw [added.records_other same]
      exact ordered.deletes k

theorem closed {current : Int} (le : σ.current ≤ current)
    (left : ∀ key, ∀ bk ∈ σ.inFlight key, bk.rev.main ≤ current) :
    IndexSys.Ordered { σ with current := current, writer := none } where
  valid := ordered.valid
  counted key ki found g member late := ordered.counted key ki found g member fun r inside => le.trans_lt (late r inside)
  records key := by
    obtain ⟨old,split,committed⟩ := ordered.records key
    refine ⟨old ++ σ.inFlight key,by simpa [inFlight] using split,fun bk member => ?_⟩
    rcases List.mem_append.mp member with inside | mine
    · exact (committed bk inside).trans le
    · exact left key bk mine
  deletes key older bk newer split marked late := ordered.deletes key older bk newer split marked (le.trans_lt late)

theorem staged {w : Option IndexWriter} (same : ∀ key, IndexSys.inFlight { σ with writer := w } key = σ.inFlight key) :
    IndexSys.Ordered { σ with writer := w } where
  valid := ordered.valid
  counted := ordered.counted
  records key := by
    obtain ⟨old,split,committed⟩ := ordered.records key
    exact ⟨old,by rw [same]; exact split,committed⟩
  deletes := ordered.deletes

theorem dropped {changes : List (Bytes × Bool)} {change : Bytes × Bool} {committing : Bool}
    (opened : σ.writer = some ⟨changes ++ [change],some committing⟩) :
    let index := σ.index.dropRevision change.1 ⟨σ.current + 1,changes.length⟩
    IndexSys.Ordered { σ with index := index, writer := some ⟨changes,some committing⟩ } ∧
      σ.index.records change.1 = index.records change.1 ++ [⟨⟨σ.current + 1,changes.length⟩,change.2⟩] ∧
      (index.records change.1 ≠ [] → (index.find? change.1).isSome) := by
  intro index
  obtain ⟨key,deleted⟩ := change
  have mine : ∀ k, σ.inFlight k = IndexWriter.records ⟨changes,some committing⟩ (σ.current + 1) k ++
      if key = k then [⟨⟨σ.current + 1,changes.length⟩,deleted⟩] else [] := by
    intro k
    rw [inFlight,opened]
    exact IndexWriter.records_snoc changes (key,deleted) _ (some committing) (σ.current + 1) k
  obtain ⟨old,split,committed⟩ := ordered.records key
  rw [mine key,if_pos rfl,← List.append_assoc] at split
  have late : σ.current < (⟨⟨σ.current + 1,changes.length⟩,deleted⟩ : KvBucketKey).rev.main := Int.lt_succ σ.current
  have deletes := ordered.deletes key
  rw [split] at deletes
  obtain ⟨valid,counted,records,present⟩ := ordered.valid.dropRevision_newest ordered.counted split late fun marked =>
    deletes _ _ [] rfl marked late
  change index.records key = _ at records
  have records_other : ∀ k, k ≠ key → index.records k = σ.index.records k := fun k different => by
    rw [TreeIndex.records,find_dropRevision,if_neg different,TreeIndex.records]
  refine ⟨⟨valid,counted,fun k => ?_,fun k => ?_⟩,by rw [records]; exact split,fun some => present (by rwa [records] at some)⟩
  · by_cases same : k = key
    · subst same
      exact ⟨old,records,committed⟩
    · obtain ⟨old',split',committed'⟩ := ordered.records k
      refine ⟨old',?_,committed'⟩
      rw [mine k,if_neg fun is => same is.symm,List.append_nil] at split'
      exact (records_other k same).trans split'
  · change DeletesPut σ.current (index.records k)
    by_cases same : k = key
    · subst same
      rw [records]
      exact deletes.dropLast
    · rw [records_other k same]
      exact ordered.deletes k

theorem visited {target : Int} (le : target ≤ σ.current) {key : Bytes} {index : TreeIndex}
    {avail avail' kept : List Revision} (result : σ.index.compactKey target key avail = .ok (index,avail'))
    (visited : KeyVisited target σ.index index key kept) : IndexSys.Ordered { σ with index := index } := by
  obtain ⟨gone,cut,superseded⟩ := visited.item.keys
  change σ.index.records key = gone ++ index.records key at cut
  refine ⟨visited.valid,ordered.valid.compactKey_counted ordered.counted le result,fun k => ?_,fun k => ?_⟩
  · obtain ⟨old,split,committed⟩ := ordered.records k
    by_cases same : k = key
    · subst same
      rw [cut] at split
      refine exists_committed split (fun bk member => (superseded bk member).1.trans le) committed fun bk member => ?_
      rw [main_inFlight member]
      exact Int.lt_succ σ.current
    · refine ⟨old,?_,committed⟩
      change index.records k = _
      rw [TreeIndex.records,visited.other k same]
      exact split
  · change DeletesPut σ.current (index.records k)
    by_cases same : k = key
    · subst same
      have deletes := ordered.deletes k
      have sorted := ordered.valid.records_sorted k
      rw [cut] at deletes sorted
      refine deletes.suffix le sorted fun bk member => ?_
      have old := (superseded bk member).2
      rwa [show keysOf (σ.index.find? k) = gone ++ index.records k from cut] at old
    · rw [TreeIndex.records,visited.other k same]
      exact ordered.deletes k

theorem visit (committed : ∀ run ∈ σ.compaction, run.target ≤ σ.current) : σ.visit.Ordered := by
  rw [IndexSys.visit]
  cases under : σ.compaction with
  | none => exact ordered
  | some run =>
    dsimp only
    split
    next => exact ⟨ordered.valid,ordered.counted,ordered.records,ordered.deletes⟩
    next key attached rest pending =>
      split
      next =>
        cases result : σ.index.compactKey run.target key run.avail with
        | error e => exact ⟨ordered.valid,ordered.counted,ordered.records,ordered.deletes⟩
        | ok ended =>
          have present : (σ.index.find? key).isSome := by
            cases found : σ.index.find? key with
            | none => simp [compactKey,found] at result
            | some ki => rfl
          obtain ⟨index,kept,again,visited⟩ := compactKey_visited ordered.valid run.target run.avail present
          cases result.symm.trans again
          have after := ordered.visited (committed run under) again visited
          exact ⟨after.valid,after.counted,after.records,after.deletes⟩
      next => exact ⟨ordered.valid,ordered.counted,ordered.records,ordered.deletes⟩

/-- Every step keeps the order, beside any `Compact` up to a committed revision. -/
theorem step (committed : ∀ run ∈ σ.compaction, run.target ≤ σ.current) (event : IndexEvent) : (σ.step event).Ordered := by
  have moves := σ.step_moves event
  generalize σ.step event = σ' at moves ⊢
  cases moves with
  | idle => exact ordered
  | staged same => exact ordered.staged same
  | added opened added => exact ordered.added opened (added ordered.valid)
  | closed le left => exact ordered.closed le left
  | dropped opened =>
    have after := (ordered.dropped opened).1
    rw [drop_last opened]
    exact ⟨after.valid,after.counted,after.records,after.deletes⟩
  | cloned le => exact ⟨ordered.valid,ordered.counted,ordered.records,ordered.deletes⟩
  | visit => exact ordered.visit committed

end

end IndexSys.Ordered

namespace IndexRun.Sound

variable {r : IndexRun} {ti ti' : TreeIndex} {current current' : Int}

theorem later (sound : r.Sound ti current) (le : current ≤ current') : r.Sound ti current' :=
  ⟨sound.target.trans le,sound.attached,sound.distinct,sound.covered⟩

theorem added (sound : r.Sound ti current) {key : Bytes} {bk : KvBucketKey} (added : ti.Added ti' key bk)
    (late : current < bk.rev.main) : r.Sound ti' current where
  target := sound.target
  attached p member := ⟨(sound.attached p member).1,added.present (sound.attached p member).2⟩
  distinct := sound.distinct
  covered k := by
    refine (sound.covered k).imp_right (Or.imp_right fun after => ?_)
    have target := sound.target
    by_cases same : k = key
    · subst same
      rw [added.records]
      intro b member
      rcases List.mem_append.mp member with old | new
      · exact after b old
      · rw [List.mem_singleton.mp new]
        omega
    · rw [added.records_other same]
      exact after

theorem visited {key : Bytes} {rest : List (Bytes × Bool)} {kept avail : List Revision} (sound : r.Sound ti current)
    (pending : r.pending = (key,true) :: rest) (visited : KeyVisited r.target ti ti' key kept) :
    IndexRun.Sound ⟨r.target,r.visited ++ [key],rest,avail⟩ ti' current := by
  have distinct := sound.distinct
  rw [pending,List.map_cons,List.nodup_cons] at distinct
  refine ⟨sound.target,fun p member => ?_,distinct.2,fun k => ?_⟩
  · have before := sound.attached p (by rw [pending]; exact List.mem_cons_of_mem _ member)
    have different : p.1 ≠ key := by
      rintro rfl
      exact distinct.1 (List.mem_map.mpr ⟨p,member,rfl⟩)
    rw [visited.other p.1 different]
    exact before
  · by_cases same : k = key
    · exact Or.inl (by simp [same])
    · have before := sound.covered k
      rw [pending,List.map_cons,List.mem_cons] at before
      rcases before with done | (is | due) | after
      · exact Or.inl (List.mem_append_left _ done)
      · exact absurd is same
      · exact Or.inr (Or.inl due)
      · refine Or.inr (Or.inr ?_)
        rw [TreeIndex.records,visited.other k same]
        exact after

end IndexRun.Sound

namespace IndexSys.Sound

variable {σ : IndexSys}

theorem ordered (sound : σ.Sound) : σ.Ordered := ⟨sound.valid,sound.counted,sound.records,sound.deletes⟩

end IndexSys.Sound

theorem IndexSys.Ordered.sound (ordered : σ.Ordered) (compaction : ∀ run ∈ σ.compaction, run.Sound σ.index σ.current)
    (failed : σ.failed = none) : σ.Sound :=
  ⟨ordered.valid,ordered.counted,ordered.records,ordered.deletes,compaction,failed⟩

namespace IndexSys.Sound

variable {σ : IndexSys}

theorem new : IndexSys.new.Sound := Ordered.new.sound (fun run here => by cases here) rfl

theorem added (sound : σ.Sound) {changes : List (Bytes × Bool)} (opened : σ.writer = some ⟨changes,none⟩) {key : Bytes} {deleted : Bool}
    {index : TreeIndex} (added : σ.index.Added index key ⟨⟨σ.current + 1,changes.length⟩,deleted⟩) :
    IndexSys.Sound { σ with index := index, writer := some ⟨changes ++ [(key,deleted)],none⟩ } :=
  (sound.ordered.added opened added).sound (fun run here => (sound.compaction run here).added added (Int.lt_succ σ.current)) sound.failed

theorem closed (sound : σ.Sound) {current : Int} (le : σ.current ≤ current)
    (left : ∀ key, ∀ bk ∈ σ.inFlight key, bk.rev.main ≤ current) :
    IndexSys.Sound { σ with current := current, writer := none } :=
  (sound.ordered.closed le left).sound (fun run here => (sound.compaction run here).later le) sound.failed

theorem staged (sound : σ.Sound) {w : Option IndexWriter} (same : ∀ key, IndexSys.inFlight { σ with writer := w } key = σ.inFlight key) :
    IndexSys.Sound { σ with writer := w } :=
  (sound.ordered.staged same).sound sound.compaction sound.failed

theorem dropped (sound : σ.Sound) {changes : List (Bytes × Bool)} {change : Bytes × Bool} {committing : Bool}
    (opened : σ.writer = some ⟨changes ++ [change],some committing⟩)
    (keeps : ∀ run ∈ σ.compaction, change.1 ∈ run.pending.map (·.1) → 1 < (σ.index.records change.1).length) :
    σ.drop.Sound := by
  obtain ⟨ordered,split,present⟩ := sound.ordered.dropped opened
  rw [drop_last opened]
  generalize is : σ.index.dropRevision change.1 ⟨σ.current + 1,changes.length⟩ = index at ordered split present ⊢
  have other : ∀ k, k ≠ change.1 → index.find? k = σ.index.find? k := fun k different => by
    rw [← is,find_dropRevision,if_neg different]
  refine IndexSys.Ordered.sound ⟨ordered.valid,ordered.counted,ordered.records,ordered.deletes⟩ (fun run' here => ?_) sound.failed
  obtain ⟨run,at_,rfl⟩ := Option.mem_map.mp here
  have before := sound.compaction run at_
  have names : (run.detach index).pending.map (·.1) = run.pending.map (·.1) := by simp [IndexRun.detach,Function.comp_def]
  have stays : ∀ p ∈ run.pending, (index.find? p.1).isSome := by
    intro p member
    by_cases same : p.1 = change.1
    · have many := keeps run at_ (List.mem_map.mpr ⟨p,member,same⟩)
      rw [split,List.length_append,List.length_singleton] at many
      rw [same]
      exact present (List.ne_nil_of_length_pos (by omega))
    · rw [other p.1 same]
      exact (before.attached p member).2
  refine ⟨before.target,fun p member => ?_,by rw [names]; exact before.distinct,fun k => ?_⟩
  · obtain ⟨q,inside,rfl⟩ := List.mem_map.mp member
    refine ⟨?_,stays q inside⟩
    simp only [(before.attached q inside).1,stays q inside,Bool.and_self]
  · rw [names]
    refine (before.covered k).imp_right (Or.imp_right fun after bk member => after bk ?_)
    by_cases same : k = change.1
    · subst same
      rw [split]
      exact List.mem_append_left _ member
    · rwa [TreeIndex.records, other k same] at member

theorem returned (sound : σ.Sound) : IndexSys.Sound { σ with compaction := none } :=
  ⟨sound.valid,sound.counted,sound.records,sound.deletes,(fun run here => by cases here),sound.failed⟩

theorem cloned (sound : σ.Sound) {target : Int} (le : target ≤ σ.current) :
    IndexSys.Sound { σ with compaction := some ⟨target,[],σ.index.keys.map fun key => (key,true),[]⟩ } where
  valid := sound.valid
  counted := sound.counted
  records := sound.records
  deletes := sound.deletes
  compaction run here := by
    cases here
    have names : (σ.index.keys.map fun key => (key,true)).map (·.1) = σ.index.keys := by simp [Function.comp_def]
    refine ⟨le,fun p member => ?_,?_,fun key => ?_⟩
    · obtain ⟨key,inside,rfl⟩ := List.mem_map.mp member
      exact ⟨rfl,SortedMap.mem_keys.mp inside⟩
    · rw [names]
      exact (SortedMap.keys_sorted _).nodup
    · rw [names,SortedMap.mem_keys]
      cases found : σ.index.find? key with
      | none => exact Or.inr (Or.inr (by simp [TreeIndex.records,found]))
      | some ki => exact Or.inr (Or.inl rfl)
  failed := sound.failed

theorem visits (sound : σ.Sound) : σ.visit.Sound := by
  rw [visit]
  cases under : σ.compaction with
  | none => exact sound
  | some run =>
    have before := sound.compaction run under
    cases pending : run.pending with
    | nil =>
      simp only [pending]
      exact sound.returned
    | cons p rest =>
      obtain ⟨key,attached⟩ := p
      obtain ⟨is,present⟩ := before.attached (key,attached) (by rw [pending]; exact List.mem_cons_self)
      simp only at is present
      subst is
      obtain ⟨index,kept,result,visited⟩ := compactKey_visited sound.valid run.target run.avail present
      simp only [pending,if_true,result]
      have ordered := sound.ordered.visited before.target result visited
      refine IndexSys.Ordered.sound ⟨ordered.valid,ordered.counted,ordered.records,ordered.deletes⟩ (fun run' here => ?_) sound.failed
      cases here
      exact before.visited pending visited

/-- Every step keeps the invariant, unless `DropRevision` takes an item back that `Compact` has still to visit. -/
theorem step (sound : σ.Sound) {event : IndexEvent} (keeps : σ.Keeps event) : (σ.step event).Sound := by
  have moves := σ.step_moves event
  generalize σ.step event = σ' at moves ⊢
  cases moves with
  | idle => exact sound
  | staged same => exact sound.staged same
  | added opened added => exact sound.added opened (added sound.valid)
  | closed le left => exact sound.closed le left
  | dropped opened => exact sound.dropped opened fun run under => keeps _ opened run under _ (by simp)
  | cloned le => exact sound.cloned le
  | visit => exact sound.visits

end IndexSys.Sound

end Kave
