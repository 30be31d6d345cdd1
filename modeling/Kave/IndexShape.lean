import Kave.LiveCompaction

/-! The shape of the key indexes. A writer changes the tree, takes its changes back if it is aborted, and any number of calls of
    `Compact` run beside it and beside each other, item by item. Whatever the interleaving, each key index in the tree has the shape
    that its functions rely on. -/

namespace Kave

open TreeIndex KeyIndex

/-! ### Several calls of `Compact` -/

/-- The tree with its writer and the call of `Compact` that is scheduled, and the calls that are not. -/
structure SharedIndex where
  base : IndexSys
  parked : List IndexRun

inductive SharedEvent
  | step (event : IndexEvent)
  /-- The scheduled call of `Compact` is put aside. -/
  | park
  /-- One that was put aside is scheduled. -/
  | resume (i : Nat)
deriving DecidableEq, Repr

namespace SharedIndex

def new : SharedIndex := ⟨.new,[]⟩

def step (σ : SharedIndex) : SharedEvent → SharedIndex
  -- an item that has left the tree has left it for every clone
  | .step event => ⟨σ.base.step event,σ.parked.map (·.detach (σ.base.step event).index)⟩
  | .park => ⟨{ σ.base with compaction := none },σ.parked ++ σ.base.compaction.toList⟩
  | .resume i =>
    match σ.base.compaction, σ.parked[i]? with
    | none, some run => ⟨{ σ.base with compaction := some run },σ.parked.eraseIdx i⟩
    | _, _ => σ

def run (σ : SharedIndex) (events : List SharedEvent) : SharedIndex := events.foldl step σ

end SharedIndex

/-! ### The shape -/

structure KeyIndex.Shape (ki : KeyIndex) : Prop where
  generations : ki.generations ≠ []
  closed : ∀ g ∈ ki.generations.dropLast, g.revs ≠ []
  -- within the generations and across them
  increasing : (allRevs ki.generations).Pairwise (· < ·)
  modRev : (allRevs ki.generations).getLast? = some ki.modRev
  versions : ∀ g ∈ ki.generations, g.revs.length ≤ g.version
  full : ki.isEmpty = false

namespace KeyIndex.WellFormed

variable {ki : KeyIndex}

theorem shape (wellFormed : ki.WellFormed) : ki.Shape := by
  obtain ⟨ended,current,lives⟩ := wellFormed
  have all : allRevs ki.generations = allRevs ended ++ current.revs := by
    rw [lives.generations,allRevs_append,allRevs_cons,allRevs_nil,List.append_nil]
  refine ⟨by simp [lives.generations],?_,by rw [all]; exact lives.sorted,by rw [all]; exact lives.newest,?_,lives.not_empty⟩
  · rw [lives.generations,List.dropLast_concat]
    exact lives.closed
  · rw [lives.generations]
    exact lives.counted

theorem get_ne_panic (wellFormed : ki.WellFormed) (t : Int) : ki.get t ≠ .error .panicOnEmptyKeyIndex := by
  rw [get,if_neg (by simp [wellFormed.shape.full])]
  split
  next => simp
  next => split <;> simp

theorem doCompact_isSome (wellFormed : ki.WellFormed) (t : Int) : (ki.doCompact t).isSome := by
  obtain ⟨ki',kept,run,-⟩ := wellFormed.compact t []
  rw [KeyIndex.compact,if_neg (by simp [wellFormed.shape.full])] at run
  cases access : ki.doCompact t with
  | none => simp [access] at run
  | some found => rfl

end KeyIndex.WellFormed

/-! ### What the interleaving keeps -/

theorem IndexSys.Moves.committed {σ σ' : IndexSys} {event : IndexEvent} (moves : σ.Moves event σ')
    (committed : ∀ run ∈ σ.compaction, run.target ≤ σ.current) :
    σ.current ≤ σ'.current ∧ ∀ run ∈ σ'.compaction, run.target ≤ σ'.current := by
  cases moves with
  | idle => exact ⟨le_rfl,committed⟩
  | staged same => exact ⟨le_rfl,committed⟩
  | added opened added => exact ⟨le_rfl,committed⟩
  | closed le left => exact ⟨le,fun run here => (committed run here).trans le⟩
  | dropped opened =>
    rw [drop_last opened]
    refine ⟨le_rfl,fun run' here => ?_⟩
    obtain ⟨run,at_,rfl⟩ := Option.mem_map.mp here
    exact committed run at_
  | cloned le =>
    refine ⟨le_rfl,fun run here => ?_⟩
    cases here
    exact le
  | visit =>
    rw [IndexSys.visit]
    cases under : σ.compaction with
    | none => exact ⟨le_rfl,fun run here => by simp [under] at here⟩
    | some run =>
      have le := committed run under
      dsimp only
      split
      next => exact ⟨le_rfl,fun run here => by cases here⟩
      next key attached rest pending =>
        split
        next =>
          split
          next => exact ⟨le_rfl,fun run here => by cases here⟩
          next =>
            refine ⟨le_rfl,fun run' here => ?_⟩
            cases here
            exact le
        next => exact ⟨le_rfl,fun run here => by cases here⟩

/-- The tree is in order, and every `Compact` has a committed target. -/
structure SharedIndex.Ordered (σ : SharedIndex) : Prop where
  base : σ.base.Ordered
  scheduled : ∀ run ∈ σ.base.compaction, run.target ≤ σ.base.current
  parked : ∀ run ∈ σ.parked, run.target ≤ σ.base.current

namespace SharedIndex.Ordered

variable {σ : SharedIndex}

theorem new : SharedIndex.new.Ordered := ⟨.new,(fun run here => by cases here),(fun run here => by cases here)⟩

theorem step (ordered : σ.Ordered) (event : SharedEvent) : (σ.step event).Ordered := by
  cases event with
  | step event =>
    obtain ⟨le,scheduled⟩ := (σ.base.step_moves event).committed ordered.scheduled
    refine ⟨ordered.base.step ordered.scheduled event,scheduled,fun run' here => ?_⟩
    obtain ⟨run,inside,rfl⟩ := List.mem_map.mp here
    exact (ordered.parked run inside).trans le
  | park =>
    refine ⟨⟨ordered.base.valid,ordered.base.counted,ordered.base.records,ordered.base.deletes⟩,(fun run here => by cases here),
      fun run here => ?_⟩
    rcases List.mem_append.mp here with old | own
    · exact ordered.parked run old
    · exact ordered.scheduled run (Option.mem_toList.mp own)
  | resume i =>
    rw [SharedIndex.step]
    split
    next run free at_ =>
      refine ⟨⟨ordered.base.valid,ordered.base.counted,ordered.base.records,ordered.base.deletes⟩,fun run' here => ?_,
        fun run' here => ordered.parked run' (List.mem_of_mem_eraseIdx here)⟩
      cases here
      exact ordered.parked run (List.mem_of_getElem? at_)
    next => exact ordered

theorem run (ordered : σ.Ordered) (events : List SharedEvent) : (σ.run events).Ordered := by
  induction events generalizing σ with
  | nil => exact ordered
  | cons event rest ih => exact ih (ordered.step event)

end SharedIndex.Ordered

/-- In every interleaving of a writer, of the undoing of its changes and of calls of `Compact`, every key index in the tree has its
    shape, and neither the panic of `get` nor an access out of range in `doCompact` is reached from it. -/
theorem key_indexes_keep_shape (events : List SharedEvent) (key : Bytes) (ki : KeyIndex)
    (found : (SharedIndex.new.run events).base.index.find? key = some ki) :
    ki.Shape ∧ (∀ t, ki.get t ≠ .error .panicOnEmptyKeyIndex) ∧ ∀ t, (ki.doCompact t).isSome := by
  obtain ⟨-,wellFormed⟩ := (SharedIndex.Ordered.new.run events).base.valid key ki found
  exact ⟨wellFormed.shape,wellFormed.get_ne_panic,wellFormed.doCompact_isSome⟩

/-- Two calls of `Compact`, the second before the first, beside a writer that puts "a" again and is aborted. -/
theorem key_indexes_keep_shape_beside_two_compacts :
    let events : List SharedEvent := [.step .begin,.step (.put [97]),.step .commit,.step .begin,.step (.tombstone [97]),.step (.put [97]),
      .step .commit,.step (.compact 1),.park,.step .begin,.step (.put [97]),.step (.compact 2),.step .visit,.step (.undo false),.step .drop,
      .park,.resume 0,.step .visit]
    let ki : KeyIndex := ⟨[97],⟨2,1⟩,[⟨2,⟨1,0⟩,[⟨2,0⟩]⟩,⟨1,⟨2,1⟩,[⟨2,1⟩]⟩]⟩
    (SharedIndex.new.run events).base.index.find? [97] = some ki ∧ ki.Shape := by
  intro events ki
  have found : (SharedIndex.new.run events).base.index.find? [97] = some ki := by decide
  exact ⟨found,(key_indexes_keep_shape events [97] ki found).1⟩

end Kave
