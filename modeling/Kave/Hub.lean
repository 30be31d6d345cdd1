import Kave.Watch

/-! The watch hub. Every watcher ever registered has its place in a list, and the two groups bind ids to places, so that a
    watcher keeps its identity when its id is bound to another one. -/

namespace Kave

inductive Group
  | synced
  | unsynced
deriving DecidableEq, Repr

def Group.other : Group → Group
  | .synced => .unsynced
  | .unsynced => .synced

@[simp] theorem Group.other_ne (g : Group) : g.other ≠ g := by cases g <;> exact fun same => by cases same

@[simp] theorem Group.other_other (g : Group) : g.other.other = g := by cases g <;> rfl

theorem Group.eq_other {g g' : Group} (different : g' ≠ g) : g' = g.other := by
  cases g <;> cases g' <;> first | rfl | exact absurd rfl different

/-- The watchers and the two groups. A group binds an id to an open watcher of that id, and no watcher is in both groups. -/
structure Hub where
  watchers : List Watcher
  members : Group → SortedMap Int Nat
  named : ∀ g id ref, (members g).find? id = some ref → ∃ w, watchers[ref]? = some w ∧ w.id = id ∧ w.c.closed = false
  apart : ∀ g g' id id' ref, (members g).find? id = some ref → (members g').find? id' = some ref → g = g'

structure WatchCreateRequest where
  watchID : Int
  key : Option Bytes
  endKey : Option Bytes
  isPrefix : Bool
  startRevision : Int
  filter : Option EventFilter
deriving DecidableEq, Repr

/-- `start_revision cannot be negative` -/
def WatchCreateRequest.check (r : WatchCreateRequest) : Bool := 0 ≤ r.startRevision

/-- `NewWatcher` after its first read of the store. -/
structure Creation where
  id : Int
  key : Bytes
  endKey : Option Bytes
  startRev : Int
  /-- The current revision of the store. -/
  currentMain : Int
  filter : Option EventFilter
deriving DecidableEq, Repr

/-- The first half of `NewWatcher`; `generated` is the id that is used if the request names none. -/
def Creation.begin (req : WatchCreateRequest) (generated currentMain : Int) : Creation where
  id := if req.watchID = 0 then generated else req.watchID
  key := req.key.getD []
  endKey := if req.isPrefix then prefixEnd (req.key.getD []) else req.endKey
  startRev := if req.startRevision = 0 then currentMain else req.startRevision
  currentMain := currentMain
  filter := req.filter

/-- The revision a synced watcher must have reached: a range is compared with the store, a single key with its entry. -/
def Creation.lastRevision (c : Creation) (s : KvStore) : Except KvError Int :=
  if c.endKey ≠ none then .ok c.currentMain else (s.range c.key none 0 0).map (·.lastRev)

def Creation.watcher (c : Creation) : Watcher where
  id := c.id
  keyStart := c.key
  keyEnd := c.endKey
  startRev := c.startRev
  currentRev := c.startRev
  filter := c.filter
  ctx := none
  c := .new watcherChannelBufferSize

theorem Creation.opened (c : Creation) : c.watcher.c.closed = false := rfl

inductive WatchError
  /-- `ErrWatcherIDConflict` -/
  | conflict
  | read (cause : KvError)
deriving DecidableEq, Repr

namespace Hub

def synced (h : Hub) : SortedMap Int Nat := h.members .synced

def unsynced (h : Hub) : SortedMap Int Nat := h.members .unsynced

/-- `NewWatchHub` -/
def new : Hub where
  watchers := []
  members _ := SortedMap.empty
  named _ _ _ found := by simp at found
  apart _ _ _ _ _ found := by simp at found

theorem lt_of_find {h : Hub} {g : Group} {id : Int} {ref : Nat} (found : (h.members g).find? id = some ref) :
    ref < h.watchers.length := by
  obtain ⟨w,here,-⟩ := h.named g id ref found
  exact (List.getElem?_eq_some_iff.mp here).1

/-- A watcher is in one group and under one id. -/
theorem unique {h : Hub} {g g' : Group} {id id' : Int} {ref : Nat} (found : (h.members g).find? id = some ref)
    (found' : (h.members g').find? id' = some ref) : g = g' ∧ id = id' := by
  obtain ⟨w,here,named,-⟩ := h.named g id ref found
  obtain ⟨w',here',named',-⟩ := h.named g' id' ref found'
  rw [here] at here'
  cases here'
  exact ⟨h.apart g g' id id' ref found found',named.symm.trans named'⟩

theorem mem_refs {h : Hub} {g : Group} {ref : Nat} :
    ref ∈ (h.members g).entries.map (·.2) ↔ ∃ id, (h.members g).find? id = some ref := by
  rw [List.mem_map]
  constructor
  · rintro ⟨e,member,rfl⟩
    exact ⟨e.1,SortedMap.mem_entries.mp member⟩
  · rintro ⟨id,found⟩
    exact ⟨(id,ref),SortedMap.mem_entries.mpr found,rfl⟩

theorem refs_nodup (h : Hub) (g : Group) : ((h.members g).entries.map (·.2)).Nodup := by
  refine List.pairwise_map.mpr ((h.members g).sorted.imp_of_mem fun {a b} first second less same => ?_)
  have found := SortedMap.mem_entries.mp first
  rw [same] at found
  have ids := (unique found (SortedMap.mem_entries.mp second)).2
  exact absurd less (by rw [ids]; exact lt_irrefl _)

/-! ### Changes of one watcher or one binding -/

def update (h : Hub) (ref : Nat) (f : Watcher → Watcher) (keeps : ∀ w, w.Same (f w) ∧ (f w).c.closed = w.c.closed) : Hub where
  watchers := h.watchers.modify ref f
  members := h.members
  named g id ref' found := by
    obtain ⟨w,here,named,opened⟩ := h.named g id ref' found
    rw [List.getElem?_modify, here]
    by_cases same : ref = ref'
    · exact ⟨f w,by simp [same],(keeps w).1.id.trans named,(keeps w).2.trans opened⟩
    · exact ⟨w,by simp [same],named,opened⟩
  apart := h.apart

/-- A new watcher at the end of the list. -/
def register (h : Hub) (g : Group) (w : Watcher) (opened : w.c.closed = false) : Hub where
  watchers := h.watchers ++ [w]
  members g' := if g' = g then (h.members g').insert w.id h.watchers.length else h.members g'
  named g' id ref found := by
    have old : (h.members g').find? id = some ref →
        ∃ w', (h.watchers ++ [w])[ref]? = some w' ∧ w'.id = id ∧ w'.c.closed = false := by
      intro bound
      obtain ⟨w',here,facts⟩ := h.named g' id ref bound
      exact ⟨w',by rw [List.getElem?_append_left (lt_of_find bound)]; exact here,facts⟩
    by_cases here : g' = g
    · simp only [here, if_true, SortedMap.find_insert] at found old
      by_cases same : id = w.id
      · rw [if_pos same] at found
        cases found
        exact ⟨w,by simp,same.symm,opened⟩
      · rw [if_neg same] at found
        exact old found
    · simp only [here, if_false] at found
      exact old found
  apart g₁ g₂ id₁ id₂ ref first second := by
    have cases_ : ∀ {g' : Group} {id : Int},
        (if g' = g then (h.members g').insert w.id h.watchers.length else h.members g').find? id = some ref →
        (g' = g ∧ ref = h.watchers.length) ∨ (h.members g').find? id = some ref := by
      intro g' id found
      by_cases here : g' = g
      · simp only [here, if_true, SortedMap.find_insert] at found
        by_cases same : id = w.id
        · rw [if_pos same] at found
          exact Or.inl ⟨here,(Option.some.inj found).symm⟩
        · rw [if_neg same] at found
          exact Or.inr (by rw [here]; exact found)
      · simp only [here, if_false] at found
        exact Or.inr found
    rcases cases_ first with ⟨g₁Is,new⟩ | old₁ <;> rcases cases_ second with ⟨g₂Is,new'⟩ | old₂
    · rw [g₁Is, g₂Is]
    · exact absurd (lt_of_find old₂) (by omega)
    · exact absurd (lt_of_find old₁) (by omega)
    · exact h.apart g₁ g₂ id₁ id₂ ref old₁ old₂

/-- `unsafeDropFromGroup`: the watcher is closed and leaves its group. -/
def drop (h : Hub) (g : Group) (id : Int) (cause : Cause) : Hub where
  watchers := match (h.members g).find? id with
    | none => h.watchers
    | some ref => h.watchers.modify ref (·.close cause)
  members g' := if g' = g then (h.members g').erase id else h.members g'
  named g' id' ref found := by
    have old : (h.members g').find? id' = some ref ∧ ¬ (g' = g ∧ id' = id) := by
      by_cases here : g' = g
      · simp only [here, if_true, SortedMap.find_erase] at found
        by_cases same : id' = id
        · rw [if_pos same] at found
          cases found
        · rw [if_neg same] at found
          exact ⟨by rw [here]; exact found,fun both => same both.2⟩
      · simp only [here, if_false] at found
        exact ⟨found,fun both => here both.1⟩
    obtain ⟨w,here,facts⟩ := h.named g' id' ref old.1
    refine ⟨w,?_,facts⟩
    split
    · exact here
    next closed bound =>
      have different : closed ≠ ref := by
        rintro rfl
        obtain ⟨sameGroup,sameId⟩ := unique old.1 bound
        exact old.2 ⟨sameGroup,sameId⟩
      rw [List.getElem?_modify, here]
      simp [different]
  apart g₁ g₂ id₁ id₂ ref first second := by
    have old : ∀ {g' : Group} {id' : Int},
        (if g' = g then (h.members g').erase id else h.members g').find? id' = some ref → (h.members g').find? id' = some ref := by
      intro g' id' found
      split at found
      · rw [SortedMap.find_erase] at found
        split at found
        · cases found
        · exact found
      · exact found
    exact h.apart g₁ g₂ id₁ id₂ ref (old first) (old second)

/-- A watcher changes its group; whoever has its id there loses the place. -/
def move (h : Hub) (g : Group) (id : Int) : Hub where
  watchers := h.watchers
  members g' := match (h.members g).find? id with
    | none => h.members g'
    | some ref => if g' = g then (h.members g').erase id else (h.members g').insert id ref
  named g' id' ref found := by
    split at found
    · exact h.named g' id' ref found
    next moved bound =>
      by_cases here : g' = g
      · rw [if_pos here, SortedMap.find_erase] at found
        split at found
        · cases found
        · exact h.named g' id' ref found
      · rw [if_neg here, SortedMap.find_insert] at found
        split at found
        next same =>
          cases found
          obtain ⟨w,at_,named,opened⟩ := h.named g id _ bound
          exact ⟨w,at_,named.trans same.symm,opened⟩
        next => exact h.named g' id' ref found
  apart g₁ g₂ id₁ id₂ ref first second := by
    split at first
    next none =>
      rw [none] at second
      exact h.apart g₁ g₂ id₁ id₂ ref first second
    next moved bound =>
      rw [bound] at second
      simp only at second
      -- in the old group the moved watcher is gone, in the other one it may be the new binding
      have old : ∀ {g' : Group} {id' : Int},
          (if g' = g then (h.members g').erase id else (h.members g').insert id moved).find? id' = some ref →
          g' ≠ g ∧ ref = moved ∨ (h.members g').find? id' = some ref ∧ (g' = g → id' ≠ id) := by
        intro g' id' found
        by_cases here : g' = g
        · rw [if_pos here, SortedMap.find_erase] at found
          split at found
          · cases found
          next different => exact Or.inr ⟨found,fun _ => different⟩
        · rw [if_neg here, SortedMap.find_insert] at found
          split at found
          · cases found
            exact Or.inl ⟨here,rfl⟩
          · exact Or.inr ⟨found,fun same => absurd same here⟩
      rcases old first with ⟨left,is⟩ | ⟨was,kept⟩ <;> rcases old second with ⟨left',is'⟩ | ⟨was',kept'⟩
      · rw [Group.eq_other left, Group.eq_other left']
      · rw [is] at was'
        obtain ⟨sameGroup,sameId⟩ := unique was' bound
        exact absurd sameId (kept' sameGroup)
      · rw [is'] at was
        obtain ⟨sameGroup,sameId⟩ := unique was bound
        exact absurd sameId (kept sameGroup)
      · exact h.apart g₁ g₂ id₁ id₂ ref was was'

def sentAt (h : Hub) (ref : Nat) : Option (List Event) := (h.watchers[ref]?).map (·.c.sent)

section

variable (h : Hub) (g : Group) (id id' : Int) (ref i : Nat) (cause : Cause)

theorem watchers_update {f : Watcher → Watcher} (keeps : ∀ w, w.Same (f w) ∧ (f w).c.closed = w.c.closed) :
    (h.update ref f keeps).watchers[i]? = if i = ref then (h.watchers[i]?).map f else h.watchers[i]? := by
  change (h.watchers.modify ref f)[i]? = _
  rw [List.getElem?_modify]
  by_cases same : i = ref
  · simp [same]
  · simp [same,Ne.symm same]

theorem watchers_register {w : Watcher} (opened : w.c.closed = false) :
    (h.register g w opened).watchers = h.watchers ++ [w] := rfl

theorem find_register {w : Watcher} (opened : w.c.closed = false) (g' : Group) :
    ((h.register g w opened).members g').find? id =
      if g' = g ∧ id = w.id then some h.watchers.length else (h.members g').find? id := by
  change (if g' = g then (h.members g').insert w.id h.watchers.length else h.members g').find? id = _
  by_cases here : g' = g <;> by_cases same : id = w.id <;> simp [here,same]

theorem watchers_drop : (h.drop g id cause).watchers[i]? =
    if (h.members g).find? id = some i then (h.watchers[i]?).map (·.close cause) else h.watchers[i]? := by
  rw [drop]
  simp only
  cases found : (h.members g).find? id with
  | none => simp
  | some ref =>
    simp only [List.getElem?_modify,Option.some.injEq]
    by_cases same : ref = i <;> simp [same]

theorem find_drop (g' : Group) : ((h.drop g id cause).members g').find? id' =
    if g' = g ∧ id' = id then none else (h.members g').find? id' := by
  change (if g' = g then (h.members g').erase id else h.members g').find? id' = _
  by_cases here : g' = g <;> by_cases same : id' = id <;> simp [here,same]

theorem find_move_self : ((h.move g id).members g).find? id' = if id' = id then none else (h.members g).find? id' := by
  rw [move]
  simp only
  cases found : (h.members g).find? id with
  | none =>
    by_cases same : id' = id
    · simp [same,found]
    · simp [same]
  | some ref => simp

theorem find_move_other : ((h.move g id).members g.other).find? id' =
    if id' = id then ((h.members g).find? id).or ((h.members g.other).find? id) else (h.members g.other).find? id' := by
  rw [move]
  simp only
  cases found : (h.members g).find? id with
  | none =>
    by_cases same : id' = id
    · simp [same]
    · simp [same]
  | some ref => simp

@[simp] theorem sentAt_drop : (h.drop g id cause).sentAt i = h.sentAt i := by
  rw [sentAt,watchers_drop,sentAt]
  split
  · rw [Option.map_map]
    rfl
  · rfl

@[simp] theorem sentAt_move : (h.move g id).sentAt i = h.sentAt i := rfl

end

/-! ### The operations of the hub -/

/-- The second half of `NewWatcher`, with the place of the new watcher. A conflict is looked for in one group only. -/
def newWatcher (h : Hub) (c : Creation) (s : KvStore) : Hub × Except WatchError Nat :=
  match c.lastRevision s with
  | .error e => (h,.error (.read e))
  | .ok lastRevision =>
    let g := if c.startRev ≥ lastRevision then Group.synced else Group.unsynced
    if ((h.members g).find? c.id).isSome then (h,.error .conflict)
    else (h.register g c.watcher c.opened,.ok h.watchers.length)

/-- A new watcher is refused, or is synced if it starts at the last revision or later and unsynced if not. -/
theorem newWatcher_cases (h : Hub) (c : Creation) (s : KvStore) :
    (∃ e, h.newWatcher c s = (h,.error e)) ∨
      ∃ g lastRevision, c.lastRevision s = .ok lastRevision ∧ (g = .synced ↔ c.startRev ≥ lastRevision) ∧
        (h.members g).find? c.id = none ∧ h.newWatcher c s = (h.register g c.watcher c.opened,.ok h.watchers.length) := by
  rw [newWatcher]
  cases read : c.lastRevision s with
  | error e => exact Or.inl ⟨_,rfl⟩
  | ok lastRevision =>
    have chosen : (if c.startRev ≥ lastRevision then Group.synced else .unsynced) = .synced ↔ c.startRev ≥ lastRevision := by
      split <;> simp [*]
    simp only
    generalize (if c.startRev ≥ lastRevision then Group.synced else .unsynced) = g at chosen ⊢
    by_cases bound : ((h.members g).find? c.id).isSome
    · exact Or.inl ⟨_,if_pos bound⟩
    · exact Or.inr ⟨g,lastRevision,rfl,chosen,Option.not_isSome_iff_eq_none.mp bound,if_neg bound⟩

def unsafeDemote (h : Hub) (id : Int) : Hub := h.move .synced id

def unsafePromote (h : Hub) (id : Int) : Hub := h.move .unsynced id

/-- `DropWatcher`: only one group is looked into if the first one has the id. -/
def dropWatcher (h : Hub) (id : Int) : Hub :=
  if (h.synced.find? id).isSome then h.drop .synced id .canceled else h.drop .unsynced id .canceled

def dropAll (h : Hub) : Hub :=
  let h := h.synced.keys.foldl (fun h id => h.drop .synced id .canceled) h
  h.unsynced.keys.foldl (fun h id => h.drop .unsynced id .canceled) h

/-- What `OnCommit` does with a watcher that could not be sent everything. -/
def applyRemoval (h : Hub) (r : Int × SendError) : Hub :=
  match r.2 with
  | .overloaded => h.unsafeDemote r.1
  | .canceled => h.drop .synced r.1 .canceled
  | .deadlineExceeded => h.drop .synced r.1 .deadlineExceeded

/-- The first loop of `OnCommit` for one watcher, with nothing in between. -/
def serve (events : List Event) (state : Hub × List (Int × SendError)) (member : Int × Nat) : Hub × List (Int × SendError) :=
  let (h,removals) := state
  match h.watchers[member.2]? with
  | none => (h,removals)
  | some w =>
    let h := h.update member.2 (fun w => (w.sendAll events).1) fun w => w.sendAll_same events
    match (w.sendAll events).2 with
    | .failed err => (h,removals ++ [(w.id,err)])
    | .complete | .panicked => (h,removals)

/-- `OnCommit`, with nothing in between. -/
def onCommit (h : Hub) (changes : List Entry) : Hub :=
  let (h,removals) := h.synced.entries.foldl (serve (toKvEvents changes)) (h,[])
  removals.foldl applyRemoval h

/-! What single removals and moves keep is kept by the operations made of them. -/

section

variable {P : Hub → Prop} {h : Hub}

theorem dropWatcher_keeps (start : P h) (drop : ∀ h g id cause, P h → P (h.drop g id cause)) (id : Int) : P (h.dropWatcher id) := by
  rw [dropWatcher]
  split <;> exact drop _ _ _ _ start

theorem dropAll_keeps (start : P h) (drop : ∀ h g id cause, P h → P (h.drop g id cause)) : P h.dropAll :=
  List.foldlRecOn _ _ (List.foldlRecOn _ _ start fun h kept _ _ => drop h _ _ _ kept) fun h kept _ _ => drop h _ _ _ kept

theorem removals_keep {removals : List (Int × SendError)} (start : P h)
    (drop : ∀ h id cause, P h → P (h.drop .synced id cause))
    (demote : ∀ h id, (id,SendError.overloaded) ∈ removals → P h → P (h.move .synced id)) : P (removals.foldl applyRemoval h) := by
  refine List.foldlRecOn _ _ start fun h kept r member => ?_
  obtain ⟨id,err⟩ := r
  cases err with
  | overloaded => exact demote h id member kept
  | canceled | deadlineExceeded => exact drop h _ _ kept

end

end Hub

/-! ### The unsynced loop -/

def unsyncedBatchSize : Nat := 32

/-- A tick after it has read the revisions of the store. -/
structure Tick where
  storeRev : Int
  compactedRev : Int
  /-- `unsyncedBatch` -/
  batch : List Nat
  /-- The part of the batch that is still to be visited. -/
  todo : List Nat
  /-- `deleteBatch` -/
  deletes : List (Int × Cause)
  /-- `promoteBatch` -/
  promotes : List Int
deriving DecidableEq, Repr

/-- `unsyncedFailures` -/
abbrev Failures := SortedMap Int Nat

namespace Tick

/-- The verdict about a watcher of the batch goes into the failures, the deletions or the promotions. -/
def record (t : Tick) (failures : Failures) (id : Int) : Watcher.Verdict → Failures × Tick
  | .delete cause => (failures,{ t with deletes := t.deletes ++ [(id,cause)] })
  | .promote => (failures,{ t with promotes := t.promotes ++ [id] })
  | .failed => (failures.insert id ((failures.find? id).getD 0 + 1),t)
  | .stays => (failures,t)

/-- The last part of a tick, under the lock of the hub. -/
def finish (t : Tick) (failures : Failures) (h : Hub) : Failures × Hub :=
  let h := t.deletes.foldl (fun h d => h.drop .unsynced d.1 d.2) h
  let h := t.promotes.foldl Hub.unsafePromote h
  ((t.deletes.map (·.1) ++ t.promotes).foldl SortedMap.erase failures,h)

theorem finish_keeps {P : Hub → Prop} {t : Tick} {h : Hub} (start : P h)
    (drop : ∀ h id cause, P h → P (h.drop .unsynced id cause))
    (promote : ∀ h id, id ∈ t.promotes → P h → P (h.move .unsynced id)) (failures : Failures) : P (t.finish failures h).2 :=
  List.foldlRecOn _ _ (List.foldlRecOn _ _ start fun h kept _ _ => drop h _ _ kept) fun h kept id member => promote h id member kept

theorem find_drops (deletes : List (Int × Cause)) (h : Hub) (id : Int) :
    (deletes.foldl (fun h d => h.drop .unsynced d.1 d.2) h).unsynced.find? id =
        (if id ∈ deletes.map (·.1) then none else h.unsynced.find? id) ∧
      (deletes.foldl (fun h d => h.drop .unsynced d.1 d.2) h).synced.find? id = h.synced.find? id := by
  induction deletes generalizing h with
  | nil => exact ⟨rfl,rfl⟩
  | cons d rest ih =>
    have unsynced : (h.drop .unsynced d.1 d.2).unsynced.find? id = if id = d.1 then none else h.unsynced.find? id := by
      rw [Hub.unsynced,Hub.find_drop]
      simp only [true_and]
      rfl
    have synced : (h.drop .unsynced d.1 d.2).synced.find? id = h.synced.find? id := by
      rw [Hub.synced,Hub.find_drop,if_neg (by simp)]
      rfl
    rw [List.foldl_cons,(ih _).1,(ih _).2,unsynced,synced]
    by_cases same : id = d.1
    · simp [same]
    · simp only [same,if_false,List.map_cons,List.mem_cons,false_or,and_self]

theorem find_promotes (promotes : List Int) (h : Hub) (id : Int) :
    (promotes.foldl Hub.unsafePromote h).synced.find? id =
      if id ∈ promotes then (h.unsynced.find? id).or (h.synced.find? id) else h.synced.find? id := by
  induction promotes generalizing h with
  | nil => rfl
  | cons first rest ih =>
    have self : (h.unsafePromote first).unsynced.find? id = if id = first then none else h.unsynced.find? id :=
      h.find_move_self .unsynced first id
    have other : (h.unsafePromote first).synced.find? id =
        if id = first then (h.unsynced.find? first).or (h.synced.find? first) else h.synced.find? id :=
      h.find_move_other .unsynced first id
    rw [List.foldl_cons,ih,self,other]
    by_cases same : id = first
    · subst same
      simp
    · simp [same]

/-- At the end of a tick the promoted watchers are synced, unless the tick has given up on them. -/
theorem find_finish (t : Tick) (failures : Failures) (h : Hub) (id : Int) :
    (t.finish failures h).2.synced.find? id =
      if id ∈ t.promotes then (if id ∈ t.deletes.map (·.1) then none else h.unsynced.find? id).or (h.synced.find? id)
      else h.synced.find? id := by
  change (t.promotes.foldl Hub.unsafePromote _).synced.find? id = _
  rw [find_promotes,(find_drops t.deletes h id).1,(find_drops t.deletes h id).2]

/-- One visit, with nothing in between. -/
def visit (s : KvStore) (state : Failures × Hub × Tick) (ref : Nat) : Failures × Hub × Tick :=
  let (failures,h,t) := state
  match h.watchers[ref]? with
  | none => state
  | some w =>
    let visited := fun w : Watcher =>
      w.visit ((failures.find? w.id).getD 0) t.storeRev t.compactedRev s.kvIndex s.backend.buckets.kv
    let h := h.update ref (fun w => (visited w).1) fun w => w.visit_same _ _ _ _ _
    let (failures,t) := t.record failures w.id (visited w).2
    (failures,h,t)

end Tick

/-- The batch is made of unsynced watchers, of all of them if they are not too many. -/
def Hub.Batch (h : Hub) (batch : List Nat) : Prop :=
  batch.Nodup ∧ (∀ ref ∈ batch, ref ∈ h.unsynced.entries.map (·.2)) ∧
    batch.length = min unsyncedBatchSize h.unsynced.entries.length

instance (h : Hub) (batch : List Nat) : Decidable (h.Batch batch) := inferInstanceAs (Decidable (_ ∧ _ ∧ _))

theorem Hub.Batch.ids {h : Hub} {batch : List Nat} (taken : h.Batch batch) {a b : Nat} (inA : a ∈ batch) (inB : b ∈ batch)
    {w w' : Watcher} (atA : h.watchers[a]? = some w) (atB : h.watchers[b]? = some w') (same : w.id = w'.id) : a = b := by
  obtain ⟨id,found⟩ := Hub.mem_refs.mp (taken.2.1 a inA)
  obtain ⟨id',found'⟩ := Hub.mem_refs.mp (taken.2.1 b inB)
  obtain ⟨x,atX,named,-⟩ := h.named .unsynced id a found
  obtain ⟨x',atX',named',-⟩ := h.named .unsynced id' b found'
  rw [atA] at atX
  rw [atB] at atX'
  cases atX
  cases atX'
  rw [← named,same,named'] at found
  exact Option.some.inj (found.symm.trans found')

/-- `tick` of the loop on the batch it takes, with nothing in between. -/
def UnsyncedLoop.tick (s : KvStore) (failures : Failures) (h : Hub) (batch : List Nat) : Failures × Hub :=
  let t : Tick := ⟨s.currentRev.main,s.compactedMainRev,batch,batch,[],[]⟩
  let (failures,h,t) := batch.foldl (Tick.visit s) (failures,h,t)
  t.finish failures h

end Kave
