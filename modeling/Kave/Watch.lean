import Kave.Chan
import Kave.Concurrent
import Kave.Command

/-! Watchers, the hub that holds them in two groups, and the loop that feeds those that lag behind. Logging and metrics are
    left out, as is the flag for previous entries, which nothing reads. -/

namespace Kave

inductive EventKind
  | put
  | delete
deriving DecidableEq, Repr

/-- A filter of events; the type of the source is a text, of which any other value is `unknown`. -/
inductive EventFilter
  | noPut
  | noDelete
  | unknown
deriving DecidableEq, Repr

structure Event where
  kind : EventKind
  entry : Entry
deriving DecidableEq, Repr

def Entry.tombstone (e : Entry) : Bool := e.key ≠ [] ∧ e.value.getD [] = []

def toKvEvent (e : Entry) : Event := ⟨if e.tombstone then .delete else .put,e⟩

def toKvEvents (entries : List Entry) : List Event := entries.map toKvEvent

/-- What the context of a watcher was canceled with. -/
inductive Cause
  | canceled
  | deadlineExceeded
  /-- `ErrCompacted` -/
  | compacted
  /-- `watcher has reached failure limit` -/
  | failureLimit
deriving DecidableEq, Repr

inductive SendError
  | canceled
  | deadlineExceeded
  /-- `ErrWatcherOverloaded` -/
  | overloaded
deriving DecidableEq, Repr

/-- `Err` of a context that is done. -/
def Cause.err : Cause → SendError
  | .deadlineExceeded => .deadlineExceeded
  | .canceled | .compacted | .failureLimit => .canceled

theorem Cause.err_ne_overloaded (cause : Cause) : cause.err ≠ .overloaded := by
  cases cause <;> exact fun same => by cases same

def watcherChannelBufferSize : Nat := 128

structure Watcher where
  id : Int
  keyStart : Bytes
  keyEnd : Option Bytes
  startRev : Int
  currentRev : Int
  filter : Option EventFilter
  /-- The cause of its context, once that is done. -/
  ctx : Option Cause
  c : Chan Event

namespace Watcher

/-- The cancel function of the context; only the first cause counts. -/
def cancel (w : Watcher) (cause : Cause) : Watcher := { w with ctx := w.ctx.or (some cause) }

def close (w : Watcher) (cause : Cause) : Watcher := { w.cancel cause with c := w.c.close }

/-- The kind of the event passes the filter. -/
def passes (w : Watcher) (e : Event) : Bool :=
  match w.filter with
  | some .noPut => e.kind ≠ .put
  | some .noDelete => e.kind ≠ .delete
  | some .unknown | none => true

/-- The key of the event is watched. -/
def covers (w : Watcher) (key : Bytes) : Bool :=
  let stop := w.keyEnd.getD []
  if w.keyStart = [] ∧ stop = [] then true
  else if stop = [] then key = w.keyStart
  else w.keyStart ≤ key ∧ key < stop

/-- `matches` of the source. -/
def accepts (w : Watcher) (e : Event) : Bool := w.passes e && w.covers e.entry.key

/-! ### Sending -/

/-- How `send` goes on after its tests. -/
inductive Offer
  | failed (e : SendError)
  | skipped
  | ready
deriving DecidableEq, Repr

/-- The tests of `send`. -/
def offer (w : Watcher) (e : Event) : Offer :=
  match w.ctx with
  | some cause => .failed cause.err
  | none =>
    if w.accepts e = false then .skipped
    else if e.entry.modRev ≤ w.currentRev then .skipped
    else .ready

inductive Selected
  | failed (e : SendError)
  | sent
  | panicked
deriving DecidableEq, Repr

/-- The watcher after `sendAll` has sent an event. -/
def sent (w : Watcher) (e : Event) (c : Chan Event) : Watcher :=
  { w with c := c, currentRev := if e.entry.modRev > w.currentRev then e.entry.modRev else w.currentRev }

/-- The select of `send`. If the context is done, `takeDone` tells which of two ready cases is taken; sending on a closed
    channel is ready, and panics. -/
def select (w : Watcher) (e : Event) (takeDone : Bool) : Watcher × Selected :=
  match w.ctx, w.c.send e with
  | some cause, .error .full => (w,.failed cause.err)
  | none, .error .full => (w,.failed .overloaded)
  | some cause, .error .closed => (w,if takeDone then .failed cause.err else .panicked)
  | none, .error .closed => (w,.panicked)
  | some cause, .ok c => if takeDone then (w,.failed cause.err) else (w.sent e c,.sent)
  | none, .ok c => (w.sent e c,.sent)

/-- How a `sendAll` ends. -/
inductive FeedEnd
  | complete
  | failed (e : SendError)
  | panicked
deriving DecidableEq, Repr

/-- `sendAll`, with nothing in between. -/
def sendAll : List Event → Watcher → Watcher × FeedEnd
  | [], w => (w,.complete)
  | e :: rest, w =>
    match w.offer e with
    | .failed err => (w,.failed err)
    | .skipped => sendAll rest w
    | .ready =>
      match w.select e true with
      | (w,.failed err) => (w,.failed err)
      | (w,.sent) => sendAll rest w
      | (w,.panicked) => (w,.panicked)

/-! ### One visit of the unsynced loop -/

def unsynchedFailureLimit : Nat := 5

/-- What the loop decides about a watcher. -/
inductive Verdict
  | delete (cause : Cause)
  | promote
  /-- `incFailures` -/
  | failed
  | stays
deriving DecidableEq, Repr

/-- The first part of a visit: the watcher is decided about, or lacks the listed records. -/
def look (w : Watcher) (failures : Nat) (storeRev compactedRev : Int) (kvIndex : TreeIndex) :
    Watcher × (Verdict ⊕ List KvBucketKey) :=
  if failures ≥ unsynchedFailureLimit ∨ w.ctx.isSome then (w,.inl (.delete .failureLimit))
  else if w.currentRev < compactedRev then (w,.inl (.delete .compacted))
  else
    let revs := kvIndex.revisionsRange w.keyStart w.keyEnd w.currentRev (storeRev + 1)
    if revs = [] then ({ w with currentRev := storeRev },.inl .promote) else (w,.inr revs)

/-- The records of the revisions as events, unless one of them is missing. -/
def fetch (kv : KvBucket) (revs : List KvBucketKey) : Option (List Event) := revs.mapM fun bk => (kv.find? bk).map toKvEvent

theorem fetch_eq_some {kv : KvBucket} {revs : List KvBucketKey} {events : List Event} :
    fetch kv revs = some events ↔ revs.map (fun bk => (kv.find? bk).map toKvEvent) = events.map some := by
  rw [fetch]
  induction revs generalizing events with
  | nil =>
    cases events with
    | nil => simp
    | cons e rest => simp
  | cons bk rest ih =>
    rw [List.mapM_cons,List.map_cons]
    cases (kv.find? bk).map toKvEvent with
    | none => cases events <;> simp
    | some e =>
      cases events with
      | nil => cases rest.mapM fun bk => (kv.find? bk).map toKvEvent <;> simp
      | cons e' rest' =>
        rw [List.map_cons,List.cons_eq_cons,← ih]
        cases rest.mapM fun bk => (kv.find? bk).map toKvEvent <;> simp

/-- `highestRev`: the revision of the last event. -/
def highestRev (events : List Event) : Int := (events.getLast?.map (·.entry.modRev)).getD 0

/-- The last part of a visit. -/
def conclude (w : Watcher) (ended : FeedEnd) (highest : Int) : Verdict :=
  match ended with
  | .failed .canceled => .delete .canceled
  | .failed .overloaded => .failed
  | .failed .deadlineExceeded | .complete | .panicked => if w.currentRev ≥ highest then .promote else .stays

/-- The whole visit, with nothing in between. -/
def visit (w : Watcher) (failures : Nat) (storeRev compactedRev : Int) (kvIndex : TreeIndex) (kv : KvBucket) :
    Watcher × Verdict :=
  match w.look failures storeRev compactedRev kvIndex with
  | (w,.inl verdict) => (w,verdict)
  | (w,.inr revs) =>
    match fetch kv revs with
    | none => (w,.failed)
    | some events =>
      let (w,ended) := w.sendAll events
      (w,w.conclude ended (highestRev events))

/-! ### What these keep -/

/-- Only what a watcher has been sent, its revision and its context ever change. -/
structure Same (w w' : Watcher) : Prop where
  id : w'.id = w.id
  keyStart : w'.keyStart = w.keyStart
  keyEnd : w'.keyEnd = w.keyEnd
  startRev : w'.startRev = w.startRev
  filter : w'.filter = w.filter

theorem Same.refl (w : Watcher) : w.Same w := ⟨rfl,rfl,rfl,rfl,rfl⟩

theorem Same.trans {w w' w'' : Watcher} (first : w.Same w') (second : w'.Same w'') : w.Same w'' :=
  ⟨second.id.trans first.id,second.keyStart.trans first.keyStart,second.keyEnd.trans first.keyEnd,
    second.startRev.trans first.startRev,second.filter.trans first.filter⟩

theorem Same.accepts {w w' : Watcher} (same : w.Same w') (e : Event) : w'.accepts e = w.accepts e := by
  rw [Watcher.accepts,Watcher.accepts,passes,passes,covers,covers,same.filter,same.keyStart,same.keyEnd]

/-- The revision and what was sent are the same as well. -/
structure Like (w w' : Watcher) : Prop extends w.Same w' where
  currentRev : w'.currentRev = w.currentRev
  sent : w'.c.sent = w.c.sent

theorem Like.refl (w : Watcher) : w.Like w := ⟨.refl w,rfl,rfl⟩

theorem Like.trans {w w' w'' : Watcher} (first : w.Like w') (second : w'.Like w'') : w.Like w'' :=
  ⟨first.toSame.trans second.toSame,second.currentRev.trans first.currentRev,second.sent.trans first.sent⟩

theorem Like.cancel (w : Watcher) (cause : Cause) : w.Like (w.cancel cause) := ⟨⟨rfl,rfl,rfl,rfl,rfl⟩,rfl,rfl⟩

theorem Like.close (w : Watcher) (cause : Cause) : w.Like (w.close cause) := ⟨⟨rfl,rfl,rfl,rfl,rfl⟩,rfl,rfl⟩

theorem Like.receive (w : Watcher) : w.Like { w with c := w.c.receive.1 } := ⟨⟨rfl,rfl,rfl,rfl,rfl⟩,rfl,w.c.sent_receive⟩

/-- The outcomes of the select: the event is sent, or the watcher is as it was. -/
theorem select_cases (w : Watcher) (e : Event) (takeDone : Bool) :
    (∃ c, w.c.Sent e c ∧ w.c.closed = false ∧ w.select e takeDone = (w.sent e c,.sent)) ∨
    (∃ cause, w.ctx = some cause ∧ w.select e takeDone = (w,.failed cause.err)) ∨
    w.c.free = 0 ∧ w.select e takeDone = (w,.failed .overloaded) ∨
    w.c.closed = true ∧ w.select e takeDone = (w,.panicked) := by
  rw [select]
  rcases w.c.send_cases e with ⟨closed,run⟩ | ⟨-,full,run⟩ | ⟨opened,-,c,run,sent⟩ <;> rw [run]
  · cases done : w.ctx with
    | none => exact Or.inr (Or.inr (Or.inr ⟨closed,rfl⟩))
    | some cause =>
      cases takeDone with
      | true => exact Or.inr (Or.inl ⟨cause,rfl,rfl⟩)
      | false => exact Or.inr (Or.inr (Or.inr ⟨closed,rfl⟩))
  · cases done : w.ctx with
    | none => exact Or.inr (Or.inr (Or.inl ⟨full,rfl⟩))
    | some cause => exact Or.inr (Or.inl ⟨cause,rfl,rfl⟩)
  · cases done : w.ctx with
    | none => exact Or.inl ⟨c,sent,opened,rfl⟩
    | some cause =>
      cases takeDone with
      | true => exact Or.inr (Or.inl ⟨cause,rfl,rfl⟩)
      | false => exact Or.inl ⟨c,sent,opened,rfl⟩

theorem select_same (w : Watcher) (e : Event) (takeDone : Bool) :
    w.Same (w.select e takeDone).1 ∧ (w.select e takeDone).1.c.closed = w.c.closed := by
  rcases w.select_cases e takeDone with ⟨c,sent,-,run⟩ | ⟨cause,-,run⟩ | ⟨-,run⟩ | ⟨-,run⟩ <;> rw [run]
  · exact ⟨⟨rfl,rfl,rfl,rfl,rfl⟩,sent.closed⟩
  all_goals exact ⟨.refl w,rfl⟩

theorem sendAll_same (events : List Event) (w : Watcher) :
    w.Same (w.sendAll events).1 ∧ (w.sendAll events).1.c.closed = w.c.closed := by
  induction events generalizing w with
  | nil => exact ⟨.refl w,rfl⟩
  | cons e rest ih =>
    rw [sendAll]
    cases w.offer e with
    | failed err => exact ⟨.refl w,rfl⟩
    | skipped => exact ih w
    | ready =>
      have one := w.select_same e true
      generalize w.select e true = run at one ⊢
      obtain ⟨w₁,outcome⟩ := run
      cases outcome with
      | failed err | panicked => exact one
      | sent => exact ⟨one.1.trans (ih w₁).1,(ih w₁).2.trans one.2⟩

theorem look_cases (w : Watcher) (failures : Nat) (storeRev compactedRev : Int) (kvIndex : TreeIndex) :
    (∃ cause, w.look failures storeRev compactedRev kvIndex = (w,.inl (.delete cause))) ∨
    compactedRev ≤ w.currentRev ∧
      ((kvIndex.revisionsRange w.keyStart w.keyEnd w.currentRev (storeRev + 1) = [] ∧
          w.look failures storeRev compactedRev kvIndex = ({ w with currentRev := storeRev },.inl .promote)) ∨
        w.look failures storeRev compactedRev kvIndex =
          (w,.inr (kvIndex.revisionsRange w.keyStart w.keyEnd w.currentRev (storeRev + 1)))) := by
  rw [look]
  split
  · exact Or.inl ⟨_,rfl⟩
  · split
    · exact Or.inl ⟨_,rfl⟩
    next kept =>
      refine Or.inr ⟨not_lt.mp kept,?_⟩
      simp only
      split
      next none => exact Or.inl ⟨none,rfl⟩
      next => exact Or.inr rfl

theorem look_same (w : Watcher) (failures : Nat) (storeRev compactedRev : Int) (kvIndex : TreeIndex) :
    w.Same (w.look failures storeRev compactedRev kvIndex).1 ∧ (w.look failures storeRev compactedRev kvIndex).1.c = w.c := by
  rcases w.look_cases failures storeRev compactedRev kvIndex with ⟨cause,run⟩ | ⟨-,⟨-,run⟩ | run⟩ <;> rw [run]
  · exact ⟨.refl w,rfl⟩
  · exact ⟨⟨rfl,rfl,rfl,rfl,rfl⟩,rfl⟩
  · exact ⟨.refl w,rfl⟩

theorem visit_same (w : Watcher) (failures : Nat) (storeRev compactedRev : Int) (kvIndex : TreeIndex) (kv : KvBucket) :
    w.Same (w.visit failures storeRev compactedRev kvIndex kv).1 ∧
      (w.visit failures storeRev compactedRev kvIndex kv).1.c.closed = w.c.closed := by
  have first := w.look_same failures storeRev compactedRev kvIndex
  rw [visit]
  generalize w.look failures storeRev compactedRev kvIndex = run at first ⊢
  obtain ⟨w₁,outcome⟩ := run
  have closed : w₁.c.closed = w.c.closed := congrArg Chan.closed first.2
  cases outcome with
  | inl verdict => exact ⟨first.1,closed⟩
  | inr revs =>
    simp only
    cases fetch kv revs with
    | none => exact ⟨first.1,closed⟩
    | some events => exact ⟨first.1.trans (w₁.sendAll_same events).1,(w₁.sendAll_same events).2.trans closed⟩

end Watcher

end Kave
