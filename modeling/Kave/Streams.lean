import Kave.WatchSys

/-! Watch streams over one hub. A stream knows its watchers by their ids, and has a goroutine for each that hands events on to
    its output channel. `Watch`, `Cancel` and `Close` of one stream follow each other, as its map of watchers requires; apart
    from that the steps of all streams, goroutines and of the hub come in any order. The input channel, which nothing uses, and
    the responses are left out. -/

namespace Kave

def streamEventBufferSize : Nat := 4

inductive StreamEvent
  /-- `putEvent` and `deleteEvent`, which are the same. -/
  | event (wid : Int) (e : Event)
  /-- `cancelEvent` -/
  | canceled (wid : Int) (cause : Cause)
deriving DecidableEq, Repr

def toStreamEvent (wid : Int) (e : Event) : StreamEvent := .event wid e

/-- How far `Close` has come: `closed` is set and the context canceled, the watchers are dropped, the output is closed. -/
inductive Phase
  | opened
  | canceled
  | dropped
  | closed
deriving DecidableEq, Repr

structure Stream where
  phase : Phase
  /-- The context is done. -/
  done : Bool
  watchers : SortedMap Int Nat
  outputC : Chan StreamEvent

/-- Where a `runWatcher` is. -/
inductive RunStage
  /-- At the select of its loop. -/
  | collecting
  /-- Before a select between sending and the context of the stream. -/
  | offering (e : StreamEvent)
  /-- Waiting in that select. -/
  | parked (e : StreamEvent)
  /-- Before the deferred function. -/
  | leaving
  /-- Before the call of `DropWatcher`. -/
  | dropping
  | ended
deriving DecidableEq, Repr

structure Runner where
  stream : Nat
  stage : RunStage
deriving DecidableEq, Repr

/-- After an event the goroutine goes on collecting; after the report of a cause it drops the watcher. -/
def StreamEvent.afterSent : StreamEvent → RunStage
  | .event _ _ => .collecting
  | .canceled _ _ => .dropping

/-- If the context of the stream is done, the loop is left; a report is given up, and the watcher dropped all the same. -/
def StreamEvent.afterDone : StreamEvent → RunStage
  | .event _ _ => .leaving
  | .canceled _ _ => .dropping

structure StreamSys where
  base : WatchSys
  streams : List Stream
  /-- The goroutine of every watcher, at the place of the watcher. -/
  runners : List Runner
  /-- The stream whose `Watch` holds the lock. -/
  creator : Option Nat

/-- The ready case that a select takes. -/
inductive Choice
  | watcherDone
  | streamDone
  | channel
deriving DecidableEq, Repr

inductive StreamAct
  /-- A step of a commit, of the loop, of the store or of a context. -/
  | inner (act : Act)
  | newStream
  /-- The context that the stream was created with is done. -/
  | cancelStream (s : Nat)
  | beginWatch (s : Nat) (req : WatchCreateRequest) (generated : Int)
  | endWatch
  | cancel (s : Nat) (id : Int)
  | beginClose (s : Nat)
  | dropWatchers (s : Nat)
  | closeOutput (s : Nat)
  | run (ref : Nat) (choice : Choice)
  /-- Whoever reads the output takes an event, and a goroutine that waits to send gets its turn. -/
  | output (s : Nat) (next : Nat)
deriving DecidableEq, Repr

/-- Watchers come and go, and their channels are read, through streams only. -/
def Act.inner : Act → Bool
  | .beginWatcher _ _ | .endWatcher | .receive _ | .dropWatcher _ => false
  | _ => true

/-- The watcher that `DropWatcher` closes. -/
def Hub.picks (h : Hub) (id : Int) : Option Nat := (h.synced.find? id).or (h.unsynced.find? id)

section

variable {h : Hub} {id : Int}

theorem Hub.picks_cases (h : Hub) (id : Int) :
    ∃ g, h.dropWatcher id = h.drop g id .canceled ∧ h.picks id = (h.members g).find? id := by
  rw [dropWatcher,picks]
  cases bound : h.synced.find? id with
  | some ref => exact ⟨.synced,rfl,bound.symm⟩
  | none => exact ⟨.unsynced,rfl,rfl⟩

theorem Hub.watchers_dropWatcher (h : Hub) (id : Int) (i : Nat) : (h.dropWatcher id).watchers[i]? =
    if h.picks id = some i then (h.watchers[i]?).map (·.close .canceled) else h.watchers[i]? := by
  obtain ⟨g,run,picks⟩ := h.picks_cases id
  rw [run,picks,watchers_drop]

theorem Hub.find_dropWatcher (h : Hub) (id : Int) (g : Group) (id' : Int) (ref : Nat) :
    ((h.dropWatcher id).members g).find? id' = some ref ↔ (h.members g).find? id' = some ref ∧ h.picks id ≠ some ref := by
  obtain ⟨g',run,picks⟩ := h.picks_cases id
  rw [run,picks,find_drop]
  constructor
  · intro bound
    split at bound
    · cases bound
    next other =>
      refine ⟨bound,fun bound' => other ?_⟩
      obtain ⟨same,same'⟩ := Hub.unique bound bound'
      exact ⟨same,same'⟩
  · rintro ⟨bound,kept⟩
    rw [if_neg]
    · exact bound
    · rintro ⟨rfl,rfl⟩
      exact kept bound

end

namespace Stream

/-- `NewStream` -/
def new : Stream := ⟨.opened,false,SortedMap.empty,.new streamEventBufferSize⟩

def cancel (s : Stream) : Stream := { s with done := true }

end Stream

namespace StreamSys

def new : StreamSys := ⟨.new,[],[],none⟩

def hub (σ : StreamSys) : Hub := σ.base.hub

/-- The goroutine gets to a stage. -/
def goto (σ : StreamSys) (ref : Nat) (stage : RunStage) : StreamSys :=
  { σ with runners := σ.runners.modify ref fun r => { r with stage := stage } }

def onStream (σ : StreamSys) (s : Nat) (f : Stream → Stream) : StreamSys := { σ with streams := σ.streams.modify s f }

/-! ### The operations of a stream -/

/-- `Watch` up to the second half of `NewWatcher`. -/
def beginWatch (σ : StreamSys) (s : Nat) (req : WatchCreateRequest) (generated : Int) : StreamSys :=
  match σ.streams[s]?, σ.base.lock with
  | some stream, .free =>
    if stream.phase = .opened ∧ req.check = true then
      { σ with base := σ.base.step (.beginWatcher req generated), creator := some s }
    else σ
  | _, _ => σ

/-- The stream has a new watcher, and a goroutine for it. The map of the stream is its own affair, so that it can change at once
    with the hub. -/
def spawn (σ : StreamSys) (s : Nat) (id : Int) (ref : Nat) : StreamSys where
  base := σ.base.step .endWatcher
  streams := σ.streams.modify s fun stream => { stream with watchers := stream.watchers.insert id ref }
  runners := σ.runners ++ [⟨s,.collecting⟩]
  creator := none

/-- The rest of `Watch`. -/
def endWatch (σ : StreamSys) : StreamSys :=
  match σ.base.lock, σ.creator with
  | .creating c, some s =>
    match (σ.hub.newWatcher c σ.base.store).2 with
    | .error _ => { σ with base := σ.base.step .endWatcher, creator := none }
    | .ok ref => σ.spawn s c.id ref
  | _, _ => σ

def cancel (σ : StreamSys) (s : Nat) (id : Int) : StreamSys :=
  match σ.streams[s]?, σ.base.lock with
  | some stream, .free =>
    if stream.phase = .opened then { σ with base := σ.base.step (.dropWatcher id) } else σ
  | _, _ => σ

def beginClose (σ : StreamSys) (s : Nat) : StreamSys :=
  match σ.streams[s]? with
  | some stream =>
    if stream.phase = .opened ∧ σ.creator ≠ some s then σ.onStream s fun stream => { stream.cancel with phase := .canceled } else σ
  | none => σ

def dropWatchers (σ : StreamSys) (s : Nat) : StreamSys :=
  match σ.streams[s]?, σ.base.lock with
  | some stream, .free =>
    if stream.phase = .canceled then
      { σ.onStream s fun stream => { stream with phase := .dropped } with
        base := σ.base.run (stream.watchers.keys.map .dropWatcher) }
    else σ
  | _, _ => σ

def closeOutput (σ : StreamSys) (s : Nat) : StreamSys :=
  match σ.streams[s]? with
  | some stream =>
    if stream.phase = .dropped then σ.onStream s fun stream => { stream with phase := .closed, outputC := stream.outputC.close } else σ
  | none => σ

/-! ### The goroutines -/

/-- Where the deferred function gets to first, with the stream intact. -/
def deferred (w : Watcher) : RunStage :=
  match w.ctx with
  | some cause => if cause = .canceled then .dropping else .offering (.canceled w.id cause)
  | none => .dropping

/-- The next step of `runWatcher`. -/
def runWatcher (σ : StreamSys) (ref : Nat) (r : Runner) (w : Watcher) (s : Stream) (choice : Choice) : StreamSys :=
  match r.stage, choice with
  | .collecting, .watcherDone => if w.ctx.isSome then σ.goto ref .leaving else σ
  | .collecting, .streamDone => if s.done then σ.goto ref .leaving else σ
  | .collecting, .channel =>
    match w.c.receive.2 with
    | some e => { σ with base := σ.base.step (.receive ref) }.goto ref (.offering (toStreamEvent w.id e))
    | none => if w.c.closed then σ.goto ref .leaving else σ
  | .offering e, .channel =>
    match s.outputC.send e with
    | .ok c => (σ.onStream r.stream fun s => { s with outputC := c }).goto ref e.afterSent
    | .error .closed => { σ with base := { σ.base with panicked := true } }
    | .error .full => if s.done then σ else σ.goto ref (.parked e)
  | .offering e, .streamDone => if s.done then σ.goto ref e.afterDone else σ
  | .offering _, .watcherDone => σ
  | .parked e, _ => if s.done then σ.goto ref e.afterDone else σ
  | .leaving, _ => σ.goto ref (if s.done then .ended else deferred w)
  | .dropping, _ =>
    if σ.base.lock = .free then { σ with base := σ.base.step (.dropWatcher w.id) }.goto ref .ended else σ
  | .ended, _ => σ

/-- A step of the goroutine of the watcher at a place. -/
def runnerStep (σ : StreamSys) (ref : Nat) (choice : Choice) : StreamSys :=
  match σ.runners[ref]?, σ.hub.watchers[ref]? with
  | some r, some w =>
    match σ.streams[r.stream]? with
    | some s => σ.runWatcher ref r w s choice
    | none => σ
  | _, _ => σ

/-- The output is read. What a waiting goroutine has for it takes the place that becomes free, unless the goroutine has been
    woken by the context. -/
def output (σ : StreamSys) (s next : Nat) : StreamSys :=
  match σ.streams[s]? with
  | none => σ
  | some stream =>
    let c := stream.outputC.receive.1
    let read := σ.onStream s fun stream => { stream with outputC := c }
    match σ.runners[next]? with
    | some ⟨s',.parked e⟩ =>
      if s' = s ∧ stream.done = false then
        match c.send e with
        | .ok c => (σ.onStream s fun stream => { stream with outputC := c }).goto next e.afterSent
        | .error _ => read
      else read
    | _ => read

/-! ### Runs -/

/-- An act that has to wait, or is not due, changes nothing. -/
def act (σ : StreamSys) : StreamAct → StreamSys
  | .inner act => if act.inner then { σ with base := σ.base.step act } else σ
  | .newStream => { σ with streams := σ.streams ++ [.new] }
  | .cancelStream s => σ.onStream s .cancel
  | .beginWatch s req generated => σ.beginWatch s req generated
  | .endWatch => σ.endWatch
  | .cancel s id => σ.cancel s id
  | .beginClose s => σ.beginClose s
  | .dropWatchers s => σ.dropWatchers s
  | .closeOutput s => σ.closeOutput s
  | .run ref choice => σ.runnerStep ref choice
  | .output s next => σ.output s next

/-- One step. After a panic nothing happens any more. -/
def step (σ : StreamSys) (act : StreamAct) : StreamSys := if σ.base.panicked then σ else σ.act act

def run (σ : StreamSys) (acts : List StreamAct) : StreamSys := acts.foldl step σ

/-! ### What a step does -/

section

variable (σ : StreamSys)

theorem streams_onStream (s i : Nat) (f : Stream → Stream) :
    (σ.onStream s f).streams[i]? = if i = s then (σ.streams[i]?).map f else σ.streams[i]? := by
  change (σ.streams.modify s f)[i]? = _
  rw [List.getElem?_modify]
  by_cases same : i = s
  · simp [same]
  · simp [same,Ne.symm same]

theorem runners_goto (ref i : Nat) (stage : RunStage) :
    (σ.goto ref stage).runners[i]? = if i = ref then (σ.runners[i]?).map fun r => { r with stage := stage } else σ.runners[i]? := by
  change (σ.runners.modify ref _)[i]? = _
  rw [List.getElem?_modify]
  by_cases same : i = ref
  · simp [same]
  · simp [same,Ne.symm same]

end

theorem hub_endWatcher {σ : StreamSys} (alive : σ.base.panicked = false) {c : Creation} (held : σ.base.lock = .creating c) :
    (σ.base.step .endWatcher).hub = (σ.hub.newWatcher c σ.base.store).1 := by
  rw [WatchSys.step,alive]
  change σ.base.endWatcher.hub = _
  rw [WatchSys.endWatcher,held]
  rfl

theorem spawned {σ : StreamSys} (aligned : σ.runners.length = σ.hub.watchers.length) {s : Nat} {c : Creation} {ref : Nat} {r : Runner}
    {w : Watcher} (at_ : (σ.runners ++ [⟨s,.collecting⟩])[ref]? = some r) (here : (σ.hub.watchers ++ [c.watcher])[ref]? = some w) :
    ref < σ.hub.watchers.length ∧ σ.runners[ref]? = some r ∧ σ.hub.watchers[ref]? = some w ∨ r = ⟨s,.collecting⟩ ∧ w = c.watcher := by
  by_cases old : ref < σ.runners.length
  · rw [List.getElem?_append_left old] at at_
    rw [aligned] at old
    rw [List.getElem?_append_left old] at here
    exact Or.inl ⟨old,at_,here⟩
  · rw [List.getElem?_append_right (not_lt.mp old)] at at_
    rw [aligned] at old
    rw [List.getElem?_append_right (not_lt.mp old)] at here
    exact Or.inr ⟨List.mem_singleton.mp (List.mem_of_getElem? at_),List.mem_singleton.mp (List.mem_of_getElem? here)⟩

/-- The steps that change something, with what they find. -/
inductive Stepped (σ : StreamSys) : StreamAct → StreamSys → Prop
  | waits {act : StreamAct} : Stepped σ act σ
  | inner {act : Act} (own : act.inner = true) : Stepped σ (.inner act) { σ with base := σ.base.step act }
  | newStream : Stepped σ .newStream { σ with streams := σ.streams ++ [.new] }
  | cancelStream {s : Nat} : Stepped σ (.cancelStream s) (σ.onStream s .cancel)
  | beginWatch {s : Nat} {req : WatchCreateRequest} {generated : Int} {stream : Stream} (at_ : σ.streams[s]? = some stream)
      (opened : stream.phase = .opened) (free : σ.base.lock = .free) :
      Stepped σ (.beginWatch s req generated) { σ with
        base := σ.base.step (.beginWatcher req generated), creator := some s }
  | failsWatch {c : Creation} {e : WatchError} (held : σ.base.lock = .creating c)
      (failed : σ.hub.newWatcher c σ.base.store = (σ.hub,.error e)) :
      Stepped σ .endWatch { σ with base := σ.base.step .endWatcher, creator := none }
  | endWatch {c : Creation} {s : Nat} {g : Group} (held : σ.base.lock = .creating c) (creator : σ.creator = some s)
      (free : (σ.hub.members g).find? c.id = none)
      (created : σ.hub.newWatcher c σ.base.store = (σ.hub.register g c.watcher c.opened,.ok σ.hub.watchers.length)) :
      Stepped σ .endWatch (σ.spawn s c.id σ.hub.watchers.length)
  | cancel {s : Nat} {id : Int} {stream : Stream} (at_ : σ.streams[s]? = some stream) (opened : stream.phase = .opened)
      (free : σ.base.lock = .free) : Stepped σ (.cancel s id) { σ with base := σ.base.step (.dropWatcher id) }
  | beginClose {s : Nat} {stream : Stream} (at_ : σ.streams[s]? = some stream) (opened : stream.phase = .opened)
      (apart : σ.creator ≠ some s) :
      Stepped σ (.beginClose s) (σ.onStream s fun stream => { stream.cancel with phase := .canceled })
  | dropWatchers {s : Nat} {stream : Stream} (at_ : σ.streams[s]? = some stream) (canceled : stream.phase = .canceled)
      (free : σ.base.lock = .free) :
      Stepped σ (.dropWatchers s) { σ.onStream s fun stream => { stream with phase := .dropped } with
        base := σ.base.run (stream.watchers.keys.map .dropWatcher) }
  | closeOutput {s : Nat} {stream : Stream} (at_ : σ.streams[s]? = some stream) (dropped : stream.phase = .dropped) :
      Stepped σ (.closeOutput s) (σ.onStream s fun stream => { stream with phase := .closed, outputC := stream.outputC.close })
  | leaves {ref : Nat} {choice : Choice} {r : Runner} (at_ : σ.runners[ref]? = some r) (stage : r.stage = .collecting) :
      Stepped σ (.run ref choice) (σ.goto ref .leaving)
  | takes {ref : Nat} {choice : Choice} {r : Runner} {w : Watcher} {e : Event} (at_ : σ.runners[ref]? = some r)
      (stage : r.stage = .collecting) (here : σ.hub.watchers[ref]? = some w) (got : w.c.receive.2 = some e) :
      Stepped σ (.run ref choice)
        ({ σ with base := σ.base.step (.receive ref) }.goto ref (.offering (toStreamEvent w.id e)))
  | sends {ref : Nat} {choice : Choice} {r : Runner} {stream : Stream} {e : StreamEvent} {c : Chan StreamEvent}
      (at_ : σ.runners[ref]? = some r) (stage : r.stage = .offering e) (of : σ.streams[r.stream]? = some stream)
      (opened : stream.outputC.closed = false) (sent : stream.outputC.Sent e c) :
      Stepped σ (.run ref choice) ((σ.onStream r.stream fun stream => { stream with outputC := c }).goto ref e.afterSent)
  | panics {ref : Nat} {choice : Choice} {r : Runner} {stream : Stream} {e : StreamEvent} (at_ : σ.runners[ref]? = some r)
      (stage : r.stage = .offering e) (of : σ.streams[r.stream]? = some stream) (closed : stream.outputC.closed = true) :
      Stepped σ (.run ref choice) { σ with base := { σ.base with panicked := true } }
  | parks {ref : Nat} {choice : Choice} {r : Runner} {e : StreamEvent} (at_ : σ.runners[ref]? = some r)
      (stage : r.stage = .offering e) : Stepped σ (.run ref choice) (σ.goto ref (.parked e))
  | givesUp {ref : Nat} {choice : Choice} {r : Runner} {e : StreamEvent} (at_ : σ.runners[ref]? = some r)
      (stage : r.stage = .offering e ∨ r.stage = .parked e) : Stepped σ (.run ref choice) (σ.goto ref e.afterDone)
  | defers {ref : Nat} {choice : Choice} {r : Runner} {w : Watcher} {stream : Stream} (at_ : σ.runners[ref]? = some r)
      (stage : r.stage = .leaving) (here : σ.hub.watchers[ref]? = some w) (of : σ.streams[r.stream]? = some stream) :
      Stepped σ (.run ref choice) (σ.goto ref (if stream.done then .ended else deferred w))
  | drops {ref : Nat} {choice : Choice} {r : Runner} {w : Watcher} (at_ : σ.runners[ref]? = some r) (stage : r.stage = .dropping)
      (here : σ.hub.watchers[ref]? = some w) (free : σ.base.lock = .free) :
      Stepped σ (.run ref choice) ({ σ with base := σ.base.step (.dropWatcher w.id) }.goto ref .ended)
  | output {s next : Nat} {stream : Stream} (at_ : σ.streams[s]? = some stream) :
      Stepped σ (.output s next) (σ.onStream s fun stream' => { stream' with outputC := stream.outputC.receive.1 })
  | handsOver {s next : Nat} {stream : Stream} {e : StreamEvent} {c : Chan StreamEvent} (at_ : σ.streams[s]? = some stream)
      (runner : σ.runners[next]? = some ⟨s,.parked e⟩) (opened : stream.outputC.closed = false)
      (sent : stream.outputC.receive.1.Sent e c) :
      Stepped σ (.output s next) ((σ.onStream s fun stream => { stream with outputC := c }).goto next e.afterSent)

section

variable {σ : StreamSys} {ref : Nat} {r : Runner} {w : Watcher} {stream : Stream}

theorem runWatcher_cases (at_ : σ.runners[ref]? = some r) (here : σ.hub.watchers[ref]? = some w)
    (of : σ.streams[r.stream]? = some stream) (choice : Choice) :
    σ.Stepped (.run ref choice) (σ.runWatcher ref r w stream choice) := by
  cases stage : r.stage with
  | collecting =>
    have leaves : ∀ b : Bool, σ.Stepped (.run ref choice) (if b then σ.goto ref .leaving else σ) := by
      intro b
      cases b
      · exact .waits
      · exact .leaves at_ stage
    cases choice with
    | watcherDone =>
      simp only [runWatcher,stage]
      exact leaves _
    | streamDone =>
      simp only [runWatcher,stage]
      exact leaves _
    | channel =>
      simp only [runWatcher,stage]
      cases got : w.c.receive.2 with
      | some e => exact .takes at_ stage here got
      | none => exact leaves _
  | offering e =>
    cases choice with
    | watcherDone =>
      simp only [runWatcher,stage]
      exact .waits
    | streamDone =>
      simp only [runWatcher,stage]
      split
      · exact .givesUp at_ (Or.inl stage)
      · exact .waits
    | channel =>
      simp only [runWatcher,stage]
      rcases stream.outputC.send_cases e with ⟨closed,run⟩ | ⟨opened,full,run⟩ | ⟨opened,room,c,run,sent⟩ <;> simp only [run]
      · exact .panics at_ stage of closed
      · split
        · exact .waits
        · exact .parks at_ stage
      · exact .sends at_ stage of opened sent
  | parked e =>
    simp only [runWatcher,stage]
    split
    · exact .givesUp at_ (Or.inr stage)
    · exact .waits
  | leaving =>
    simp only [runWatcher,stage]
    exact .defers at_ stage here of
  | dropping =>
    simp only [runWatcher,stage]
    split
    next free => exact .drops at_ stage here free
    next => exact .waits
  | ended =>
    simp only [runWatcher,stage]
    exact .waits

theorem output_cases (σ : StreamSys) (s next : Nat) : σ.Stepped (.output s next) (σ.output s next) := by
  rw [output]
  cases at_ : σ.streams[s]? with
  | none => exact .waits
  | some stream =>
    simp only
    split
    next s' e runner =>
      split
      next own =>
        obtain ⟨rfl,-⟩ := own
        rcases stream.outputC.receive.1.send_cases e with ⟨closed,run⟩ | ⟨opened,full,run⟩ | ⟨opened,room,c,run,sent⟩ <;> rw [run]
        · exact .output at_
        · exact .output at_
        · rw [Chan.closed_receive] at opened
          exact .handsOver at_ runner opened sent
      next => exact .output at_
    next => exact .output at_

theorem endWatch_cases (σ : StreamSys) : σ.Stepped .endWatch σ.endWatch := by
  rw [endWatch]
  split
  next c s held creator =>
    rcases σ.hub.newWatcher_cases c σ.base.store with ⟨e,run⟩ | ⟨g,lastRevision,read,chosen,free,run⟩
    · simp only [run]
      exact .failsWatch held run
    · simp only [run]
      exact .endWatch held creator free run
  next => exact .waits

theorem act_cases (σ : StreamSys) (act : StreamAct) : σ.Stepped act (σ.act act) := by
  cases act with
  | inner act =>
    rw [StreamSys.act]
    split
    next own => exact .inner own
    next => exact .waits
  | newStream => exact .newStream
  | cancelStream s => exact .cancelStream
  | beginWatch s req generated =>
    rw [StreamSys.act,beginWatch]
    split
    next at_ free =>
      split
      next ok => exact .beginWatch at_ ok.1 free
      next => exact .waits
    next => exact .waits
  | endWatch => exact σ.endWatch_cases
  | cancel s id =>
    rw [StreamSys.act,cancel]
    split
    next at_ free =>
      split
      next opened => exact .cancel at_ opened free
      next => exact .waits
    next => exact .waits
  | beginClose s =>
    rw [StreamSys.act,beginClose]
    split
    next at_ =>
      split
      next ok => exact .beginClose at_ ok.1 ok.2
      next => exact .waits
    next => exact .waits
  | dropWatchers s =>
    rw [StreamSys.act,dropWatchers]
    split
    next at_ free =>
      split
      next canceled => exact .dropWatchers at_ canceled free
      next => exact .waits
    next => exact .waits
  | closeOutput s =>
    rw [StreamSys.act,closeOutput]
    split
    next at_ =>
      split
      next dropped => exact .closeOutput at_ dropped
      next => exact .waits
    next => exact .waits
  | run ref choice =>
    rw [StreamSys.act,runnerStep]
    split
    next r w at_ here =>
      split
      next of => exact runWatcher_cases at_ here of choice
      next => exact .waits
    next => exact .waits
  | output s next => exact σ.output_cases s next

/-- Every step is one of these. -/
theorem step_cases (σ : StreamSys) (act : StreamAct) : σ.Stepped act (σ.step act) := by
  rw [step]
  split
  · exact .waits
  · exact σ.act_cases act

end

end StreamSys

end Kave
