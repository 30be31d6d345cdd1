import Kave.ChangeLog
import Kave.Hub

/-! The watch hub at work: commits that are announced under its lock, watchers that come and go, and the loop, which takes the
    lock at the start and at the end of a tick only. Every step is what one goroutine does between two points at which another
    one can get in its way. Deletions by leases, which no observer is told of, are left out. -/

namespace Kave

/-- A `sendAll` on its way. The first event of `todo` may have passed the tests of `send` already. -/
structure Feed where
  ref : Nat
  todo : List Event
  tested : Bool
deriving DecidableEq, Repr

inductive Fed
  | running (f : Feed)
  | ended (e : Watcher.FeedEnd)
deriving DecidableEq, Repr

/-- The next step of a `sendAll`: the tests for an event, or the select. -/
def Feed.step (f : Feed) (h : Hub) (takeDone : Bool) : Hub × Fed :=
  match h.watchers[f.ref]?, f.todo with
  | none, _ => (h,.ended .complete)
  | some _, [] => (h,.ended .complete)
  | some w, e :: rest =>
    if f.tested then
      let h := h.update f.ref (fun w => (w.select e takeDone).1) fun w => w.select_same e takeDone
      match (w.select e takeDone).2 with
      | .failed err => (h,.ended (.failed err))
      | .sent => (h,.running ⟨f.ref,rest,false⟩)
      | .panicked => (h,.ended .panicked)
    else
      match w.offer e with
      | .failed err => (h,.ended (.failed err))
      | .skipped => (h,.running ⟨f.ref,rest,false⟩)
      | .ready => (h,.running ⟨f.ref,f.todo,true⟩)

/-- An `OnCommit` that holds the lock. -/
structure Commit where
  events : List Event
  /-- The synced watchers that are still to be served. -/
  todo : List Nat
  feed : Option Feed
  removals : List (Int × SendError)
deriving DecidableEq, Repr

/-- A watcher that could not be sent everything is to be removed from its group. -/
def Commit.ended (c : Commit) (h : Hub) (ref : Nat) : Watcher.FeedEnd → Commit
  | .failed err => { c with feed := none, removals := c.removals ++ ((h.watchers[ref]?).map fun w => (w.id,err)).toList }
  | .complete | .panicked => { c with feed := none }

/-- Who holds the lock of the hub between two steps. -/
inductive Lock
  | free
  | committing (c : Commit)
  | creating (c : Creation)
deriving DecidableEq, Repr

/-- Where the loop is within its visits. -/
inductive Work
  | next
  | looked (ref : Nat) (revs : List KvBucketKey)
  | feeding (f : Feed) (highest : Int)
deriving DecidableEq, Repr

inductive Loop
  | idle
  | taken (batch : List Nat)
  | ticking (t : Tick) (work : Work)
deriving DecidableEq, Repr

structure WatchSys where
  sys : Sys
  /-- The records of all changes ever committed, which no code reads. -/
  log : List (KvBucketKey × Entry)
  /-- The changes of a commit that `OnCommit` is still to be called with, or is working on. -/
  pending : Option (List Entry)
  hub : Hub
  lock : Lock
  loop : Loop
  failures : Failures
  panicked : Bool

inductive Act
  | txn (ops : List Op)
  | compact (rev : Int)
  | advance (i : Nat)
  | beginCommit
  | serve (ref : Nat)
  | send (takeDone : Bool)
  | endCommit
  | beginWatcher (req : WatchCreateRequest) (generated : Int)
  | endWatcher
  /-- The context that a watcher was created with is done. -/
  | cancel (ref : Nat) (cause : Cause)
  | receive (ref : Nat)
  | dropWatcher (id : Int)
  | dropAll
  | take (batch : List Nat)
  | readRevisions
  | look (ref : Nat)
  | fetch
  | feed (takeDone : Bool)
  | finish
deriving DecidableEq, Repr

/-- The tick with one watcher less to visit. -/
def Tick.visiting (t : Tick) (ref : Nat) : Tick := { t with todo := t.todo.erase ref }

theorem Tick.todo_visiting {t : Tick} {ref ref' : Nat} (member : ref' ∈ (t.visiting ref).todo) : ref' ∈ t.todo :=
  List.mem_of_mem_erase member

namespace WatchSys

def new : WatchSys := ⟨.new,[],none,.new,.free,.idle,SortedMap.empty,false⟩

def store (σ : WatchSys) : KvStore := σ.sys.store

/-- The revision of the newest commit. -/
def current (σ : WatchSys) : Int := σ.store.currentRev.main

/-! ### The steps of the goroutine that applies the log -/

def txn (σ : WatchSys) (ops : List Op) : WatchSys :=
  if σ.pending = none then
    let sys := σ.sys.step (.txn ops)
    { σ with sys := sys, log := σ.log ++ σ.store.newRecords sys.store, pending := σ.store.txnChanges ops }
  else σ

def compact (σ : WatchSys) (rev : Int) : WatchSys :=
  if σ.pending = none then { σ with sys := σ.sys.step (.compact rev) } else σ

def beginCommit (σ : WatchSys) : WatchSys :=
  match σ.pending, σ.lock with
  | some changes, .free => { σ with lock := .committing ⟨toKvEvents changes,σ.hub.synced.entries.map (·.2),none,[]⟩ }
  | _, _ => σ

def serve (σ : WatchSys) (ref : Nat) : WatchSys :=
  match σ.lock with
  | .committing ⟨events,todo,none,removals⟩ =>
    if ref ∈ todo then { σ with lock := .committing ⟨events,todo.erase ref,some ⟨ref,events,false⟩,removals⟩ } else σ
  | _ => σ

def send (σ : WatchSys) (takeDone : Bool) : WatchSys :=
  match σ.lock with
  | .committing ⟨events,todo,some f,removals⟩ =>
    match f.step σ.hub takeDone with
    | (h,.running f) => { σ with hub := h, lock := .committing ⟨events,todo,some f,removals⟩ }
    | (h,.ended e) =>
      { σ with hub := h, lock := .committing (Commit.ended ⟨events,todo,some f,removals⟩ h f.ref e),
               panicked := e = .panicked }
  | _ => σ

def endCommit (σ : WatchSys) : WatchSys :=
  match σ.lock with
  | .committing ⟨_,[],none,removals⟩ =>
    { σ with hub := removals.foldl Hub.applyRemoval σ.hub, lock := .free, pending := none }
  | _ => σ

/-! ### Watchers come and go -/

def beginWatcher (σ : WatchSys) (req : WatchCreateRequest) (generated : Int) : WatchSys :=
  match σ.lock with
  | .free => { σ with lock := .creating (Creation.begin req generated σ.current) }
  | _ => σ

def endWatcher (σ : WatchSys) : WatchSys :=
  match σ.lock with
  | .creating c => { σ with hub := (σ.hub.newWatcher c σ.store).1, lock := .free }
  | _ => σ

def cancel (σ : WatchSys) (ref : Nat) (cause : Cause) : WatchSys :=
  { σ with hub := σ.hub.update ref (·.cancel cause) fun _ => ⟨⟨rfl,rfl,rfl,rfl,rfl⟩,rfl⟩ }

/-- Whoever reads the channel of a watcher takes an event out of it. -/
def receive (σ : WatchSys) (ref : Nat) : WatchSys :=
  { σ with hub := σ.hub.update ref (fun w => { w with c := w.c.receive.1 }) fun w => ⟨⟨rfl,rfl,rfl,rfl,rfl⟩,w.c.closed_receive⟩ }

def dropWatcher (σ : WatchSys) (id : Int) : WatchSys :=
  match σ.lock with
  | .free => { σ with hub := σ.hub.dropWatcher id }
  | _ => σ

def dropAll (σ : WatchSys) : WatchSys :=
  match σ.lock with
  | .free => { σ with hub := σ.hub.dropAll }
  | _ => σ

/-! ### The steps of the loop -/

def take (σ : WatchSys) (batch : List Nat) : WatchSys :=
  match σ.loop, σ.lock with
  | .idle, .free => if σ.hub.Batch batch then { σ with loop := .taken batch } else σ
  | _, _ => σ

def readRevisions (σ : WatchSys) : WatchSys :=
  match σ.loop with
  | .taken batch => { σ with loop := .ticking ⟨σ.current,σ.store.compactedMainRev,batch,batch,[],[]⟩ .next }
  | _ => σ

/-- The verdict about a watcher ends its visit. -/
def conclude (σ : WatchSys) (t : Tick) (id : Int) (verdict : Watcher.Verdict) : WatchSys :=
  let (failures,t) := t.record σ.failures id verdict
  { σ with failures := failures, loop := .ticking t .next }

def look (σ : WatchSys) (ref : Nat) : WatchSys :=
  match σ.loop, σ.hub.watchers[ref]? with
  | .ticking t .next, some w =>
    if ref ∈ t.todo then
      let looked := fun w : Watcher => w.look ((σ.failures.find? w.id).getD 0) t.storeRev t.compactedRev σ.store.kvIndex
      let h := σ.hub.update ref (fun w => (looked w).1)
        fun w => ⟨(w.look_same _ _ _ _).1,congrArg Chan.closed (w.look_same _ _ _ _).2⟩
      match (looked w).2 with
      | .inl verdict => conclude { σ with hub := h } (t.visiting ref) w.id verdict
      | .inr revs => { σ with hub := h, loop := .ticking (t.visiting ref) (.looked ref revs) }
    else σ
  | _, _ => σ

def fetch (σ : WatchSys) : WatchSys :=
  match σ.loop with
  | .ticking t (.looked ref revs) =>
    match σ.hub.watchers[ref]?, Watcher.fetch σ.store.backend.buckets.kv revs with
    | some w, none => σ.conclude t w.id .failed
    | _, some events => { σ with loop := .ticking t (.feeding ⟨ref,events,false⟩ (Watcher.highestRev events)) }
    | none, none => σ
  | _ => σ

def feed (σ : WatchSys) (takeDone : Bool) : WatchSys :=
  match σ.loop with
  | .ticking t (.feeding f highest) =>
    match f.step σ.hub takeDone with
    | (h,.running f) => { σ with hub := h, loop := .ticking t (.feeding f highest) }
    | (h,.ended e) =>
      match h.watchers[f.ref]? with
      | none => { σ with hub := h, loop := .ticking t .next }
      | some w => { conclude { σ with hub := h } t w.id (w.conclude e highest) with panicked := e = .panicked }
  | _ => σ

def finish (σ : WatchSys) : WatchSys :=
  match σ.loop, σ.lock with
  | .ticking t .next, .free =>
    if t.todo = [] then
      { σ with hub := (t.finish σ.failures σ.hub).2, failures := (t.finish σ.failures σ.hub).1, loop := .idle }
    else σ
  | _, _ => σ

/-- An act that has to wait, or is not due, changes nothing. -/
def act (σ : WatchSys) : Act → WatchSys
  | .txn ops => σ.txn ops
  | .compact rev => σ.compact rev
  | .advance i => { σ with sys := σ.sys.step (.advance i) }
  | .beginCommit => σ.beginCommit
  | .serve ref => σ.serve ref
  | .send takeDone => σ.send takeDone
  | .endCommit => σ.endCommit
  | .beginWatcher req generated => σ.beginWatcher req generated
  | .endWatcher => σ.endWatcher
  | .cancel ref cause => σ.cancel ref cause
  | .receive ref => σ.receive ref
  | .dropWatcher id => σ.dropWatcher id
  | .dropAll => σ.dropAll
  | .take batch => σ.take batch
  | .readRevisions => σ.readRevisions
  | .look ref => σ.look ref
  | .fetch => σ.fetch
  | .feed takeDone => σ.feed takeDone
  | .finish => σ.finish

/-- One step. After a panic nothing happens any more. -/
def step (σ : WatchSys) (act : Act) : WatchSys := if σ.panicked then σ else σ.act act

def run (σ : WatchSys) (acts : List Act) : WatchSys := acts.foldl step σ

end WatchSys

/-! ### What a step does -/

structure Hub.Updated (h : Hub) (ref : Nat) (w w' : Watcher) (h' : Hub) : Prop where
  here : h.watchers[ref]? = some w
  after : ∀ i, h'.watchers[i]? = if i = ref then some w' else h.watchers[i]?
  members : h'.members = h.members

variable {w : Watcher} {ref : Nat} {h : Hub}

theorem Hub.updated (here : h.watchers[ref]? = some w) (f : Watcher → Watcher)
    (keeps : ∀ w, w.Same (f w) ∧ (f w).c.closed = w.c.closed) : h.Updated ref w (f w) (h.update ref f keeps) := by
  refine ⟨here,fun i => ?_,rfl⟩
  rw [watchers_update]
  by_cases same : i = ref
  · rw [if_pos same,if_pos same,same,here]
    rfl
  · rw [if_neg same,if_neg same]

theorem Hub.eq_of_watchers {h h' : Hub} (watchers : ∀ i : Nat, h'.watchers[i]? = h.watchers[i]?)
    (members : h'.members = h.members) : h' = h := by
  have same : h'.watchers = h.watchers := List.ext_getElem? watchers
  obtain ⟨_,_,_,_⟩ := h
  obtain ⟨_,_,_,_⟩ := h'
  cases members
  cases same
  rfl

theorem Hub.update_missing (missing : h.watchers[ref]? = none) {f : Watcher → Watcher}
    {keeps : ∀ w, w.Same (f w) ∧ (f w).c.closed = w.c.closed} : h.update ref f keeps = h := by
  refine eq_of_watchers (fun i => ?_) rfl
  rw [watchers_update]
  split
  next is =>
    rw [is,missing]
    rfl
  next => rfl

theorem Hub.Updated.eq_self {h h' : Hub} (updated : h.Updated ref w w h') : h' = h := by
  refine eq_of_watchers (fun i => ?_) updated.members
  rw [updated.after]
  split
  next is => rw [is,updated.here]
  next => rfl

/-- A `sendAll` goes on. -/
inductive Feed.Ran (f : Feed) (h : Hub) : Hub → Feed → Prop
  | skipped {w : Watcher} {e : Event} {rest : List Event} (here : h.watchers[f.ref]? = some w) (todo : f.todo = e :: rest)
      (untested : f.tested = false) (skips : w.accepts e = false ∨ e.entry.modRev ≤ w.currentRev) : Ran f h h ⟨f.ref,rest,false⟩
  | passed {w : Watcher} {e : Event} {rest : List Event} (here : h.watchers[f.ref]? = some w) (todo : f.todo = e :: rest)
      (live : w.ctx = none) (accepted : w.accepts e = true) (newer : w.currentRev < e.entry.modRev) :
      Ran f h h ⟨f.ref,f.todo,true⟩
  | sent {w : Watcher} {e : Event} {rest : List Event} {c : Chan Event} {h' : Hub} (todo : f.todo = e :: rest)
      (tested : f.tested = true) (room : w.c.Sent e c) (opened : w.c.closed = false)
      (updated : h.Updated f.ref w (w.sent e c) h') : Ran f h h' ⟨f.ref,rest,false⟩

section

variable {f f' : Feed} {h h' : Hub}

theorem Feed.Ran.ref_eq (ran : f.Ran h h' f') : f'.ref = f.ref := by cases ran <;> rfl

theorem Feed.Ran.hub_cases (ran : f.Ran h h' f') :
    h' = h ∨ ∃ w w', h.Updated f.ref w w' h' ∧ w.Same w' ∧ w.currentRev ≤ w'.currentRev := by
  cases ran with
  | skipped | passed => exact Or.inl rfl
  | @sent w e rest c h' todo tested room opened updated =>
    refine Or.inr ⟨w,w.sent e c,updated,⟨rfl,rfl,rfl,rfl,rfl⟩,?_⟩
    simp only [Watcher.sent]
    split <;> omega

end

inductive Feed.Ended (f : Feed) (h : Hub) : Watcher.FeedEnd → Prop
  | gone (missing : h.watchers[f.ref]? = none) : Ended f h .complete
  | complete (todo : f.todo = []) : Ended f h .complete
  | refused {w : Watcher} {cause : Cause} (here : h.watchers[f.ref]? = some w) (done : w.ctx = some cause) :
      Ended f h (.failed cause.err)
  | overloaded {w : Watcher} (here : h.watchers[f.ref]? = some w) (full : w.c.free = 0) : Ended f h (.failed .overloaded)
  | panicked {w : Watcher} (here : h.watchers[f.ref]? = some w) (tested : f.tested = true) (closed : w.c.closed = true) :
      Ended f h .panicked

theorem Feed.Ended.full {f : Feed} (ended : f.Ended h (.failed .overloaded))
    (here : h.watchers[f.ref]? = some w) : w.c.free = 0 := by
  generalize outcome : Watcher.FeedEnd.failed .overloaded = e at ended
  cases ended with
  | gone | complete | panicked => cases outcome
  | @refused _ cause here' done =>
    cases same : cause.err with
    | overloaded => exact absurd same cause.err_ne_overloaded
    | canceled | deadlineExceeded =>
      rw [same] at outcome
      cases outcome
  | overloaded here' full =>
    cases here.symm.trans here'
    exact full

theorem Feed.step_cases (f : Feed) (h : Hub) (takeDone : Bool) :
    (∃ h' f', f.step h takeDone = (h',.running f') ∧ f.Ran h h' f') ∨
      ∃ e, f.step h takeDone = (h,.ended e) ∧ f.Ended h e := by
  obtain ⟨ref,todo,tested⟩ := f
  rw [Feed.step]
  cases here : h.watchers[ref]? with
  | none => exact Or.inr ⟨_,rfl,.gone here⟩
  | some w =>
    cases todo with
    | nil => exact Or.inr ⟨_,rfl,.complete rfl⟩
    | cons e rest =>
      cases tested with
      | true =>
        have updated := Hub.updated here (fun w => (w.select e takeDone).1) fun w => w.select_same e takeDone
        simp only [if_true]
        rcases w.select_cases e takeDone with ⟨c,sent,opened,run⟩ | ⟨cause,done,run⟩ | ⟨full,run⟩ | ⟨closed,run⟩
        · simp only [run] at updated ⊢
          exact Or.inl ⟨_,_,rfl,.sent rfl rfl sent opened updated⟩
        · simp only [run] at updated ⊢
          rw [updated.eq_self]
          exact Or.inr ⟨_,rfl,.refused here done⟩
        · simp only [run] at updated ⊢
          rw [updated.eq_self]
          exact Or.inr ⟨_,rfl,.overloaded here full⟩
        · simp only [run] at updated ⊢
          rw [updated.eq_self]
          exact Or.inr ⟨_,rfl,.panicked here rfl closed⟩
      | false =>
        simp only [Bool.false_eq_true,if_false]
        cases done : w.ctx with
        | some cause =>
          simp only [Watcher.offer,done]
          exact Or.inr ⟨_,rfl,.refused here done⟩
        | none =>
          simp only [Watcher.offer,done]
          by_cases unwanted : w.accepts e = false
          · simp only [unwanted,if_true]
            exact Or.inl ⟨_,_,rfl,.skipped here rfl rfl (Or.inl unwanted)⟩
          · by_cases old : e.entry.modRev ≤ w.currentRev
            · simp only [unwanted,old,if_true]
              exact Or.inl ⟨_,_,rfl,.skipped here rfl rfl (Or.inr old)⟩
            · simp only [unwanted,old,if_false]
              exact Or.inl ⟨_,_,rfl,.passed here rfl done (by simpa using unwanted) (not_le.mp old)⟩

/-- What a step does to a watcher that it does not close. -/
inductive Watcher.Works (w : Watcher) : Watcher → Prop
  | sent {e : Event} {c : Chan Event} (room : w.c.Sent e c) (opened : w.c.closed = false) : Works w (w.sent e c)
  | cancel (cause : Cause) : Works w (w.cancel cause)
  | receive : Works w { w with c := w.c.receive.1 }
  | forward (rev : Int) : Works w { w with currentRev := rev }

namespace WatchSys

/-- The steps that change something, with what they find. -/
inductive Stepped (σ : WatchSys) : Act → WatchSys → Prop
  | waits {act : Act} : Stepped σ act σ
  | txn {ops : List Op} (quiet : σ.pending = none) :
      Stepped σ (.txn ops) { σ with
        sys := σ.sys.step (.txn ops), log := σ.log ++ σ.store.newRecords (σ.store.txn ops), pending := σ.store.txnChanges ops }
  | compact {rev : Int} (quiet : σ.pending = none) : Stepped σ (.compact rev) { σ with sys := σ.sys.compact rev }
  | advance {i : Nat} : Stepped σ (.advance i) { σ with sys := σ.sys.advance i }
  | beginCommit {changes : List Entry} (due : σ.pending = some changes) (free : σ.lock = .free) :
      Stepped σ .beginCommit { σ with lock := .committing ⟨toKvEvents changes,σ.hub.synced.entries.map (·.2),none,[]⟩ }
  | serve {events : List Event} {todo : List Nat} {removals : List (Int × SendError)} {ref : Nat}
      (held : σ.lock = .committing ⟨events,todo,none,removals⟩) (due : ref ∈ todo) :
      Stepped σ (.serve ref) { σ with lock := .committing ⟨events,todo.erase ref,some ⟨ref,events,false⟩,removals⟩ }
  | sends {events : List Event} {todo : List Nat} {f f' : Feed} {removals : List (Int × SendError)} {h : Hub} {takeDone : Bool}
      (held : σ.lock = .committing ⟨events,todo,some f,removals⟩) (ran : f.Ran σ.hub h f') :
      Stepped σ (.send takeDone) { σ with hub := h, lock := .committing ⟨events,todo,some f',removals⟩ }
  | served {events : List Event} {todo : List Nat} {f : Feed} {removals : List (Int × SendError)} {e : Watcher.FeedEnd}
      {takeDone : Bool} (held : σ.lock = .committing ⟨events,todo,some f,removals⟩) (ended : f.Ended σ.hub e) :
      Stepped σ (.send takeDone) { σ with
        lock := .committing (Commit.ended ⟨events,todo,some f,removals⟩ σ.hub f.ref e), panicked := e = .panicked }
  | endCommit {events : List Event} {removals : List (Int × SendError)} (held : σ.lock = .committing ⟨events,[],none,removals⟩) :
      Stepped σ .endCommit { σ with hub := removals.foldl Hub.applyRemoval σ.hub, lock := .free, pending := none }
  | beginWatcher {req : WatchCreateRequest} {generated : Int} (free : σ.lock = .free) :
      Stepped σ (.beginWatcher req generated) { σ with lock := .creating (Creation.begin req generated σ.current) }
  | endWatcher {c : Creation} (held : σ.lock = .creating c) :
      Stepped σ .endWatcher { σ with hub := (σ.hub.newWatcher c σ.store).1, lock := .free }
  | cancel {ref : Nat} {cause : Cause} {w : Watcher} {h : Hub} (updated : σ.hub.Updated ref w (w.cancel cause) h) :
      Stepped σ (.cancel ref cause) { σ with hub := h }
  | receive {ref : Nat} {w : Watcher} {h : Hub} (updated : σ.hub.Updated ref w { w with c := w.c.receive.1 } h) :
      Stepped σ (.receive ref) { σ with hub := h }
  | dropWatcher {id : Int} (free : σ.lock = .free) : Stepped σ (.dropWatcher id) { σ with hub := σ.hub.dropWatcher id }
  | dropAll (free : σ.lock = .free) : Stepped σ .dropAll { σ with hub := σ.hub.dropAll }
  | take {batch : List Nat} (at_ : σ.loop = .idle) (free : σ.lock = .free) (taken : σ.hub.Batch batch) :
      Stepped σ (.take batch) { σ with loop := .taken batch }
  | readRevisions {batch : List Nat} (at_ : σ.loop = .taken batch) :
      Stepped σ .readRevisions { σ with loop := .ticking ⟨σ.current,σ.store.compactedMainRev,batch,batch,[],[]⟩ .next }
  | givesUp {t : Tick} {ref : Nat} {w : Watcher} {cause : Cause} (at_ : σ.loop = .ticking t .next) (due : ref ∈ t.todo)
      (here : σ.hub.watchers[ref]? = some w) :
      Stepped σ (.look ref) (σ.conclude (t.visiting ref) w.id (.delete cause))
  | forwards {t : Tick} {ref : Nat} {w : Watcher} {h : Hub} (at_ : σ.loop = .ticking t .next) (due : ref ∈ t.todo)
      (kept : t.compactedRev ≤ w.currentRev)
      (current : σ.store.kvIndex.revisionsRange w.keyStart w.keyEnd w.currentRev (t.storeRev + 1) = [])
      (updated : σ.hub.Updated ref w { w with currentRev := t.storeRev } h) :
      Stepped σ (.look ref) (conclude { σ with hub := h } (t.visiting ref) w.id .promote)
  | looks {t : Tick} {ref : Nat} {w : Watcher} (at_ : σ.loop = .ticking t .next) (due : ref ∈ t.todo)
      (here : σ.hub.watchers[ref]? = some w) (kept : t.compactedRev ≤ w.currentRev) :
      Stepped σ (.look ref) { σ with
        loop := .ticking (t.visiting ref)
          (.looked ref (σ.store.kvIndex.revisionsRange w.keyStart w.keyEnd w.currentRev (t.storeRev + 1))) }
  | misses {t : Tick} {ref : Nat} {revs : List KvBucketKey} {w : Watcher} (at_ : σ.loop = .ticking t (.looked ref revs))
      (here : σ.hub.watchers[ref]? = some w) : Stepped σ .fetch (σ.conclude t w.id .failed)
  | fetches {t : Tick} {ref : Nat} {revs : List KvBucketKey} {events : List Event} (at_ : σ.loop = .ticking t (.looked ref revs))
      (found : Watcher.fetch σ.store.backend.buckets.kv revs = some events) :
      Stepped σ .fetch { σ with loop := .ticking t (.feeding ⟨ref,events,false⟩ (Watcher.highestRev events)) }
  | feeds {t : Tick} {f f' : Feed} {highest : Int} {h : Hub} {takeDone : Bool} (at_ : σ.loop = .ticking t (.feeding f highest))
      (ran : f.Ran σ.hub h f') : Stepped σ (.feed takeDone) { σ with hub := h, loop := .ticking t (.feeding f' highest) }
  | loses {t : Tick} {f : Feed} {highest : Int} {takeDone : Bool} (at_ : σ.loop = .ticking t (.feeding f highest)) :
      Stepped σ (.feed takeDone) { σ with loop := .ticking t .next }
  | fed {t : Tick} {f : Feed} {highest : Int} {e : Watcher.FeedEnd} {w : Watcher} {takeDone : Bool}
      (at_ : σ.loop = .ticking t (.feeding f highest)) (ended : f.Ended σ.hub e) (here : σ.hub.watchers[f.ref]? = some w) :
      Stepped σ (.feed takeDone) { σ.conclude t w.id (w.conclude e highest) with panicked := e = .panicked }
  | finish {t : Tick} (at_ : σ.loop = .ticking t .next) (free : σ.lock = .free) (done : t.todo = []) :
      Stepped σ .finish { σ with
        hub := (t.finish σ.failures σ.hub).2, failures := (t.finish σ.failures σ.hub).1, loop := .idle }

/-- What removals, moves and the work on one watcher keep, every step keeps, but for the making of a watcher. -/
theorem Stepped.hub_keeps {σ σ' : WatchSys} {act : Act} {P : Hub → Prop} (stepped : σ.Stepped act σ') (start : P σ.hub)
    (drop : ∀ h g id cause, P h → P (h.drop g id cause)) (move : ∀ h g id, P h → P (h.move g id))
    (works : ∀ {ref w w' h}, σ.hub.Updated ref w w' h → w.Works w' → P h)
    (created : ∀ c, σ.lock = .creating c → act = .endWatcher → P (σ.hub.newWatcher c σ.store).1) : P σ'.hub := by
  have ran : ∀ {f f' : Feed} {h : Hub}, f.Ran σ.hub h f' → P h := by
    intro f f' h ran
    cases ran with
    | skipped | passed => exact start
    | sent todo tested room opened updated => exact works updated (.sent room opened)
  cases stepped with
  | sends held fed => exact ran fed
  | feeds at_ fed => exact ran fed
  | endCommit held => exact Hub.removals_keep start (fun h => drop h _) fun h id _ => move h _ id
  | endWatcher held => exact created _ held rfl
  | cancel updated => exact works updated (.cancel _)
  | receive updated => exact works updated .receive
  | forwards at_ due kept current updated => exact works updated (.forward _)
  | dropWatcher free => exact Hub.dropWatcher_keeps start drop _
  | dropAll free => exact Hub.dropAll_keeps start drop
  | finish at_ free done => exact Tick.finish_keeps start (fun h => drop h _) (fun h id _ => move h _ id) σ.failures
  | _ => exact start

theorem look_cases (σ : WatchSys) (ref : Nat) : σ.Stepped (.look ref) (σ.look ref) := by
  rw [look]
  split
  next t w at_ here =>
    by_cases due : ref ∈ t.todo
    · simp only [due,if_true]
      have updated := Hub.updated here
        (fun w => (w.look ((σ.failures.find? w.id).getD 0) t.storeRev t.compactedRev σ.store.kvIndex).1)
        fun w => ⟨(w.look_same _ _ _ _).1,congrArg Chan.closed (w.look_same _ _ _ _).2⟩
      rcases w.look_cases ((σ.failures.find? w.id).getD 0) t.storeRev t.compactedRev σ.store.kvIndex with
        ⟨cause,run⟩ | ⟨kept,⟨current,run⟩ | run⟩ <;> simp only [run] at updated ⊢
      · rw [updated.eq_self]
        exact .givesUp at_ due here
      · exact .forwards at_ due kept current updated
      · rw [updated.eq_self]
        exact .looks at_ due here kept
    · rw [if_neg due]
      exact .waits
  next => exact .waits

theorem act_cases (σ : WatchSys) (act : Act) : σ.Stepped act (σ.act act) := by
  cases act with
  | txn ops =>
    rw [act,txn]
    split
    next quiet => exact .txn quiet
    next => exact .waits
  | compact rev =>
    rw [act,compact]
    split
    next quiet => exact .compact quiet
    next => exact .waits
  | advance i => exact .advance
  | beginCommit =>
    rw [act,beginCommit]
    split
    next due free => exact .beginCommit due free
    next => exact .waits
  | serve ref =>
    rw [act,serve]
    split
    next held =>
      split
      next due => exact .serve held due
      next => exact .waits
    next => exact .waits
  | send takeDone =>
    rw [act,send]
    split
    next events todo f removals held =>
      rcases f.step_cases σ.hub takeDone with ⟨h,f',run,ran⟩ | ⟨e,run,ended⟩ <;> rw [run]
      · exact .sends held ran
      · exact .served held ended
    next => exact .waits
  | endCommit =>
    rw [act,endCommit]
    split
    next held => exact .endCommit held
    next => exact .waits
  | beginWatcher req generated =>
    rw [act,beginWatcher]
    split
    next free => exact .beginWatcher free
    next => exact .waits
  | endWatcher =>
    rw [act,endWatcher]
    split
    next held => exact .endWatcher held
    next => exact .waits
  | cancel ref cause =>
    rw [act,cancel]
    cases here : σ.hub.watchers[ref]? with
    | none =>
      rw [Hub.update_missing here]
      exact .waits
    | some w => exact .cancel (Hub.updated here (·.cancel cause) _)
  | receive ref =>
    rw [act,receive]
    cases here : σ.hub.watchers[ref]? with
    | none =>
      rw [Hub.update_missing here]
      exact .waits
    | some w => exact .receive (Hub.updated here (fun w => { w with c := w.c.receive.1 }) _)
  | dropWatcher id =>
    rw [act,dropWatcher]
    split
    next free => exact .dropWatcher free
    next => exact .waits
  | dropAll =>
    rw [act,dropAll]
    split
    next free => exact .dropAll free
    next => exact .waits
  | take batch =>
    rw [act,take]
    split
    next at_ free =>
      split
      next taken => exact .take at_ free taken
      next => exact .waits
    next => exact .waits
  | readRevisions =>
    rw [act,readRevisions]
    split
    next at_ => exact .readRevisions at_
    next => exact .waits
  | look ref => exact σ.look_cases ref
  | fetch =>
    rw [act,fetch]
    split
    next at_ =>
      split
      next here _ => exact .misses at_ here
      next found => exact .fetches at_ found
      next => exact .waits
    next => exact .waits
  | feed takeDone =>
    rw [act,feed]
    split
    next t f highest at_ =>
      rcases f.step_cases σ.hub takeDone with ⟨h,f',run,ran⟩ | ⟨e,run,ended⟩ <;> rw [run]
      · exact .feeds at_ ran
      · simp only
        split
        next => exact .loses at_
        next here => exact .fed at_ ended here
    next => exact .waits
  | finish =>
    rw [act,finish]
    split
    next at_ free =>
      split
      next done => exact .finish at_ free done
      next => exact .waits
    next => exact .waits

theorem step_cases (σ : WatchSys) (act : Act) : σ.Stepped act (σ.step act) := by
  rw [step]
  split
  · exact .waits
  · exact σ.act_cases act

end WatchSys

end Kave
