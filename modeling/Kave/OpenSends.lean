import Kave.Streams
import Kave.SendOrder
import Kave.Runs

/-! Sending on closed channels. A watcher is closed under the lock of the hub, but the loop sends without it, and the output of
    a stream is closed while the goroutines of its watchers may still be at work. -/

namespace Kave

/-! ### Watchers -/

/-- What becomes of a watcher: a channel that is closed and empty stays so, and a closed one has a context that is done. -/
structure Watcher.Onward (w w' : Watcher) : Prop where
  id : w'.id = w.id
  drained : w.c.Drained → w'.c.Drained
  covered : (w.c.closed = true → w.ctx.isSome = true) → w'.c.closed = true → w'.ctx.isSome = true

namespace Watcher.Onward

variable {w w' w'' : Watcher}

theorem refl (w : Watcher) : w.Onward w := ⟨rfl,fun drained => drained,fun covered => covered⟩

theorem trans (first : w.Onward w') (second : w'.Onward w'') : w.Onward w'' :=
  ⟨second.id.trans first.id,fun drained => second.drained (first.drained drained),
    fun covered => second.covered (first.covered covered)⟩

theorem cancel (w : Watcher) (cause : Cause) : w.Onward (w.cancel cause) := by
  refine ⟨rfl,fun drained => drained,fun _ _ => ?_⟩
  change (w.ctx.or (some cause)).isSome = true
  simp

theorem close (w : Watcher) (cause : Cause) : w.Onward (w.close cause) := by
  refine ⟨rfl,fun drained => ⟨rfl,drained.2⟩,fun _ _ => ?_⟩
  change (w.ctx.or (some cause)).isSome = true
  simp

theorem receive (w : Watcher) : w.Onward { w with c := w.c.receive.1 } := by
  refine ⟨rfl,fun drained => ?_,fun covered closed => covered ?_⟩
  · rw [drained.receive]
    exact drained
  · rw [Chan.closed_receive] at closed
    exact closed

theorem forward (w : Watcher) (rev : Int) : w.Onward { w with currentRev := rev } := ⟨rfl,fun drained => drained,fun covered => covered⟩

theorem sent {e : Event} {c : Chan Event} (opened : w.c.closed = false) (sent : w.c.Sent e c) : w.Onward (w.sent e c) := by
  refine ⟨rfl,fun drained => ?_,fun _ closed => ?_⟩
  · cases opened.symm.trans drained.1
  · change c.closed = true at closed
    rw [sent.closed,opened] at closed
    cases closed

end Watcher.Onward

structure Hub.Onward (h h' : Hub) : Prop where
  watchers : ∀ (ref : Nat) w', h'.watchers[ref]? = some w' → ∃ w, h.watchers[ref]? = some w ∧ w.Onward w'
  length : h'.watchers.length = h.watchers.length

namespace Hub.Onward

variable {h h' : Hub}

theorem refl (h : Hub) : h.Onward h := ⟨fun _ w at_ => ⟨w,at_,.refl w⟩,rfl⟩

theorem trans {h'' : Hub} (first : h.Onward h') (second : h'.Onward h'') : h.Onward h'' := by
  refine ⟨fun ref w'' at_ => ?_,second.length.trans first.length⟩
  obtain ⟨w',here',onward'⟩ := second.watchers ref w'' at_
  obtain ⟨w,here,onward⟩ := first.watchers ref w' here'
  exact ⟨w,here,onward.trans onward'⟩

theorem drop (onward : h.Onward h') (g : Group) (id : Int) (cause : Cause) : h.Onward (h'.drop g id cause) := by
  refine onward.trans ⟨fun ref w' at_ => ?_,?_⟩
  · rw [watchers_drop] at at_
    split at at_
    · obtain ⟨w,here,rfl⟩ := Option.map_eq_some_iff.mp at_
      exact ⟨w,here,.close w cause⟩
    · exact ⟨w',at_,.refl w'⟩
  · rw [Hub.drop]
    simp only
    split
    · rfl
    · exact List.length_modify _ _ _

theorem move (onward : h.Onward h') (g : Group) (id : Int) : h.Onward (h'.move g id) := ⟨onward.watchers,onward.length⟩

theorem updated {ref : Nat} {w w' : Watcher} (updated : h.Updated ref w w' h') (onward : w.Onward w') : h.Onward h' := by
  have place : h'.watchers = h.watchers.set ref w' := by
    refine List.ext_getElem? fun i => ?_
    have inside := (List.getElem?_eq_some_iff.mp updated.here).1
    rw [updated.after,List.getElem?_set]
    by_cases same : i = ref
    · simp [same,inside]
    · simp [same,Ne.symm same]
  refine ⟨fun i x at_ => ?_,by rw [place,List.length_set]⟩
  rw [updated.after] at at_
  split at at_
  next is =>
    cases at_
    exact ⟨w,by rw [is]; exact updated.here,onward⟩
  next => exact ⟨x,at_,.refl x⟩

end Hub.Onward

/-! ### The hub and the loop -/

/-- The watcher for which an event has passed the tests of `send` in the loop. -/
def Loop.tested : Loop → Option Nat
  | .ticking _ (.feeding f _) => if f.tested then some f.ref else none
  | .ticking _ .next | .ticking _ (.looked _ _) | .idle | .taken _ => none

def Hub.Open (h : Hub) (ref : Nat) : Prop := ∀ w, h.watchers[ref]? = some w → w.c.closed = false

section

variable {h h' : Hub} {ref i : Nat}

theorem Hub.Updated.opened {w w' : Watcher} (updated : h.Updated i w w' h') (same : w'.c.closed = w.c.closed)
    (opened : h.Open ref) : h'.Open ref := by
  intro x at_
  rw [updated.after] at at_
  split at at_
  next is =>
    cases at_
    rw [same]
    exact opened w (by rw [is]; exact updated.here)
  next => exact opened x at_

theorem Hub.Open.drop {g : Group} {id : Int} (opened : h.Open ref) (other : (h.members g).find? id ≠ some ref) (cause : Cause) :
    (h.drop g id cause).Open ref := by
  intro w at_
  rw [watchers_drop,if_neg other] at at_
  exact opened w at_

theorem Hub.Open.removals (opened : h.Open ref) (apart : ∀ id, h.synced.find? id ≠ some ref) (removals : List (Int × SendError)) :
    (removals.foldl applyRemoval h).Open ref := by
  refine (Hub.removals_keep (P := fun h' => h'.Open ref ∧ ∀ id, h'.synced.find? id ≠ some ref) ⟨opened,apart⟩ ?_ ?_).1
  · rintro h' id cause ⟨opened,apart⟩
    refine ⟨opened.drop (apart id) cause,fun id' bound => ?_⟩
    rw [Hub.synced,find_drop] at bound
    split at bound
    · cases bound
    · exact apart id' bound
  · rintro h' id - ⟨opened,apart⟩
    refine ⟨opened,fun id' bound => ?_⟩
    rw [Hub.synced,find_move_self] at bound
    split at bound
    · cases bound
    · exact apart id' bound

theorem Hub.Open.dropAll (opened : h.Open ref) (apart : ∀ g id, (h.members g).find? id ≠ some ref) : h.dropAll.Open ref := by
  refine (Hub.dropAll_keeps (P := fun h' => h'.Open ref ∧ ∀ g id, (h'.members g).find? id ≠ some ref) ⟨opened,apart⟩ ?_).1
  rintro h' g id cause ⟨opened,apart⟩
  refine ⟨opened.drop (apart g id) cause,fun g' id' bound => ?_⟩
  rw [find_drop] at bound
  split at bound
  · cases bound
  · exact apart g' id' bound

theorem Hub.Open.newWatcher (opened : h.Open ref) (c : Creation) (s : KvStore) : (h.newWatcher c s).1.Open ref := by
  rcases h.newWatcher_cases c s with ⟨e,run⟩ | ⟨g,lastRevision,-,-,-,run⟩ <;> rw [run]
  · exact opened
  · intro w at_
    change (h.watchers ++ [c.watcher])[ref]? = some w at at_
    by_cases old : ref < h.watchers.length
    · rw [List.getElem?_append_left old] at at_
      exact opened w at_
    · rw [List.getElem?_append_right (not_lt.mp old)] at at_
      rw [List.mem_singleton.mp (List.mem_of_getElem? at_)]
      rfl

end

namespace WatchSys

/-- No watcher is closed between the tests and the select of the loop's `send` to it. -/
def Gentle (σ : WatchSys) : Act → Prop
  | .dropWatcher id => σ.loop.tested = none ∨ σ.hub.picks id ≠ σ.loop.tested
  | .dropAll => ∀ ref ∈ σ.loop.tested, ref ∉ σ.hub.synced.entries.map (·.2) ∧ ref ∉ σ.hub.unsynced.entries.map (·.2)
  | _ => True

instance decidableGentle (σ : WatchSys) : (act : Act) → Decidable (σ.Gentle act)
  | .dropWatcher _ => inferInstanceAs (Decidable (_ ∨ _))
  | .dropAll => inferInstanceAs (Decidable (∀ ref ∈ σ.loop.tested, _ ∧ _))
  | .txn _ | .compact _ | .advance _ | .beginCommit | .serve _ | .send _ | .endCommit | .beginWatcher _ _ | .endWatcher
  | .cancel _ _ | .receive _ | .take _ | .readRevisions | .look _ | .fetch | .feed _ | .finish => isTrue trivial

variable {σ σ' : WatchSys} {act : Act}

theorem Stepped.onward (stepped : σ.Stepped act σ') (created : act ≠ .endWatcher) : σ.hub.Onward σ'.hub := by
  refine stepped.hub_keeps (.refl _) (fun _ _ _ _ kept => kept.drop _ _ _) (fun _ _ _ kept => kept.move _ _) (fun updated works => ?_)
    fun _ _ is => absurd is created
  cases works with
  | sent room opened => exact .updated updated (.sent opened room)
  | cancel cause => exact .updated updated (.cancel _ cause)
  | receive => exact .updated updated (.receive _)
  | forward rev => exact .updated updated (.forward _ rev)

/-- Nothing has been sent on a closed channel, and nothing is about to. -/
structure Sound (σ : WatchSys) : Prop where
  ordered : σ.Ordered
  covered : ∀ (ref : Nat) w, σ.hub.watchers[ref]? = some w → w.c.closed = true → w.ctx.isSome = true
  tested : ∀ ref, σ.loop.tested = some ref → σ.hub.Open ref
  alive : σ.panicked = false

theorem Sound.new : WatchSys.new.Sound := by
  refine ⟨.new,fun ref w at_ => ?_,fun ref is => (by cases is),rfl⟩
  simp [WatchSys.new,Hub.new] at at_

theorem Stepped.covered (stepped : σ.Stepped act σ')
    (covered : ∀ (ref : Nat) w, σ.hub.watchers[ref]? = some w → w.c.closed = true → w.ctx.isSome = true) {ref : Nat} {w' : Watcher}
    (at_ : σ'.hub.watchers[ref]? = some w') (closed : w'.c.closed = true) : w'.ctx.isSome = true := by
  by_cases created : act = .endWatcher
  · subst created
    cases stepped with
    | waits => exact covered ref w' at_ closed
    | @endWatcher c held =>
      rcases σ.hub.newWatcher_cases c σ.store with ⟨e,run⟩ | ⟨g,lastRevision,-,-,-,run⟩ <;> rw [run] at at_
      · exact covered ref w' at_ closed
      · change (σ.hub.watchers ++ [c.watcher])[ref]? = some w' at at_
        rcases List.mem_append.mp (List.mem_of_getElem? at_) with old | new
        · obtain ⟨i,here⟩ := List.mem_iff_getElem?.mp old
          exact covered i w' here closed
        · rw [List.mem_singleton.mp new] at closed
          cases closed
  · obtain ⟨w,here,onward⟩ := (stepped.onward created).watchers ref w' at_
    exact onward.covered (covered ref w here) closed

theorem Stepped.tested (stepped : σ.Stepped act σ') (sound : σ.Sound) (gentle : σ.Gentle act) {ref : Nat}
    (is : σ'.loop.tested = some ref) : σ'.hub.Open ref := by
  have before : σ.loop.tested = some ref → σ.hub.Open ref := sound.tested ref
  have loop := sound.ordered.loop
  have concluded : ∀ {τ : WatchSys} {t : Tick} {id : Int} {verdict : Watcher.Verdict}, (τ.conclude t id verdict).loop.tested = none := by
    intro τ t id verdict
    cases verdict <;> rfl
  cases stepped with
  | sends held ran =>
    cases ran with
    | skipped | passed => exact before is
    | sent todo tested room opened updated => exact updated.opened room.closed (before is)
  | endCommit held =>
    refine (before is).removals (fun id bound => ?_) _
    -- a commit closes synced watchers, the loop feeds others
    cases at_ : σ.loop with
    | idle | taken => rw [at_] at is; cases is
    | ticking t work =>
      cases work with
      | next | looked => rw [at_] at is; cases is
      | feeding f highest =>
        rw [at_] at is loop
        have same : f.ref = ref := by
          rw [Loop.tested] at is
          split at is
          · exact Option.some.inj is
          · cases is
        exact (loop.1.batch f.ref loop.2.1).1 id (same ▸ bound)
  | endWatcher held => exact (before is).newWatcher _ _
  | cancel updated => exact updated.opened rfl (before is)
  | receive updated => exact updated.opened (Chan.closed_receive _) (before is)
  | @dropWatcher id free =>
    intro w at_
    change (σ.hub.dropWatcher id).watchers[ref]? = some w at at_
    have spared : σ.hub.picks id ≠ some ref := by
      rcases gentle with none | other
      · cases none.symm.trans is
      · rw [← show σ.loop.tested = some ref from is]
        exact other
    rw [Hub.watchers_dropWatcher,if_neg spared] at at_
    exact before is w at_
  | dropAll free =>
    obtain ⟨synced,unsynced⟩ := gentle ref is
    refine (before is).dropAll fun g id bound => ?_
    cases g with
    | synced => exact synced (Hub.mem_refs.mpr ⟨id,bound⟩)
    | unsynced => exact unsynced (Hub.mem_refs.mpr ⟨id,bound⟩)
  | @feeds t f f' highest h takeDone at_ ran =>
    cases ran with
    | skipped | sent => cases is
    | passed here todo live accepted newer =>
      cases is
      intro w at_
      cases here.symm.trans at_
      refine Bool.eq_false_iff.mpr fun closed => ?_
      have done := sound.covered f.ref _ here closed
      rw [live] at done
      cases done
  | take | readRevisions | looks | fetches | loses | finish => cases is
  | givesUp | forwards | misses =>
    rw [concluded] at is
    cases is
  | fed =>
    have none := is
    change (conclude _ _ _ _).loop.tested = some ref at none
    rw [concluded] at none
    cases none
  | _ => exact before is

theorem Stepped.alive (stepped : σ.Stepped act σ') (sound : σ.Sound) : σ'.panicked = false := by
  have opened : ∀ {f : Feed}, σ.hub.Open f.ref → ¬ f.Ended σ.hub .panicked := by
    intro f opened ended
    cases ended with
    | panicked here tested closed => cases (opened _ here).symm.trans closed
  cases stepped with
  | @served events todo f removals e takeDone held ended =>
    refine decide_eq_false fun is => ?_
    subst is
    have lock := sound.ordered.lock
    rw [held] at lock
    obtain ⟨⟨id,bound⟩,-⟩ := lock.feed f rfl
    obtain ⟨w,here,-,isOpen⟩ := σ.hub.named .synced id f.ref bound
    refine opened (fun w' at_ => ?_) ended
    cases here.symm.trans at_
    exact isOpen
  | @fed t f highest e w takeDone at_ ended here =>
    refine decide_eq_false fun is => ?_
    subst is
    have tested : f.tested = true := by
      cases ended with
      | panicked here tested closed => exact tested
    refine opened (sound.tested f.ref ?_) ended
    rw [at_,Loop.tested,if_pos tested]
  | _ => exact sound.alive

theorem Sound.step (sound : σ.Sound) (gentle : σ.Gentle act) : (σ.step act).Sound :=
  have stepped := σ.step_cases act
  ⟨sound.ordered.step stepped,fun _ _ => stepped.covered sound.covered,fun _ => stepped.tested sound gentle,stepped.alive sound⟩

theorem step_dropWatcher (σ : WatchSys) (id : Int) :
    σ.step (.dropWatcher id) = σ ∨ σ.step (.dropWatcher id) = { σ with hub := σ.hub.dropWatcher id } := by
  rw [WatchSys.step]
  split
  · exact Or.inl rfl
  · change σ.dropWatcher id = σ ∨ σ.dropWatcher id = _
    rw [dropWatcher]
    split
    · exact Or.inr rfl
    · exact Or.inl rfl

theorem Gentle.dropped {id id' : Int} (gentle : σ.Gentle (.dropWatcher id')) (other : id' ≠ id) :
    (σ.step (.dropWatcher id)).Gentle (.dropWatcher id') := by
  rcases σ.step_dropWatcher id with run | run <;> rw [run]
  · exact gentle
  · obtain ⟨g,drops,-⟩ := σ.hub.picks_cases id
    have same : ∀ g', ((σ.hub.drop g id .canceled).members g').find? id' = (σ.hub.members g').find? id' := by
      intro g'
      rw [Hub.find_drop,if_neg fun both => other both.2]
    have picks : (σ.hub.dropWatcher id).picks id' = σ.hub.picks id' := by
      rw [drops,Hub.picks,Hub.synced,Hub.unsynced,same,same]
      rfl
    change σ.loop.tested = none ∨ (σ.hub.dropWatcher id).picks id' ≠ σ.loop.tested
    rw [picks]
    exact gentle

theorem Sound.drops {ids : List Int} (nodup : ids.Nodup) (sound : σ.Sound) (gentle : ∀ id ∈ ids, σ.Gentle (.dropWatcher id)) :
    (σ.run (ids.map .dropWatcher)).Sound := by
  induction ids generalizing σ with
  | nil => exact sound
  | cons id rest ih =>
    obtain ⟨fresh,nodup⟩ := List.nodup_cons.mp nodup
    exact ih nodup (sound.step (gentle id List.mem_cons_self)) fun id' later =>
      (gentle id' (List.mem_cons_of_mem id later)).dropped fun same => fresh (same ▸ later)

theorem onward_drops (σ : WatchSys) (ids : List Int) : σ.hub.Onward (σ.run (ids.map .dropWatcher)).hub := by
  induction ids generalizing σ with
  | nil => exact .refl _
  | cons id rest ih => exact ((σ.step_cases (.dropWatcher id)).onward fun is => (by cases is)).trans (ih _)

end WatchSys

/-! ### Streams -/

/-- The goroutine is not going to send any more. -/
def Runner.Quiet (r : Runner) (w : Watcher) : Prop :=
  match r.stage with
  | .offering _ => False
  | .collecting => w.c.Drained
  | .parked _ | .leaving | .dropping | .ended => True

instance Runner.decidableQuiet (r : Runner) (w : Watcher) : Decidable (r.Quiet w) :=
  match r with
  | ⟨_,.offering _⟩ => isFalse fun quiet => quiet
  | ⟨_,.collecting⟩ => inferInstanceAs (Decidable w.c.Drained)
  | ⟨_,.parked _⟩ | ⟨_,.leaving⟩ | ⟨_,.dropping⟩ | ⟨_,.ended⟩ => isTrue trivial

/-- A stream whose `Close` has begun has a context that is done, and its output is closed last. -/
structure Stream.Valid (s : Stream) : Prop where
  done : s.phase ≠ .opened → s.done = true
  output : s.outputC.closed = true ↔ s.phase = .closed

namespace StreamSys

/-- No watcher is closed between the tests and the select of the loop's `send` to it, and `Close` closes the output of its
    stream only when no goroutine can send on it any more. -/
def Gentle (σ : StreamSys) : StreamAct → Prop
  | .inner act => σ.base.Gentle act
  | .cancel _ id => σ.base.Gentle (.dropWatcher id)
  | .dropWatchers s => ∀ stream ∈ σ.streams[s]?, ∀ id ∈ stream.watchers.keys, σ.base.Gentle (.dropWatcher id)
  | .closeOutput s => ∀ p ∈ σ.runners.zip σ.hub.watchers, p.1.stream = s → p.1.Quiet p.2
  | .run ref _ => ∀ r ∈ σ.runners[ref]?, r.stage = .dropping → ∀ w ∈ σ.hub.watchers[ref]?, σ.base.Gentle (.dropWatcher w.id)
  | _ => True

instance decidableGentle (σ : StreamSys) : (act : StreamAct) → Decidable (σ.Gentle act)
  | .inner act => inferInstanceAs (Decidable (σ.base.Gentle act))
  | .cancel _ id => inferInstanceAs (Decidable (σ.base.Gentle (.dropWatcher id)))
  | .dropWatchers s => inferInstanceAs (Decidable (∀ stream ∈ σ.streams[s]?, ∀ id ∈ stream.watchers.keys, _))
  | .closeOutput _ => inferInstanceAs (Decidable (∀ p ∈ σ.runners.zip σ.hub.watchers, _))
  | .run ref _ => inferInstanceAs (Decidable (∀ r ∈ σ.runners[ref]?, r.stage = .dropping → ∀ w ∈ σ.hub.watchers[ref]?, _))
  | .newStream | .cancelStream _ | .beginWatch _ _ _ | .endWatch | .beginClose _ | .output _ _ => isTrue trivial

/-- No goroutine can send on a closed output. -/
structure Sound (σ : StreamSys) : Prop where
  base : σ.base.Sound
  aligned : σ.runners.length = σ.hub.watchers.length
  streams : ∀ (s : Nat) stream, σ.streams[s]? = some stream → stream.Valid
  creator : ∀ s, σ.creator = some s → ∃ stream, σ.streams[s]? = some stream ∧ stream.phase = .opened
  quiet : ∀ (ref : Nat) r w stream, σ.runners[ref]? = some r → σ.hub.watchers[ref]? = some w → σ.streams[r.stream]? = some stream →
    stream.phase = .closed → r.Quiet w

namespace Sound

variable {σ : StreamSys}

theorem new : StreamSys.new.Sound :=
  ⟨.new,rfl,fun s stream at_ => by simp [StreamSys.new] at at_,fun s is => (by cases is),
    fun ref r w stream at_ => by simp [StreamSys.new] at at_⟩

theorem watcher (sound : σ.Sound) {ref : Nat} {r : Runner} (at_ : σ.runners[ref]? = some r) : ∃ w, σ.hub.watchers[ref]? = some w := by
  have inside := (List.getElem?_eq_some_iff.mp at_).1
  rw [sound.aligned] at inside
  exact ⟨_,List.getElem?_eq_getElem inside⟩

theorem onBase (sound : σ.Sound) {base : WatchSys} (next : base.Sound) (onward : σ.hub.Onward base.hub) :
    StreamSys.Sound { σ with base := base } := by
  refine ⟨next,sound.aligned.trans onward.length.symm,sound.streams,sound.creator,fun ref r w' stream at_ here of closed => ?_⟩
  obtain ⟨w,before,further⟩ := onward.watchers ref w' here
  have quiet := sound.quiet ref r w stream at_ before of closed
  rw [Runner.Quiet] at quiet ⊢
  split
  next stage => simp only [stage] at quiet
  next stage =>
    simp only [stage] at quiet
    exact further.drained quiet
  all_goals trivial

theorem onStream (sound : σ.Sound) {s : Nat} {f : Stream → Stream} (valid : ∀ stream, σ.streams[s]? = some stream → (f stream).Valid)
    (creator : ∀ stream, σ.streams[s]? = some stream → σ.creator = some s → stream.phase = .opened → (f stream).phase = .opened)
    (quiet : ∀ stream, σ.streams[s]? = some stream → (f stream).phase = .closed → stream.phase ≠ .closed →
      ∀ (ref : Nat) r w, σ.runners[ref]? = some r → σ.hub.watchers[ref]? = some w → r.stream = s → r.Quiet w) :
    (σ.onStream s f).Sound := by
  refine ⟨sound.base,sound.aligned,fun s' stream at_ => ?_,fun s' is => ?_,fun ref r w stream at_ here of closed => ?_⟩
  · rw [streams_onStream] at at_
    split at at_
    next same =>
      subst same
      obtain ⟨stream',before,rfl⟩ := Option.map_eq_some_iff.mp at_
      exact valid stream' before
    next => exact sound.streams s' stream at_
  · obtain ⟨stream,before,opened⟩ := sound.creator s' is
    rw [streams_onStream]
    split
    next same =>
      subst same
      exact ⟨f stream,by rw [before]; rfl,creator stream before is opened⟩
    next => exact ⟨stream,before,opened⟩
  · rw [streams_onStream] at of
    split at of
    next same =>
      obtain ⟨stream',before,rfl⟩ := Option.map_eq_some_iff.mp of
      by_cases was : stream'.phase = .closed
      · exact sound.quiet ref r w stream' at_ here before was
      · exact quiet stream' (same ▸ before) closed was ref r w at_ here same
    next => exact sound.quiet ref r w stream at_ here of closed

theorem goto (sound : σ.Sound) {ref : Nat} {stage : RunStage}
    (quiet : ∀ r w stream, σ.runners[ref]? = some r → σ.hub.watchers[ref]? = some w → σ.streams[r.stream]? = some stream →
      stream.phase = .closed → Runner.Quiet ⟨r.stream,stage⟩ w) : (σ.goto ref stage).Sound := by
  refine ⟨sound.base,?_,sound.streams,sound.creator,fun ref' r w stream at_ here of closed => ?_⟩
  · change (σ.runners.modify ref _).length = _
    rw [List.length_modify]
    exact sound.aligned
  · rw [runners_goto] at at_
    split at at_
    next same =>
      subst same
      obtain ⟨r',before,rfl⟩ := Option.map_eq_some_iff.mp at_
      exact quiet r' w stream before here of closed
    next => exact sound.quiet ref' r w stream at_ here of closed

theorem endWatch (sound : σ.Sound) {c : Creation} {s : Nat} {g : Group} (held : σ.base.lock = .creating c) (creator : σ.creator = some s)
    (created : σ.hub.newWatcher c σ.base.store = (σ.hub.register g c.watcher c.opened,.ok σ.hub.watchers.length)) :
    (σ.spawn s c.id σ.hub.watchers.length).Sound := by
  obtain ⟨stream₀,isOpen,opened⟩ := sound.creator s creator
  have kept : (σ.onStream s fun stream => { stream with watchers := stream.watchers.insert c.id σ.hub.watchers.length }).Sound :=
    sound.onStream (fun stream at_ => ⟨(sound.streams s stream at_).done,(sound.streams s stream at_).output⟩)
      (fun _ _ _ opened => opened) fun _ _ closed was => absurd closed was
  have watchers : (σ.base.step .endWatcher).hub.watchers = σ.hub.watchers ++ [c.watcher] := by
    rw [hub_endWatcher sound.base.alive held,created]
    rfl
  refine ⟨sound.base.step trivial,?_,kept.streams,fun s' is => (by cases is),fun ref r w stream at_ here of closed => ?_⟩
  · change (σ.runners ++ _).length = (σ.base.step .endWatcher).hub.watchers.length
    rw [watchers,List.length_append,List.length_append,sound.aligned]
    rfl
  · change (σ.base.step .endWatcher).hub.watchers[ref]? = some w at here
    rw [watchers] at here
    rcases spawned sound.aligned at_ here with ⟨-,old,there⟩ | ⟨rfl,-⟩
    · exact kept.quiet ref r w stream old there of closed
    · change (σ.onStream s _).streams[s]? = some stream at of
      rw [streams_onStream,if_pos rfl,isOpen] at of
      cases of
      cases opened.symm.trans closed

theorem step {act : StreamAct} {σ' : StreamSys} (sound : σ.Sound) (gentle : σ.Gentle act) (stepped : σ.Stepped act σ') : σ'.Sound := by
  -- a goroutine of a closed stream does nothing that matters
  have silent : ∀ {ref : Nat} {r : Runner} {e : StreamEvent} {stream : Stream}, σ.runners[ref]? = some r → r.stage = .offering e →
      σ.streams[r.stream]? = some stream → stream.phase ≠ .closed := by
    intro ref r e stream at_ stage of closed
    obtain ⟨w,here⟩ := sound.watcher at_
    have quiet := sound.quiet ref r w stream at_ here of closed
    rw [Runner.Quiet,stage] at quiet
    exact quiet
  have based : ∀ {act : Act}, σ.base.Gentle act → act ≠ .endWatcher → StreamSys.Sound { σ with base := σ.base.step act } :=
    fun gentle created => sound.onBase (sound.base.step gentle) ((σ.base.step_cases _).onward created)
  cases stepped with
  | waits => exact sound
  | inner own => exact based gentle fun is => (by subst is; cases own)
  | newStream =>
    have place : ∀ {s : Nat} {stream : Stream}, (σ.streams ++ [Stream.new])[s]? = some stream →
        σ.streams[s]? = some stream ∨ stream = .new := by
      intro s stream at_
      by_cases old : s < σ.streams.length
      · rw [List.getElem?_append_left old] at at_
        exact Or.inl at_
      · rw [List.getElem?_append_right (not_lt.mp old)] at at_
        exact Or.inr (List.mem_singleton.mp (List.mem_of_getElem? at_))
    refine ⟨sound.base,sound.aligned,fun s stream at_ => ?_,fun s is => ?_,fun ref r w stream at_ here of closed => ?_⟩
    · rcases place at_ with old | rfl
      · exact sound.streams s stream old
      · exact ⟨fun begun => absurd rfl begun,⟨fun closed => (by cases closed),fun closed => (by cases closed)⟩⟩
    · obtain ⟨stream,at_,opened⟩ := sound.creator s is
      exact ⟨stream,by rw [List.getElem?_append_left (List.getElem?_eq_some_iff.mp at_).1]; exact at_,opened⟩
    · rcases place of with old | rfl
      · exact sound.quiet ref r w stream at_ here old closed
      · cases closed
  | @cancelStream s =>
    exact sound.onStream (fun stream at_ => ⟨fun _ => rfl,(sound.streams s stream at_).output⟩) (fun _ _ _ opened => opened)
      fun _ _ closed was => absurd closed was
  | @beginWatch s req generated stream at_ opened free =>
    have next := @based (.beginWatcher req generated) trivial fun is => (by cases is)
    refine ⟨next.base,next.aligned,next.streams,fun s' is => ?_,next.quiet⟩
    cases is
    exact ⟨stream,at_,opened⟩
  | @failsWatch c e held failed =>
    have hub : (σ.base.step .endWatcher).hub = σ.hub := by rw [hub_endWatcher sound.base.alive held,failed]
    have next := sound.onBase (@WatchSys.Sound.step σ.base .endWatcher sound.base trivial) (by rw [hub]; exact .refl _)
    exact ⟨next.base,next.aligned,next.streams,fun s' is => (by cases is),next.quiet⟩
  | endWatch held creator free created => exact sound.endWatch held creator created
  | cancel at_ opened free => exact based gentle fun is => (by cases is)
  | @beginClose s stream at_ opened apart =>
    refine sound.onStream (fun stream' at' => ⟨fun _ => rfl,?_⟩) (fun _ _ is => absurd is apart) fun _ _ closed => (by cases closed)
    cases at_.symm.trans at'
    have output := (sound.streams s stream at_).output
    rw [opened] at output
    exact ⟨fun closed => (by cases output.mp closed),fun closed => (by cases closed)⟩
  | @dropWatchers s stream at_ canceled free =>
    have nodup : stream.watchers.keys.Nodup := stream.watchers.keys_sorted.imp fun less => ne_of_lt less
    have next : (σ.onStream s fun stream => { stream with phase := .dropped }).Sound := by
      refine sound.onStream (fun stream' at' => ?_) (fun stream' at' _ opened => ?_) fun _ _ closed => (by cases closed)
      · cases at_.symm.trans at'
        obtain ⟨done,output⟩ := sound.streams s stream at_
        rw [canceled] at done output
        exact ⟨fun _ => done fun is => (by cases is),⟨fun closed => (by cases output.mp closed),fun closed => (by cases closed)⟩⟩
      · cases at_.symm.trans at'
        cases canceled.symm.trans opened
    exact next.onBase (sound.base.drops nodup (gentle stream at_)) (σ.base.onward_drops _)
  | @closeOutput s stream at_ dropped =>
    refine sound.onStream (fun stream' at' => ?_) (fun stream' at' _ opened => ?_) fun _ _ _ _ ref r w runner here own => ?_
    · cases at_.symm.trans at'
      have done := (sound.streams s stream at_).done (by rw [dropped]; exact fun is => (by cases is))
      exact ⟨fun _ => done,⟨fun _ => rfl,fun _ => rfl⟩⟩
    · cases at_.symm.trans at'
      cases dropped.symm.trans opened
    · refine gentle (r,w) (List.mem_of_getElem? (i := ref) ?_) own
      rw [List.getElem?_zip_eq_some]
      exact ⟨runner,here⟩
  | leaves at_ stage => exact sound.goto fun _ _ _ _ _ _ _ => trivial
  | @takes ref choice r w e at_ stage here got =>
    have next := @based (.receive ref) trivial fun is => (by cases is)
    refine next.goto fun r' w' stream at' _ of closed => ?_
    cases at_.symm.trans at'
    have quiet := sound.quiet ref r w stream at_ here of closed
    rw [Runner.Quiet,stage] at quiet
    rw [quiet.receive] at got
    cases got
  | @sends ref choice r stream e c at_ stage of opened sent =>
    have next : (σ.onStream r.stream fun stream => { stream with outputC := c }).Sound := by
      refine sound.onStream (fun stream' at' => ?_) (fun _ _ _ opened => opened) fun _ _ closed was => absurd closed was
      cases of.symm.trans at'
      obtain ⟨done,output⟩ := sound.streams r.stream stream of
      rw [← sent.closed] at output
      exact ⟨done,output⟩
    refine next.goto fun r' w' stream' at' _ of' closed => ?_
    cases at_.symm.trans at'
    rw [streams_onStream,if_pos rfl,of] at of'
    cases of'
    exact absurd (show stream.phase = .closed from closed) (silent at_ stage of)
  | panics at_ stage of closed => exact absurd ((sound.streams _ _ of).output.mp closed) (silent at_ stage of)
  | parks at_ stage => exact sound.goto fun _ _ _ _ _ _ _ => trivial
  | @givesUp ref choice r e at_ stage =>
    refine sound.goto fun _ _ _ _ _ _ _ => ?_
    cases e <;> trivial
  | @defers ref choice r w stream at_ stage here of =>
    refine sound.goto fun r' w' stream' at' here' of' closed => ?_
    cases at_.symm.trans at'
    cases of.symm.trans of'
    rw [if_pos ((sound.streams r.stream stream of).done (by rw [closed]; exact fun is => (by cases is)))]
    trivial
  | @drops ref choice r w at_ stage here free =>
    exact (based (gentle r at_ stage w here) fun is => (by cases is)).goto fun _ _ _ _ _ _ _ => trivial
  | @output s next stream at_ =>
    refine sound.onStream (fun stream' at' => ?_) (fun _ _ _ opened => opened) fun _ _ closed was => absurd closed was
    cases at_.symm.trans at'
    obtain ⟨done,output⟩ := sound.streams s stream at_
    rw [← stream.outputC.closed_receive] at output
    exact ⟨done,output⟩
  | @handsOver s next stream e c at_ runner opened sent =>
    have output := (sound.streams s stream at_).output
    have same : c.closed = stream.outputC.closed := sent.closed.trans stream.outputC.closed_receive
    have next_ : (σ.onStream s fun stream => { stream with outputC := c }).Sound := by
      refine sound.onStream (fun stream' at' => ?_) (fun _ _ _ opened => opened) fun _ _ closed was => absurd closed was
      cases at_.symm.trans at'
      rw [← same] at output
      exact ⟨(sound.streams s stream at_).done,output⟩
    refine next_.goto fun r' w' stream' at' _ of' closed => ?_
    cases runner.symm.trans at'
    rw [streams_onStream,if_pos rfl,at_] at of'
    cases of'
    cases opened.symm.trans (output.mpr closed)

end Sound

end StreamSys

/-- As long as no watcher is closed between the tests and the select of the loop's `send` to it, and no stream closes its output
    while one of its goroutines can still send, every channel on which something is about to be sent is open, and nothing
    panics. -/
theorem sends_find_open_channels {acts : List StreamAct} (gentle : Runs.Along StreamSys.step StreamSys.Gentle .new acts)
    {σ : StreamSys} (reached : σ = StreamSys.new.run acts) :
    σ.base.panicked = false ∧
      (∀ ref, σ.base.loop.tested = some ref → σ.hub.Open ref) ∧
      (∀ c f, σ.base.lock = .committing c → c.feed = some f → σ.hub.Open f.ref) ∧
      ∀ (ref : Nat) (r : Runner) e (stream : Stream), σ.runners[ref]? = some r → r.stage = .offering e → σ.streams[r.stream]? = some stream →
        stream.outputC.closed = false := by
  have sound : σ.Sound := by
    rw [reached]
    exact gentle.invariant .new fun σ act kept ok => kept.step ok (σ.step_cases act)
  refine ⟨sound.base.alive,sound.base.tested,fun c f held feeding => ?_,fun ref r e stream at_ stage of => ?_⟩
  · have lock := sound.base.ordered.lock
    rw [held] at lock
    obtain ⟨⟨id,bound⟩,-⟩ := lock.feed f feeding
    obtain ⟨w,here,-,opened⟩ := σ.hub.named .synced id f.ref bound
    intro w' at_
    cases here.symm.trans at_
    exact opened
  · refine Bool.eq_false_iff.mpr fun closed => ?_
    obtain ⟨w,here⟩ := sound.watcher at_
    have quiet := sound.quiet ref r w stream at_ here of ((sound.streams _ _ of).output.mp closed)
    rw [Runner.Quiet, stage] at quiet
    exact quiet

/-- A stream with a watcher that has an event for it. -/
def watchActs : List StreamAct :=
  [.newStream,.beginWatch 0 ⟨7,some [97],none,false,0,none⟩ 0,.endWatch,.inner (.txn [.put [97] (some [1]) 0]),.inner .beginCommit,
    .inner (.serve 0),.inner (.send true),.inner (.send true),.inner (.send true),.inner .endCommit,.run 0 .channel]

/-- The goroutine has sent the event and returned before the output is closed. -/
theorem sends_find_open_channels_after_close :
    let acts := watchActs ++ [.run 0 .channel,.beginClose 0,.run 0 .streamDone,.run 0 .streamDone,.dropWatchers 0,.closeOutput 0]
    (StreamSys.new.run acts).base.panicked = false ∧
      ((StreamSys.new.run acts).streams[0]?).map (fun s => (s.phase,s.outputC.sent)) =
        some (.closed,[.event 7 ⟨.put,⟨[97],some [1],1,1,1,0⟩⟩]) := by
  intro acts
  exact ⟨(@sends_find_open_channels acts (by decide) _ rfl).1,by decide⟩

/-- A watcher is canceled between the tests and the select of the loop, and a stream is closed while a goroutine holds an event:
    in both cases the next send panics. -/
theorem sends_panic_on_closed_channels :
    let put := Act.txn [.put [97] (some [1]) 0]
    let loop := [StreamAct.newStream,.inner put,.inner .beginCommit,.inner .endCommit,.inner put,.inner .beginCommit,.inner .endCommit,
      .beginWatch 0 ⟨7,some [97],none,false,1,none⟩ 0,.endWatch,.inner (.take [0]),.inner .readRevisions,.inner (.look 0),
      .inner .fetch,.inner (.feed true)]
    (StreamSys.new.run (loop ++ [.cancel 0 7])).base.panicked = false ∧
      (StreamSys.new.run (loop ++ [.cancel 0 7,.inner (.feed false)])).base.panicked = true ∧
      (StreamSys.new.run (watchActs ++ [.beginClose 0,.dropWatchers 0,.closeOutput 0])).base.panicked = false ∧
      (StreamSys.new.run (watchActs ++ [.beginClose 0,.dropWatchers 0,.closeOutput 0,.run 0 .channel])).base.panicked = true := by
  decide

end Kave
