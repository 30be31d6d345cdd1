import Kave.OpenSends

/-! Streams and each other's watchers. A stream speaks of its watchers by id, and so do the goroutines of its watchers, so that
    they mean whatever has the id at the time. As long as no two streams have to do with one id, they leave each other alone. -/

namespace Kave

/-! ### Bindings -/

/-- The id stands for the watcher in one of the groups. -/
def Hub.Bound (h : Hub) (id : Int) (ref : Nat) : Prop := h.synced.find? id = some ref ∨ h.unsynced.find? id = some ref

instance (h : Hub) (id : Int) (ref : Nat) : Decidable (h.Bound id ref) := inferInstanceAs (Decidable (_ ∨ _))

section

variable {h h' : Hub} {id : Int} {ref : Nat}

theorem Hub.bound_iff : h.Bound id ref ↔ ∃ g, (h.members g).find? id = some ref := by
  constructor
  · rintro (synced | unsynced)
    · exact ⟨.synced,synced⟩
    · exact ⟨.unsynced,unsynced⟩
  · rintro ⟨g,bound⟩
    cases g with
    | synced => exact Or.inl bound
    | unsynced => exact Or.inr bound

theorem Hub.Bound.of_picks (picked : h.picks id = some ref) : h.Bound id ref := by
  obtain ⟨g,-,picks⟩ := h.picks_cases id
  exact Hub.bound_iff.mpr ⟨g,picks.symm.trans picked⟩

/-- Nothing is bound that was not bound before. -/
def Hub.Unbinds (h h' : Hub) : Prop := ∀ id ref, h'.Bound id ref → h.Bound id ref

theorem Hub.Unbinds.drop (unbinds : h.Unbinds h') (g : Group) (id : Int) (cause : Cause) : h.Unbinds (h'.drop g id cause) := by
  intro id' ref bound
  obtain ⟨g',bound⟩ := Hub.bound_iff.mp bound
  rw [find_drop] at bound
  split at bound
  · cases bound
  · exact unbinds id' ref (Hub.bound_iff.mpr ⟨g',bound⟩)

theorem Hub.Unbinds.move (unbinds : h.Unbinds h') (g : Group) (id : Int) : h.Unbinds (h'.move g id) := by
  intro id' ref bound
  obtain ⟨g',bound⟩ := Hub.bound_iff.mp bound
  refine unbinds id' ref (Hub.bound_iff.mpr ?_)
  by_cases here : g' = g
  · rw [here,find_move_self] at bound
    split at bound
    · cases bound
    · exact ⟨g,bound⟩
  · obtain rfl := Group.eq_other here
    rw [find_move_other] at bound
    split at bound
    next same =>
      subst same
      cases moved : (h'.members g).find? id' with
      | none =>
        rw [moved,Option.none_or] at bound
        exact ⟨g.other,bound⟩
      | some ref' =>
        rw [moved] at bound
        cases bound
        exact ⟨g,moved⟩
    next => exact ⟨g.other,bound⟩

theorem Hub.Unbinds.refl (h : Hub) : h.Unbinds h := fun _ _ bound => bound

theorem Hub.Updated.unbinds {i : Nat} {w w' : Watcher} (updated : h.Updated i w w' h') : h.Unbinds h' := by
  intro id ref bound
  rw [Hub.Bound,Hub.synced,Hub.unsynced,updated.members] at bound
  exact bound

end

theorem WatchSys.Stepped.unbinds {σ σ' : WatchSys} {act : Act} (stepped : σ.Stepped act σ') (created : act ≠ .endWatcher) :
    σ.hub.Unbinds σ'.hub :=
  stepped.hub_keeps (.refl _) (fun _ _ _ _ kept => kept.drop _ _ _) (fun _ _ _ kept => kept.move _ _) (fun updated _ => updated.unbinds)
    fun _ _ is => absurd is created

theorem WatchSys.unbinds_drops (σ : WatchSys) (ids : List Int) : σ.hub.Unbinds (σ.run (ids.map .dropWatcher)).hub := by
  induction ids generalizing σ with
  | nil => exact .refl _
  | cons id rest ih =>
    intro id' ref bound
    exact (σ.step_cases (.dropWatcher id)).unbinds (fun is => (by cases is)) id' ref (ih _ id' ref bound)

/-- The watcher is as it was, and in its group. -/
structure Hub.Spares (h h' : Hub) (ref : Nat) : Prop where
  watcher : h'.watchers[ref]? = h.watchers[ref]?
  bound : ∀ g id, (h.members g).find? id = some ref → (h'.members g).find? id = some ref

section

variable {h h' : Hub} {ref : Nat}

theorem Hub.Spares.refl (h : Hub) (ref : Nat) : h.Spares h ref := ⟨rfl,fun _ _ bound => bound⟩

theorem Hub.Spares.trans {h'' : Hub} (first : h.Spares h' ref) (second : h'.Spares h'' ref) : h.Spares h'' ref :=
  ⟨second.watcher.trans first.watcher,fun g id bound => second.bound g id (first.bound g id bound)⟩

theorem Hub.Updated.spares {i : Nat} {w w' : Watcher} (updated : h.Updated i w w' h') (other : ref ≠ i) : h.Spares h' ref := by
  refine ⟨by rw [updated.after,if_neg other],fun g id bound => ?_⟩
  rw [updated.members]
  exact bound

theorem Hub.Spares.register {g : Group} {w : Watcher} {opened : w.c.closed = false} (free : (h.members g).find? w.id = none)
    (old : ref < h.watchers.length) : h.Spares (h.register g w opened) ref := by
  refine ⟨List.getElem?_append_left old,fun g' id bound => ?_⟩
  rw [find_register,if_neg]
  · exact bound
  · rintro ⟨rfl,rfl⟩
    cases free.symm.trans bound

theorem WatchSys.spares_drop {σ : WatchSys} {id : Int} (other : σ.hub.picks id ≠ some ref) :
    σ.hub.Spares (σ.step (.dropWatcher id)).hub ref := by
  rcases σ.step_dropWatcher id with run | run <;> rw [run]
  · exact .refl _ _
  · refine ⟨?_,fun g id' bound => ?_⟩
    · change (σ.hub.dropWatcher id).watchers[ref]? = _
      rw [Hub.watchers_dropWatcher,if_neg other]
    · exact (σ.hub.find_dropWatcher id g id' ref).mpr ⟨bound,other⟩

theorem WatchSys.spares_drops {σ : WatchSys} {ids : List Int} (other : ∀ id ∈ ids, ¬ σ.hub.Bound id ref) :
    σ.hub.Spares (σ.run (ids.map .dropWatcher)).hub ref := by
  induction ids generalizing σ with
  | nil => exact .refl _ _
  | cons id rest ih =>
    refine (WatchSys.spares_drop fun picked => other id List.mem_cons_self (.of_picks picked)).trans (ih fun id' later bound => ?_)
    exact other id' (List.mem_cons_of_mem id later) ((σ.step_cases (.dropWatcher id)).unbinds (fun is => (by cases is)) id' ref bound)

end

/-! ### Whose ids -/

/-- `Close` is still going to drop the id. -/
def Stream.Lists (stream : Stream) (id : Int) : Prop :=
  (stream.phase = .opened ∨ stream.phase = .canceled) ∧ (stream.watchers.find? id).isSome = true

instance (stream : Stream) (id : Int) : Decidable (stream.Lists id) := inferInstanceAs (Decidable (_ ∧ _))

/-- The watcher that is being created. -/
def Lock.creation : Lock → Option Creation
  | .creating c => some c
  | .free | .committing _ => none

namespace StreamSys

/-- The stream of a watcher of the id that is in a group, or has a goroutine that has not ended. -/
def holder (σ : StreamSys) (id : Int) (ref : Nat) : Option Nat :=
  match σ.runners[ref]?, σ.hub.watchers[ref]? with
  | some r, some w => if w.id = id ∧ (r.stage ≠ .ended ∨ σ.hub.Bound id ref) then some r.stream else none
  | _, _ => none

/-- The streams that have to do with an id. -/
def holders (σ : StreamSys) (id : Int) : List Nat :=
  (List.range σ.runners.length).filterMap (σ.holder id) ++
    (List.range σ.streams.length).filter fun s => ∃ stream ∈ σ.streams[s]?, stream.Lists id

/-- No stream registers an id that another stream has to do with, or cancels one under which another stream has a watcher. -/
def OwnIds (σ : StreamSys) : StreamAct → Prop
  | .endWatch => ∀ c ∈ σ.base.lock.creation, ∀ s ∈ σ.creator, ∀ s' ∈ σ.holders c.id, s' = s
  | .cancel s id => ∀ ref ∈ σ.hub.picks id, ∀ r ∈ σ.runners[ref]?, r.stream = s
  | _ => True

instance decidableOwnIds (σ : StreamSys) : (act : StreamAct) → Decidable (σ.OwnIds act)
  | .endWatch => inferInstanceAs (Decidable (∀ c ∈ σ.base.lock.creation, ∀ s ∈ σ.creator, ∀ s' ∈ σ.holders c.id, s' = s))
  | .cancel s id => inferInstanceAs (Decidable (∀ ref ∈ σ.hub.picks id, ∀ r ∈ σ.runners[ref]?, r.stream = s))
  | .inner _ | .newStream | .cancelStream _ | .beginWatch _ _ _ | .beginClose _ | .dropWatchers _ | .closeOutput _ | .run _ _
  | .output _ _ => isTrue trivial

section

variable {σ σ' : StreamSys} {s : Nat} {id : Int}

theorem mem_holders : s ∈ σ.holders id ↔
    (∃ (ref : Nat) (r : Runner) (w : Watcher), σ.runners[ref]? = some r ∧ r.stream = s ∧ σ.hub.watchers[ref]? = some w ∧ w.id = id ∧
      (r.stage ≠ .ended ∨ σ.hub.Bound id ref)) ∨
    ∃ stream, σ.streams[s]? = some stream ∧ stream.Lists id := by
  rw [holders,List.mem_append,List.mem_filterMap,List.mem_filter]
  refine or_congr ⟨?_,?_⟩ ⟨?_,?_⟩
  · rintro ⟨ref,-,is⟩
    rw [holder] at is
    split at is
    next r w at_ here =>
      split at is
      next holds =>
        cases is
        exact ⟨ref,r,w,at_,rfl,here,holds⟩
      next => cases is
    next => cases is
  · rintro ⟨ref,r,w,at_,rfl,here,holds⟩
    refine ⟨ref,List.mem_range.mpr (List.getElem?_eq_some_iff.mp at_).1,?_⟩
    rw [holder,at_,here]
    exact if_pos holds
  · rintro ⟨-,found⟩
    obtain ⟨stream,at_,lists⟩ := of_decide_eq_true found
    exact ⟨stream,at_,lists⟩
  · rintro ⟨stream,at_,lists⟩
    exact ⟨List.mem_range.mpr (List.getElem?_eq_some_iff.mp at_).1,decide_eq_true ⟨stream,at_,lists⟩⟩

end

/-- Nobody has to do with an id who had not before. -/
structure Shrinks (σ σ' : StreamSys) : Prop where
  runners : ∀ (ref : Nat) r', σ'.runners[ref]? = some r' →
    ∃ r, σ.runners[ref]? = some r ∧ r.stream = r'.stream ∧ (r'.stage ≠ .ended → r.stage ≠ .ended)
  length : σ'.runners.length = σ.runners.length
  hub : σ.hub.Onward σ'.hub
  bound : σ.hub.Unbinds σ'.hub
  lists : ∀ (s : Nat) stream' id, σ'.streams[s]? = some stream' → stream'.Lists id → ∃ stream, σ.streams[s]? = some stream ∧ stream.Lists id

namespace Shrinks

variable {σ σ' σ'' : StreamSys}

theorem refl (σ : StreamSys) : σ.Shrinks σ :=
  ⟨fun _ r at_ => ⟨r,at_,rfl,id⟩,rfl,.refl _,.refl _,fun _ stream _ at_ lists => ⟨stream,at_,lists⟩⟩

theorem holders (shrinks : σ.Shrinks σ') {s : Nat} {id : Int} (member : s ∈ σ'.holders id) : s ∈ σ.holders id := by
  rw [mem_holders] at member ⊢
  rcases member with ⟨ref,r',w',at_,own,here,named,holds⟩ | ⟨stream',at_,lists⟩
  · obtain ⟨r,before,same,running⟩ := shrinks.runners ref r' at_
    obtain ⟨w,there,onward⟩ := shrinks.hub.watchers ref w' here
    exact Or.inl ⟨ref,r,w,before,same.trans own,there,onward.id.symm.trans named,holds.imp running (shrinks.bound id ref)⟩
  · exact Or.inr (shrinks.lists s stream' id at_ lists)

theorem onBase (shrinks : σ.Shrinks σ') {base : WatchSys} (onward : σ.hub.Onward base.hub) (unbinds : σ.hub.Unbinds base.hub) :
    σ.Shrinks { σ' with base := base } :=
  ⟨shrinks.runners,shrinks.length,onward,unbinds,shrinks.lists⟩

theorem onStream (shrinks : σ.Shrinks σ') {s : Nat} {f : Stream → Stream}
    (lists : ∀ stream id, σ'.streams[s]? = some stream → (f stream).Lists id → stream.Lists id) : σ.Shrinks (σ'.onStream s f) := by
  refine ⟨shrinks.runners,shrinks.length,shrinks.hub,shrinks.bound,fun s' stream' id at_ listed => ?_⟩
  rw [streams_onStream] at at_
  split at at_
  next same =>
    subst same
    obtain ⟨stream,before,rfl⟩ := Option.map_eq_some_iff.mp at_
    exact shrinks.lists s' stream id before (lists stream id before listed)
  next => exact shrinks.lists s' stream' id at_ listed

theorem goto (shrinks : σ.Shrinks σ') {ref : Nat} {stage : RunStage}
    (running : stage = .ended ∨ ∀ r, σ'.runners[ref]? = some r → r.stage ≠ .ended) : σ.Shrinks (σ'.goto ref stage) := by
  refine ⟨fun ref' r' at_ => ?_,(List.length_modify _ _ _).trans shrinks.length,shrinks.hub,shrinks.bound,shrinks.lists⟩
  rw [runners_goto] at at_
  split at at_
  next same =>
    subst same
    obtain ⟨r'',here,rfl⟩ := Option.map_eq_some_iff.mp at_
    obtain ⟨r,before,own,kept⟩ := shrinks.runners ref' r'' here
    refine ⟨r,before,own,fun going => kept ?_⟩
    exact running.resolve_left going r'' here
  next => exact shrinks.runners ref' r' at_

end Shrinks

/-- Every id is the affair of one stream at most. -/
structure Apart (σ : StreamSys) : Prop where
  aligned : σ.runners.length = σ.hub.watchers.length
  alone : ∀ id s s', s ∈ σ.holders id → s' ∈ σ.holders id → s = s'

variable {σ σ' : StreamSys} {act : StreamAct}

theorem Apart.new : StreamSys.new.Apart := ⟨rfl,fun _ _ _ member => absurd member List.not_mem_nil⟩

theorem Apart.shrinks (apart : σ.Apart) (shrinks : σ.Shrinks σ') : σ'.Apart :=
  ⟨shrinks.length.trans (apart.aligned.trans shrinks.hub.length.symm),
    fun id s s' first second => apart.alone id s s' (shrinks.holders first) (shrinks.holders second)⟩

theorem Apart.endWatch (apart : σ.Apart) (alive : σ.base.panicked = false) {c : Creation} {s : Nat} {g : Group}
    (held : σ.base.lock = .creating c) (own : ∀ s' ∈ σ.holders c.id, s' = s)
    (created : σ.hub.newWatcher c σ.base.store = (σ.hub.register g c.watcher c.opened,.ok σ.hub.watchers.length)) :
    (σ.spawn s c.id σ.hub.watchers.length).Apart := by
  have hub : (σ.base.step .endWatcher).hub = σ.hub.register g c.watcher c.opened := by rw [hub_endWatcher alive held,created]
  have watchers : (σ.base.step .endWatcher).hub.watchers = σ.hub.watchers ++ [c.watcher] := by
    rw [hub]
    rfl
  have bound : ∀ {id : Int} {ref : Nat}, (σ.base.step .endWatcher).hub.Bound id ref → ref < σ.hub.watchers.length → σ.hub.Bound id ref := by
    intro id ref bound old
    rw [hub] at bound
    obtain ⟨g',bound⟩ := Hub.bound_iff.mp bound
    rw [Hub.find_register] at bound
    split at bound
    · cases bound
      omega
    · exact Hub.bound_iff.mpr ⟨g',bound⟩
  have before : ∀ {id : Int} {s' : Nat}, s' ∈ (σ.spawn s c.id σ.hub.watchers.length).holders id →
      s' ∈ σ.holders id ∨ id = c.id ∧ s' = s := by
    intro id s' member
    rw [mem_holders] at member
    rcases member with ⟨ref,r,w,at_,rfl,here,named,holds⟩ | ⟨stream,at_,lists⟩
    · change (σ.base.step .endWatcher).hub.watchers[ref]? = some w at here
      rw [watchers] at here
      rcases spawned apart.aligned at_ here with ⟨old,running,there⟩ | ⟨rfl,rfl⟩
      · exact Or.inl (mem_holders.mpr (Or.inl ⟨ref,r,w,running,rfl,there,named,holds.imp_right fun is => bound is old⟩))
      · exact Or.inr ⟨named.symm,rfl⟩
    · change (σ.onStream s _).streams[s']? = some stream at at_
      rw [streams_onStream] at at_
      split at at_
      next same =>
        obtain ⟨stream',there,rfl⟩ := Option.map_eq_some_iff.mp at_
        by_cases new : id = c.id
        · exact Or.inr ⟨new,same⟩
        · obtain ⟨pending,listed⟩ := lists
          change ((stream'.watchers.insert _ _).find? id).isSome = true at listed
          rw [SortedMap.find_insert,if_neg new] at listed
          exact Or.inl (mem_holders.mpr (Or.inr ⟨stream',there,pending,listed⟩))
      next => exact Or.inl (mem_holders.mpr (Or.inr ⟨stream,at_,lists⟩))
  refine ⟨?_,fun id s₁ s₂ first second => ?_⟩
  · change (σ.runners ++ _).length = (σ.base.step .endWatcher).hub.watchers.length
    rw [watchers,List.length_append,List.length_append,apart.aligned]
    rfl
  · rcases before first with old | ⟨is,rfl⟩ <;> rcases before second with old' | ⟨is',rfl⟩
    · exact apart.alone id s₁ s₂ old old'
    · exact own s₁ (is' ▸ old)
    · exact (own s₂ (is ▸ old')).symm
    · rfl

theorem Apart.step (apart : σ.Apart) (alive : σ.base.panicked = false) (own : σ.OwnIds act) (stepped : σ.Stepped act σ') : σ'.Apart := by
  have start := Shrinks.refl σ
  have based : ∀ {act : Act}, act ≠ .endWatcher → σ.Shrinks { σ with base := σ.base.step act } := fun created =>
    start.onBase ((σ.base.step_cases _).onward created) ((σ.base.step_cases _).unbinds created)
  have running : ∀ {ref : Nat} {r : Runner}, σ.runners[ref]? = some r → r.stage ≠ .ended →
      ∀ r', σ.runners[ref]? = some r' → r'.stage ≠ .ended := by
    intro ref r at_ going r' at'
    cases at_.symm.trans at'
    exact going
  cases stepped with
  | waits => exact apart
  | inner inside => exact apart.shrinks (based fun is => (by subst is; cases inside))
  | newStream =>
    refine apart.shrinks ⟨start.runners,rfl,.refl _,.refl _,fun s stream id at_ lists => ?_⟩
    change (σ.streams ++ [Stream.new])[s]? = some stream at at_
    by_cases old : s < σ.streams.length
    · rw [List.getElem?_append_left old] at at_
      exact ⟨stream,at_,lists⟩
    · rw [List.getElem?_append_right (not_lt.mp old)] at at_
      rw [List.mem_singleton.mp (List.mem_of_getElem? at_)] at lists
      exact absurd lists.2 (by simp [Stream.new])
  | cancelStream => exact apart.shrinks (start.onStream fun _ _ _ lists => lists)
  | @beginWatch s req generated stream at_ opened free =>
    have next := @based (.beginWatcher req generated) fun is => (by cases is)
    exact apart.shrinks ⟨next.runners,next.length,next.hub,next.bound,next.lists⟩
  | @failsWatch c e held failed =>
    have hub : (σ.base.step .endWatcher).hub = σ.hub := by rw [hub_endWatcher alive held,failed]
    have onward : σ.hub.Onward (σ.base.step .endWatcher).hub := by rw [hub]; exact .refl _
    have unbinds : σ.hub.Unbinds (σ.base.step .endWatcher).hub := by rw [hub]; exact .refl _
    exact apart.shrinks ⟨start.runners,rfl,onward,unbinds,start.lists⟩
  | @endWatch c s g held creator free created =>
    exact apart.endWatch alive held (own c (by rw [held]; rfl) s creator) created
  | cancel at_ opened free => exact apart.shrinks (based fun is => (by cases is))
  | beginClose at_ opened =>
    refine apart.shrinks (start.onStream fun stream' id at' lists => ⟨Or.inl ?_,lists.2⟩)
    cases at_.symm.trans at'
    exact opened
  | dropWatchers at_ canceled free =>
    refine apart.shrinks ((start.onStream fun stream' id at' lists => ?_).onBase (σ.base.onward_drops _) (σ.base.unbinds_drops _))
    rcases lists.1 with is | is <;> cases is
  | closeOutput at_ dropped =>
    refine apart.shrinks (start.onStream fun stream' id at' lists => ?_)
    rcases lists.1 with is | is <;> cases is
  | leaves at_ stage => exact apart.shrinks (start.goto (Or.inr (running at_ (by rw [stage]; exact fun is => (by cases is)))))
  | takes at_ stage here got =>
    exact apart.shrinks ((based fun is => (by cases is)).goto (Or.inr (running at_ (by rw [stage]; exact fun is => (by cases is)))))
  | @sends ref choice r stream e c at_ stage of opened sent =>
    have next : σ.Shrinks (σ.onStream r.stream fun stream => { stream with outputC := c }) := start.onStream fun _ _ _ lists => lists
    exact apart.shrinks (next.goto (Or.inr (running at_ (by rw [stage]; exact fun is => (by cases is)))))
  | panics at_ stage of closed => exact apart.shrinks (start.onBase (.refl _) (.refl _))
  | parks at_ stage => exact apart.shrinks (start.goto (Or.inr (running at_ (by rw [stage]; exact fun is => (by cases is)))))
  | givesUp at_ stage =>
    refine apart.shrinks (start.goto (Or.inr (running at_ ?_)))
    rcases stage with is | is <;> rw [is] <;> exact fun is => (by cases is)
  | defers at_ stage => exact apart.shrinks (start.goto (Or.inr (running at_ (by rw [stage]; exact fun is => (by cases is)))))
  | drops at_ stage here free => exact apart.shrinks ((based fun is => (by cases is)).goto (Or.inl rfl))
  | output at_ => exact apart.shrinks (start.onStream fun _ _ _ lists => lists)
  | @handsOver s next stream e c at_ runner opened sent =>
    have next : σ.Shrinks (σ.onStream s fun stream => { stream with outputC := c }) := start.onStream fun _ _ _ lists => lists
    exact apart.shrinks (next.goto (Or.inr (running runner fun is => (by cases is))))

/-! ### The steps of one stream -/

end StreamSys

/-- The stream of which a step is an operation or that of a goroutine. -/
def StreamAct.stream (act : StreamAct) (σ : StreamSys) : Option Nat :=
  match act with
  | .inner _ | .newStream => none
  | .cancelStream s | .beginWatch s _ _ | .cancel s _ | .beginClose s | .dropWatchers s | .closeOutput s | .output s _ => some s
  | .endWatch => σ.creator
  | .run ref _ => (σ.runners[ref]?).map (·.stream)

namespace StreamSys

variable {σ σ' : StreamSys} {act : StreamAct}

theorem mem_holders_of_bound {ref : Nat} {r : Runner} (at_ : σ.runners[ref]? = some r) {id : Int} (bound : σ.hub.Bound id ref) :
    r.stream ∈ σ.holders id := by
  obtain ⟨g,found⟩ := Hub.bound_iff.mp bound
  obtain ⟨w,here,named,-⟩ := σ.hub.named g id ref found
  exact mem_holders.mpr (Or.inl ⟨ref,r,w,at_,rfl,here,named,Or.inr bound⟩)

theorem Stepped.spares (stepped : σ.Stepped act σ') (alive : σ.base.panicked = false) (apart : σ.Apart) (own : σ.OwnIds act) {s : Nat}
    (actor : act.stream σ = some s) {ref : Nat} {r : Runner} (runner : σ.runners[ref]? = some r) (other : r.stream ≠ s) :
    σ.hub.Spares σ'.hub ref := by
  have foreign : ∀ {id : Int}, s ∈ σ.holders id → ¬ σ.hub.Bound id ref := fun mine bound =>
    other (apart.alone _ _ _ (mem_holders_of_bound runner bound) mine)
  have different : ∀ {ref' : Nat} {r' : Runner}, σ.runners[ref']? = some r' → r'.stream = s → ref ≠ ref' := by
    rintro ref' r' at_ mine rfl
    cases runner.symm.trans at_
    exact other mine
  cases stepped with
  | inner | newStream => cases actor
  | waits | cancelStream | beginClose | closeOutput | leaves | sends | panics | parks | givesUp | defers | output | handsOver =>
    exact .refl _ _
  | @beginWatch s' req generated stream at_ opened free =>
    have hub : (σ.base.step (.beginWatcher req generated)).hub = σ.hub := by
      rw [WatchSys.step,alive]
      change (σ.base.beginWatcher req generated).hub = _
      rw [WatchSys.beginWatcher,free]
      rfl
    change σ.hub.Spares (σ.base.step (.beginWatcher req generated)).hub ref
    rw [hub]
    exact .refl _ _
  | @failsWatch c e held failed =>
    have hub : (σ.base.step .endWatcher).hub = σ.hub := by rw [hub_endWatcher alive held,failed]
    change σ.hub.Spares (σ.base.step .endWatcher).hub ref
    rw [hub]
    exact .refl _ _
  | @endWatch c s' g held creator free created =>
    have hub : (σ.base.step .endWatcher).hub = σ.hub.register g c.watcher c.opened := by rw [hub_endWatcher alive held,created]
    change σ.hub.Spares (σ.base.step .endWatcher).hub ref
    rw [hub]
    exact .register free (apart.aligned ▸ (List.getElem?_eq_some_iff.mp runner).1)
  | @cancel s' id stream at_ opened free =>
    cases actor
    exact WatchSys.spares_drop fun picked => other (own ref picked r runner)
  | @dropWatchers s' stream at_ canceled free =>
    cases actor
    refine WatchSys.spares_drops fun id listed => foreign (mem_holders.mpr (Or.inr ⟨stream,at_,Or.inr canceled,?_⟩))
    exact SortedMap.mem_keys.mp listed
  | @takes ref' choice r' w e at_ stage here got =>
    have mine : r'.stream = s := by
      rw [StreamAct.stream,at_] at actor
      exact Option.some.inj actor
    have received := σ.base.step_cases (.receive ref')
    change σ.hub.Spares (σ.base.step (.receive ref')).hub ref
    generalize σ.base.step (.receive ref') = base at received
    cases received with
    | waits => exact .refl _ _
    | receive updated => exact updated.spares (different at_ mine)
  | @drops ref' choice r' w at_ stage here free =>
    have mine : r'.stream = s := by
      rw [StreamAct.stream,at_] at actor
      exact Option.some.inj actor
    refine WatchSys.spares_drop fun picked => foreign ?_ (.of_picks picked)
    exact mem_holders.mpr (Or.inl ⟨ref',r',w,at_,mine,here,rfl,Or.inl (by rw [stage]; exact fun is => (by cases is))⟩)

end StreamSys

/-- As long as no stream registers an id that another one has to do with, or cancels one under which another one has a watcher,
    no operation or goroutine of a stream closes, unbinds or changes a watcher of another stream. -/
theorem streams_leave_each_other_alone {acts : List StreamAct} {act : StreamAct}
    (own : Runs.Along StreamSys.step StreamSys.OwnIds .new (acts ++ [act])) {σ : StreamSys} (reached : σ = StreamSys.new.run acts)
    {s : Nat} (actor : act.stream σ = some s) {ref : Nat} {r : Runner} (runner : σ.runners[ref]? = some r) (other : r.stream ≠ s) :
    (σ.step act).hub.watchers[ref]? = σ.hub.watchers[ref]? ∧
      ∀ g id, (σ.hub.members g).find? id = some ref → ((σ.step act).hub.members g).find? id = some ref := by
  obtain ⟨before,now⟩ := Runs.along_append.mp own
  have apart : σ.Apart := by
    rw [reached]
    refine before.invariant .new fun σ act kept ok => ?_
    rw [StreamSys.step]
    split
    · exact kept
    next alive => exact kept.step (Bool.eq_false_iff.mpr alive) ok (σ.act_cases act)
  have ok : σ.OwnIds act := by
    rw [reached]
    exact now.1
  rw [StreamSys.step]
  split
  · exact ⟨rfl,fun _ _ bound => bound⟩
  next alive =>
    have spares := (σ.act_cases act).spares (Bool.eq_false_iff.mpr alive) apart ok actor runner other
    exact ⟨spares.watcher,spares.bound⟩

/-- Two streams, each with a watcher under an id of its own. -/
theorem streams_leave_each_other_alone_at_cancel :
    let acts := [StreamAct.newStream,.newStream,.beginWatch 0 ⟨7,some [97],none,false,0,none⟩ 0,.endWatch,
      .beginWatch 1 ⟨8,some [97],none,false,0,none⟩ 0,.endWatch]
    let σ := StreamSys.new.run acts
    (σ.step (.cancel 0 7)).hub.synced.find? 7 = none ∧ (σ.step (.cancel 0 7)).hub.watchers[1]? = σ.hub.watchers[1]? ∧
      (σ.step (.cancel 0 7)).hub.synced.find? 8 = some 1 := by
  intro acts σ
  have spared := @streams_leave_each_other_alone acts (.cancel 0 7) (by decide) σ rfl 0 rfl 1 ⟨1,.collecting⟩
    (by decide) (by decide)
  exact ⟨by decide,spared.1,spared.2 .synced 8 (by decide)⟩

/-- A stream cancels the watcher of another one. And a watcher under an id that was in use before is dropped by the `Close` of the
    stream that had the id, or by the goroutine of the watcher that had it. -/
theorem streams_drop_foreign_watchers :
    let watch := fun s => [StreamAct.beginWatch s ⟨7,some [97],none,false,0,none⟩ 0,.endWatch]
    let created := [StreamAct.newStream,.newStream] ++ watch 0
    let again := created ++ [.cancel 0 7] ++ watch 1
    let state := fun acts ref => ((StreamSys.new.run acts).hub.watchers[ref]?).map fun w : Watcher => (w.id,w.c.closed)
    ((StreamSys.new.run again).runners[1]?).map (·.stream) = some 1 ∧
      state created 0 = some (7,false) ∧ state (created ++ [.cancel 1 7]) 0 = some (7,true) ∧
      state again 1 = some (7,false) ∧ state (again ++ [.beginClose 0,.dropWatchers 0]) 1 = some (7,true) ∧
      state (again ++ [.run 0 .watcherDone,.run 0 .watcherDone,.run 0 .watcherDone]) 1 = some (7,true) := by
  decide

end Kave
