import Kave.WatchSys
import Kave.Runs

/-! Two producers feed a watcher, commits while it is synced and the loop while it is not. They never get in each other's way,
    since the loop only feeds what was unsynced when it took its batch, and only the loop itself makes a watcher synced. -/

namespace Kave

/-! ### The revision of a new watcher -/

theorem lastRevOf_le {entries : List Entry} {rev : Int} (nonneg : 0 ≤ rev) (below : ∀ e ∈ entries, e.modRev ≤ rev) :
    lastRevOf entries ≤ rev := by
  refine List.foldlRecOn (motive := fun last => last ≤ rev) _ _ nonneg fun last le e member => ?_
  split
  · exact below e member
  · exact le

theorem fetchRange_lastRev_le {b : Buckets} {targetRev : Int} (nonneg : 0 ≤ targetRev)
    (below : ∀ bk e, b.kv.find? bk = some e → e.modRev ≤ targetRev) (kvIndex : TreeIndex) (key : Bytes) (endKey : Option Bytes)
    (limit : Int) : (fetchRange kvIndex b targetRev key endKey limit).lastRev ≤ targetRev := by
  rw [fetchRange]
  simp only
  generalize kvIndex.revisions key endKey targetRev limit = found
  by_cases none : found.1 = []
  · simp [none]
  · simp only [none,if_false]
    refine lastRevOf_le nonneg fun e member => ?_
    obtain ⟨rp,-,read⟩ := List.mem_filterMap.mp member
    exact below _ e read

theorem KvStore.Logged.lastRev_le {s : KvStore} {log : List (KvBucketKey × Entry)} (logged : s.Logged log) {key : Bytes}
    {result : RangeResult} (read : s.range key none 0 0 = .ok result) : result.lastRev ≤ s.currentRev.main := by
  have nonneg := logged.settled.nonneg
  rw [range,doRange] at read
  simp only [gt_iff_lt,not_lt.mpr nonneg,le_refl,if_true,if_false] at read
  split at read
  · cases read
  · cases read
    refine fetchRange_lastRev_le nonneg (fun bk e found => ?_) _ _ _ _
    have known := logged.known bk e found
    rw [logged.dated _ known]
    exact (logged.past _ known).2

theorem Creation.lastRevision_le {s : KvStore} {log : List (KvBucketKey × Entry)} (logged : s.Logged log) {c : Creation}
    (early : c.currentMain ≤ s.currentRev.main) {last : Int} (read : c.lastRevision s = .ok last) : last ≤ s.currentRev.main := by
  rw [Creation.lastRevision] at read
  split at read
  · cases read
    exact early
  · cases run : s.range c.key none 0 0 with
    | error e =>
      rw [run] at read
      cases read
    | ok result =>
      rw [run] at read
      cases read
      exact logged.lastRev_le run

/-! ### Watchers and groups -/

/-- What the watcher has been sent ascends, from its start to its current revision. -/
structure Watcher.Ascending (w : Watcher) : Prop where
  sent : w.c.sent.Pairwise fun a b => a.entry.modRev < b.entry.modRev
  between : ∀ e ∈ w.c.sent, w.startRev < e.entry.modRev ∧ e.entry.modRev ≤ w.currentRev
  started : w.startRev ≤ w.currentRev
  buffer : 0 < w.c.capacity

/-- The revision of a watcher is one of the store, unless it starts in the future and has been sent nothing. -/
def Watcher.Within (w : Watcher) (rev : Int) : Prop := w.currentRev ≤ rev ∨ w.c.sent = [] ∧ w.currentRev = w.startRev

namespace Watcher.Ascending

variable {w : Watcher}

theorem new (c : Creation) : c.watcher.Ascending := ⟨.nil,fun e member => absurd member List.not_mem_nil,le_rfl,(by decide : 0 < watcherChannelBufferSize)⟩

section

variable (ascending : w.Ascending)

include ascending

theorem send {e : Event} (newer : w.currentRev < e.entry.modRev) {c : Chan Event} (sent : w.c.Sent e c) :
    (w.sent e c).Ascending ∧ (w.sent e c).currentRev = e.entry.modRev := by
  have revision : (w.sent e c).currentRev = e.entry.modRev := if_pos newer
  refine ⟨⟨?_,fun x member => ?_,?_,?_⟩,revision⟩
  · change c.sent.Pairwise _
    rw [sent.sent,List.pairwise_append]
    refine ⟨ascending.sent,List.pairwise_singleton _ _,fun x member y last => ?_⟩
    rw [List.mem_singleton.mp last]
    exact (ascending.between x member).2.trans_lt newer
  · rw [revision]
    change x ∈ c.sent at member
    change w.startRev < _ ∧ _
    rw [sent.sent,List.mem_append,List.mem_singleton] at member
    rcases member with before | rfl
    · exact ⟨(ascending.between x before).1,((ascending.between x before).2.trans_lt newer).le⟩
    · exact ⟨ascending.started.trans_lt newer,le_rfl⟩
  · rw [revision]
    exact (ascending.started.trans_lt newer).le
  · change 0 < c.capacity
    rw [sent.capacity]
    exact ascending.buffer

theorem forward {rev : Int} (le : w.currentRev ≤ rev) : Ascending { w with currentRev := rev } :=
  ⟨ascending.sent,fun e member => ⟨(ascending.between e member).1,(ascending.between e member).2.trans le⟩,
    ascending.started.trans le,ascending.buffer⟩

theorem receive : Ascending { w with c := w.c.receive.1 } := by
  refine ⟨?_,?_,ascending.started,?_⟩
  · rw [Chan.sent_receive]
    exact ascending.sent
  · rw [Chan.sent_receive]
    exact ascending.between
  · rw [Chan.capacity_receive]
    exact ascending.buffer

theorem close (cause : Cause) : (w.close cause).Ascending :=
  ⟨ascending.sent,ascending.between,ascending.started,ascending.buffer⟩

theorem cancel (cause : Cause) : (w.cancel cause).Ascending :=
  ⟨ascending.sent,ascending.between,ascending.started,ascending.buffer⟩

theorem sent_ne_nil (full : w.c.free = 0) : w.c.sent ≠ [] := by
  intro none
  have := ascending.buffer
  rw [Chan.free,none,List.length_nil] at full
  omega

end

end Watcher.Ascending

/-- The revision of the watcher at a place. -/
def Hub.revAt (h : Hub) (ref : Nat) : Option Int := (h.watchers[ref]?).map (·.currentRev)

/-- All watchers ascend, and those that lag behind are not ahead of the store. -/
structure Hub.Ordered (h : Hub) (rev : Int) : Prop where
  watchers : ∀ (ref : Nat) (w : Watcher), h.watchers[ref]? = some w → w.Ascending ∧ w.Within rev
  lagging : ∀ id ref r, h.unsynced.find? id = some ref → h.revAt ref = some r → r ≤ rev

namespace Hub

variable {h h' : Hub} {rev : Int} {ref : Nat} {w w' : Watcher}

theorem Updated.revAt (updated : h.Updated ref w w' h') (i : Nat) :
    h'.revAt i = if i = ref then some w'.currentRev else h.revAt i := by
  rw [Hub.revAt,updated.after]
  split <;> rfl

theorem Updated.revAt_same (updated : h.Updated ref w w' h') (same : w'.currentRev = w.currentRev) (i : Nat) :
    h'.revAt i = h.revAt i := by
  rw [updated.revAt]
  split
  next is => rw [is,Hub.revAt,updated.here,same]; rfl
  next => rfl

@[simp] theorem revAt_drop (g : Group) (id : Int) (cause : Cause) (i : Nat) : (h.drop g id cause).revAt i = h.revAt i := by
  rw [revAt,watchers_drop,revAt]
  split
  · rw [Option.map_map]
    rfl
  · rfl

theorem revAt_register {g : Group} (opened : w.c.closed = false) {i : Nat} (old : i < h.watchers.length) :
    (h.register g w opened).revAt i = h.revAt i := by
  rw [revAt,watchers_register,List.getElem?_append_left old]
  rfl

namespace Ordered

section

variable (ordered : h.Ordered rev)

include ordered

theorem mono {rev' : Int} (le : rev ≤ rev') : h.Ordered rev' :=
  ⟨fun ref w at_ => ⟨(ordered.watchers ref w at_).1,(ordered.watchers ref w at_).2.imp_left fun below => below.trans le⟩,
    fun id ref r bound at_ => (ordered.lagging id ref r bound at_).trans le⟩

theorem updated (updated : h.Updated ref w w' h') (ascending : w'.Ascending)
    (within : w'.Within rev) (lags : w'.currentRev ≤ w.currentRev ∨ w'.currentRev ≤ rev) : h'.Ordered rev where
  watchers i x at_ := by
    rw [updated.after] at at_
    split at at_
    · cases at_
      exact ⟨ascending,within⟩
    · exact ordered.watchers i x at_
  lagging id i r bound at_ := by
    rw [Hub.unsynced,updated.members] at bound
    rw [updated.revAt] at at_
    split at at_
    next is =>
      cases at_
      rcases lags with same | below
      · exact same.trans (ordered.lagging id i _ bound (by rw [is,revAt,updated.here]; rfl))
      · exact below
    next => exact ordered.lagging id i r bound at_

theorem drop (g : Group) (id : Int) (cause : Cause) : (h.drop g id cause).Ordered rev where
  watchers i x at_ := by
    rw [watchers_drop] at at_
    split at at_
    · obtain ⟨w,here,rfl⟩ := Option.map_eq_some_iff.mp at_
      exact ⟨(ordered.watchers i w here).1.close cause,(ordered.watchers i w here).2⟩
    · exact ordered.watchers i x at_
  lagging id' i r bound at_ := by
    rw [revAt_drop] at at_
    rw [Hub.unsynced,find_drop] at bound
    split at bound
    · cases bound
    · exact ordered.lagging id' i r bound at_

theorem demote {id : Int} (within : ∀ ref r, h.synced.find? id = some ref → h.revAt ref = some r → r ≤ rev) :
    (h.move .synced id).Ordered rev where
  watchers := ordered.watchers
  lagging id' i r bound at_ := by
    change ((h.move .synced id).members Group.synced.other).find? id' = some i at bound
    rw [find_move_other] at bound
    split at bound
    next is =>
      cases here : (h.members .synced).find? id with
      | some ref =>
        rw [here] at bound
        cases bound
        exact within i r here at_
      | none =>
        rw [here,Option.none_or,← is] at bound
        exact ordered.lagging id' i r bound at_
    next => exact ordered.lagging id' i r bound at_

theorem promote (id : Int) : (h.move .unsynced id).Ordered rev where
  watchers := ordered.watchers
  lagging id' i r bound at_ := by
    rw [Hub.unsynced,find_move_self] at bound
    split at bound
    · cases bound
    · exact ordered.lagging id' i r bound at_

theorem newWatcher {c : Creation} {s : KvStore} (last : ∀ r, c.lastRevision s = .ok r → r ≤ rev) :
    (h.newWatcher c s).1.Ordered rev := by
  rcases h.newWatcher_cases c s with ⟨e,run⟩ | ⟨g,lastRevision,read,chosen,free,run⟩ <;> rw [run]
  · exact ordered
  · change (h.register g c.watcher c.opened).Ordered rev
    constructor
    · intro i x at_
      rw [watchers_register] at at_
      rcases List.mem_append.mp (List.mem_of_getElem? at_) with old | new
      · obtain ⟨j,here⟩ := List.mem_iff_getElem?.mp old
        exact ordered.watchers j x here
      · rw [List.mem_singleton.mp new]
        exact ⟨.new c,Or.inr ⟨rfl,rfl⟩⟩
    · intro id i r bound at_
      rw [Hub.unsynced,find_register] at bound
      split at bound
      next here =>
        cases bound
        have early : c.startRev < lastRevision := not_le.mp fun le => by
          have := here.1.trans (chosen.mpr le)
          cases this
        rw [revAt,watchers_register,List.getElem?_concat_length] at at_
        cases at_
        exact early.le.trans (last lastRevision read)
      next =>
        rw [revAt_register _ (lt_of_find bound)] at at_
        exact ordered.lagging id i r bound at_

end

end Ordered

end Hub

/-! ### What is under way -/

/-- What is left of a `sendAll` is not ahead of `rev`, and an event that has been tested is still newer than the watcher. -/
structure Feed.Ordered (f : Feed) (h : Hub) (rev : Int) : Prop where
  todo : ∀ e ∈ f.todo, e.entry.modRev ≤ rev
  newer : f.tested = true → ∀ e rest r, f.todo = e :: rest → h.revAt f.ref = some r → r < e.entry.modRev

namespace Feed.Ordered

variable {f f' : Feed} {h h' : Hub} {rev current : Int}

theorem congr (ordered : f.Ordered h rev) (same : h'.revAt f.ref = h.revAt f.ref) : f.Ordered h' rev :=
  ⟨ordered.todo,fun tested e rest r is at_ => ordered.newer tested e rest r is (same ▸ at_)⟩

theorem ran (ordered : f.Ordered h rev) (ran : f.Ran h h' f') : f'.Ordered h' rev := by
  cases ran with
  | skipped here todo | sent todo =>
    refine ⟨fun x member => ordered.todo x ?_,fun tested => by cases tested⟩
    rw [todo]
    exact List.mem_cons_of_mem _ member
  | passed here todo live accepted newer =>
    refine ⟨ordered.todo,fun _ e rest r is at_ => ?_⟩
    cases todo.symm.trans is
    rw [Hub.revAt,here] at at_
    cases at_
    exact newer

theorem hub (ordered : f.Ordered h rev) (ran : f.Ran h h' f') (hub : h.Ordered current) (le : rev ≤ current) :
    h'.Ordered current ∧ h'.members = h.members ∧ (∀ i, i ≠ f.ref → h'.revAt i = h.revAt i) ∧
      ∀ r, h.revAt f.ref = some r → ∃ r', h'.revAt f.ref = some r' ∧ (r' = r ∨ r' ≤ rev) := by
  cases ran with
  | skipped | passed => exact ⟨hub,rfl,fun _ _ => rfl,fun r at_ => ⟨r,at_,Or.inl rfl⟩⟩
  | @sent w e rest c h' todo tested room opened updated =>
    have newer : w.currentRev < e.entry.modRev :=
      ordered.newer tested e rest w.currentRev todo (by rw [Hub.revAt,updated.here]; rfl)
    have below : e.entry.modRev ≤ rev := ordered.todo e (by rw [todo]; exact List.mem_cons_self)
    obtain ⟨ascending,revision⟩ := (hub.watchers f.ref w updated.here).1.send newer room
    refine ⟨hub.updated updated ascending ?_ ?_,updated.members,fun i other => ?_,fun r at_ => ⟨e.entry.modRev,?_,Or.inr below⟩⟩
    · exact Or.inl (by rw [revision]; exact below.trans le)
    · exact Or.inr (by rw [revision]; exact below.trans le)
    · rw [updated.revAt,if_neg other]
    · rw [updated.revAt,if_pos rfl,revision]

end Feed.Ordered

/-- A commit only serves synced watchers, and those it found overloaded have been sent something. -/
structure Commit.Ordered (c : Commit) (h : Hub) (rev : Int) : Prop where
  events : ∀ e ∈ c.events, e.entry.modRev ≤ rev
  todo : ∀ ref ∈ c.todo, ∃ id, h.synced.find? id = some ref
  feed : ∀ f, c.feed = some f → (∃ id, h.synced.find? id = some f.ref) ∧ f.Ordered h rev
  removals : ∀ id, (id,SendError.overloaded) ∈ c.removals → ∀ ref r, h.synced.find? id = some ref → h.revAt ref = some r → r ≤ rev

def Lock.Ordered (l : Lock) (h : Hub) (rev : Int) : Prop :=
  match l with
  | .free => True
  | .committing c => c.Ordered h rev
  | .creating c => c.currentMain ≤ rev

/-- The watcher is not synced, and not ahead of `rev`. -/
def Hub.Behind (h : Hub) (ref : Nat) (rev : Int) : Prop :=
  (∀ id, h.synced.find? id ≠ some ref) ∧ ∃ r, h.revAt ref = some r ∧ r ≤ rev

structure Tick.Ordered (t : Tick) (h : Hub) (rev : Int) : Prop where
  storeRev : t.storeRev ≤ rev
  todo : ∀ ref ∈ t.todo, ref ∈ t.batch
  batch : ∀ ref ∈ t.batch, h.Behind ref t.storeRev

def Work.Ordered (work : Work) (t : Tick) (h : Hub) : Prop :=
  match work with
  | .next => True
  | .looked ref revs => ref ∈ t.batch ∧ ∀ bk ∈ revs, bk.rev.main ≤ t.storeRev
  | .feeding f _ => f.ref ∈ t.batch ∧ f.Ordered h t.storeRev

def Loop.Ordered (l : Loop) (h : Hub) (rev : Int) : Prop :=
  match l with
  | .idle => True
  | .taken batch => ∀ ref ∈ batch, h.Behind ref rev
  | .ticking t work => t.Ordered h rev ∧ work.Ordered t h

section

variable {h h' : Hub} {rev rev' : Int}

theorem Lock.Ordered.congr {l : Lock} (ordered : l.Ordered h rev) (le : rev ≤ rev') (members : h'.members = h.members)
    (same : ∀ id ref, h.synced.find? id = some ref → h'.revAt ref = h.revAt ref) : l.Ordered h' rev' := by
  cases l with
  | free => trivial
  | creating c => exact le_trans ordered le
  | committing c =>
    obtain ⟨events,todo,feed,removals⟩ := ordered
    have synced : h'.synced = h.synced := congrFun members .synced
    refine ⟨fun e member => (events e member).trans le,by rwa [synced],fun f is => ?_,?_⟩
    · obtain ⟨⟨id,bound⟩,ordered⟩ := feed f is
      refine ⟨⟨id,by rw [synced]; exact bound⟩,?_⟩
      have kept := ordered.congr (same id f.ref bound)
      exact ⟨fun e member => (kept.todo e member).trans le,kept.newer⟩
    · intro id member ref r bound at_
      rw [synced] at bound
      rw [same id ref bound] at at_
      exact (removals id member ref r bound at_).trans le

theorem Loop.Ordered.congr {l : Loop} (ordered : l.Ordered h rev) (le : rev ≤ rev')
    (same : ∀ ref r, (∀ id, h.synced.find? id ≠ some ref) → h.revAt ref = some r →
      h'.revAt ref = some r ∧ ∀ id, h'.synced.find? id ≠ some ref) : l.Ordered h' rev' := by
  have behind : ∀ {ref : Nat} {rev : Int}, h.Behind ref rev → h'.Behind ref rev := by
    rintro ref rev ⟨apart,r,at_,below⟩
    obtain ⟨at',apart'⟩ := same ref r apart at_
    exact ⟨apart',r,at',below⟩
  cases l with
  | idle => trivial
  | taken batch =>
    intro ref member
    obtain ⟨apart,r,at_,below⟩ := behind (ordered ref member)
    exact ⟨apart,r,at_,below.trans le⟩
  | ticking t work =>
    obtain ⟨⟨storeRev,todo,batch⟩,working⟩ := ordered
    refine ⟨⟨storeRev.trans le,todo,fun ref member => behind (batch ref member)⟩,?_⟩
    cases work with
    | next => trivial
    | looked ref revs => exact working
    | feeding f highest =>
      obtain ⟨apart,r,at_,-⟩ := batch f.ref working.1
      exact ⟨working.1,working.2.congr ((same f.ref r apart at_).1.trans at_.symm)⟩

end

/-- Watchers have left the synced group, and are as they were. -/
structure Hub.Thinned (h : Hub) (rev : Int) (h' : Hub) : Prop where
  ordered : h'.Ordered rev
  revAt : ∀ i, h'.revAt i = h.revAt i
  synced : ∀ id ref, h'.synced.find? id = some ref → h.synced.find? id = some ref

namespace Hub.Thinned

variable {h h' : Hub} {rev : Int}

theorem refl (ordered : h.Ordered rev) : h.Thinned rev h := ⟨ordered,fun _ => rfl,fun _ _ bound => bound⟩

theorem drop (thinned : h.Thinned rev h') (g : Group) (id : Int) (cause : Cause) : h.Thinned rev (h'.drop g id cause) := by
  refine ⟨thinned.ordered.drop _ _ _,fun i => (revAt_drop _ _ _ i).trans (thinned.revAt i),fun id' ref bound => thinned.synced id' ref ?_⟩
  rw [Hub.synced,find_drop] at bound
  split at bound
  · cases bound
  · exact bound

theorem demote (thinned : h.Thinned rev h') {id : Int}
    (within : ∀ ref r, h.synced.find? id = some ref → h.revAt ref = some r → r ≤ rev) : h.Thinned rev (h'.move .synced id) := by
  refine ⟨thinned.ordered.demote fun ref r bound at_ => ?_,thinned.revAt,fun id' ref bound => thinned.synced id' ref ?_⟩
  · exact within ref r (thinned.synced id ref bound) ((thinned.revAt ref).symm.trans at_)
  · rw [Hub.synced,find_move_self] at bound
    split at bound
    · cases bound
    · exact bound

end Hub.Thinned

theorem Loop.Ordered.thinned {l : Loop} {h h' : Hub} {rev : Int} (ordered : l.Ordered h rev) (thinned : h.Thinned rev h') :
    l.Ordered h' rev :=
  ordered.congr le_rfl fun i _ apart at_ => ⟨(thinned.revAt i).trans at_,fun id bound => apart id (thinned.synced id i bound)⟩

/-! ### Every step -/

/-- All that is needed to know that watchers ascend. -/
structure WatchSys.Ordered (σ : WatchSys) : Prop where
  logged : σ.store.Logged σ.log
  pending : ∀ changes, σ.pending = some changes → ∀ e ∈ changes, e.modRev ≤ σ.current
  hub : σ.hub.Ordered σ.current
  lock : σ.lock.Ordered σ.hub σ.current
  loop : σ.loop.Ordered σ.hub σ.current

namespace WatchSys.Ordered

variable {σ : WatchSys}

theorem new : WatchSys.new.Ordered where
  logged := .empty
  pending _ is := by cases is
  hub := ⟨fun ref w at_ => by simp [WatchSys.new,Hub.new] at at_,fun id ref r bound => by simp [WatchSys.new,Hub.unsynced,Hub.new] at bound⟩
  lock := trivial
  loop := trivial

theorem panics (ordered : σ.Ordered) (panicked : Bool) : WatchSys.Ordered { σ with panicked := panicked } :=
  ⟨ordered.logged,ordered.pending,ordered.hub,ordered.lock,ordered.loop⟩

theorem stored (ordered : σ.Ordered) {sys : Sys} {log : List (KvBucketKey × Entry)} {pending : Option (List Entry)}
    (logged : sys.store.Logged log) (le : σ.current ≤ sys.store.currentRev.main)
    (dated : ∀ changes, pending = some changes → ∀ e ∈ changes, e.modRev ≤ sys.store.currentRev.main) :
    WatchSys.Ordered { σ with sys := sys, log := log, pending := pending } :=
  ⟨logged,dated,ordered.hub.mono le,ordered.lock.congr le rfl fun _ _ _ => rfl,
    ordered.loop.congr le fun _ _ apart at_ => ⟨at_,apart⟩⟩

theorem txn (ordered : σ.Ordered) (ops : List Op) : WatchSys.Ordered { σ with
    sys := σ.sys.step (.txn ops), log := σ.log ++ σ.store.newRecords (σ.store.txn ops), pending := σ.store.txnChanges ops } := by
  obtain ⟨changes,done⟩ := ordered.logged.toOrderly.txnDone ops
  have logged := ordered.logged.txn done
  refine ordered.stored logged ?_ fun changes' announced e member => ?_
  · have current := done.appended.current
    change σ.store.currentRev.main ≤ (σ.store.txn ops).currentRev.main
    split at current <;> omega
  · rw [done.announced] at announced
    cases announced
    have stored : e.stored ∈ (σ.store.newRecords (σ.store.txn ops)).map (·.2) := by
      rw [done.changes]
      exact List.mem_map_of_mem member
    obtain ⟨record,inside,is⟩ := List.mem_map.mp stored
    have inLog : record ∈ σ.log ++ σ.store.newRecords (σ.store.txn ops) := List.mem_append_right _ inside
    have modRev : record.2.modRev = e.modRev := by rw [is]; rfl
    rw [← modRev,logged.dated record inLog]
    exact (logged.past record inLog).2

theorem compact (ordered : σ.Ordered) (rev : Int) : WatchSys.Ordered { σ with sys := σ.sys.compact rev } := by
  have store : (σ.sys.compact rev).store = (σ.store.compact rev).1 := by
    rw [Sys.compact,WatchSys.store]
    rcases σ.sys.store.compact rev with ⟨s,e | c⟩ <;> rfl
  have current : (σ.store.compact rev).1.currentRev = σ.store.currentRev := by
    rcases σ.store.compact_eq rev with ⟨-,run⟩ | ⟨-,e,run⟩ <;> rw [run]
  have logged := ordered.logged.compact rev
  rw [← store] at logged
  refine ordered.stored logged ?_ ?_ <;> rw [store,current]
  · exact le_rfl
  · exact ordered.pending

theorem advance (ordered : σ.Ordered) (i : Nat) : WatchSys.Ordered { σ with sys := σ.sys.advance i } := by
  have valid := ordered.logged.settled.before.valid
  have current : (σ.sys.advance i).store.currentRev = σ.store.currentRev := Sys.advance_currentRev valid i
  have logged : (σ.sys.advance i).store.Logged σ.log := by
    rw [Sys.advance]
    split
    · exact ordered.logged
    next job at_ => exact ordered.logged.stepped (job.step_cases valid)
  refine ordered.stored logged ?_ ?_ <;> rw [current]
  · exact le_rfl
  · exact ordered.pending

variable {h : Hub} {ref : Nat} {removals : List (Int × SendError)} {events : List Event} {todo : List Nat} {t : Tick}

section

variable (ordered : σ.Ordered)

include ordered

/-- A step that leaves a watcher like it was keeps the order. -/
theorem touched {w w' : Watcher} (updated : σ.hub.Updated ref w w' h)
    (ascending : w.Ascending → w'.Ascending) (like : w.Like w') :
    WatchSys.Ordered { σ with hub := h } := by
  obtain ⟨before,within⟩ := ordered.hub.watchers ref w updated.here
  refine ⟨ordered.logged,ordered.pending,ordered.hub.updated updated (ascending before) ?_ (Or.inl like.currentRev.le),?_,?_⟩
  · rw [Watcher.Within,like.currentRev,like.sent,like.startRev]
    exact within
  · exact ordered.lock.congr le_rfl updated.members fun _ i _ => updated.revAt_same like.currentRev i
  · refine ordered.loop.congr le_rfl fun i r apart at_ => ⟨(updated.revAt_same like.currentRev i).trans at_,?_⟩
    rw [Hub.synced,updated.members]
    exact apart

theorem thinned (free : σ.lock = .free) (thinned : σ.hub.Thinned σ.current h) :
    WatchSys.Ordered { σ with hub := h } :=
  ⟨ordered.logged,ordered.pending,thinned.ordered,by rw [free]; trivial,ordered.loop.thinned thinned⟩

theorem beginCommit {changes : List Entry} (due : σ.pending = some changes) :
    WatchSys.Ordered { σ with lock := .committing ⟨toKvEvents changes,σ.hub.synced.entries.map (·.2),none,[]⟩ } := by
  refine ⟨ordered.logged,ordered.pending,ordered.hub,⟨fun e member => ?_,fun ref member => ?_,fun f is => ?_,fun id member => ?_⟩,
    ordered.loop⟩
  · obtain ⟨entry,inside,rfl⟩ := List.mem_map.mp member
    exact ordered.pending changes due entry inside
  · exact Hub.mem_refs.mp member
  · cases is
  · cases member

theorem serve
    (held : σ.lock = .committing ⟨events,todo,none,removals⟩) (due : ref ∈ todo) :
    WatchSys.Ordered { σ with lock := .committing ⟨events,todo.erase ref,some ⟨ref,events,false⟩,removals⟩ } := by
  have lock := ordered.lock
  rw [held] at lock
  refine ⟨ordered.logged,ordered.pending,ordered.hub,⟨lock.events,?_,fun f is => ?_,lock.removals⟩,ordered.loop⟩
  · exact fun ref' member => lock.todo ref' (List.mem_of_mem_erase member)
  · cases is
    exact ⟨lock.todo ref due,lock.events,fun tested => by cases tested⟩

theorem sends {f f' : Feed}
    (held : σ.lock = .committing ⟨events,todo,some f,removals⟩) (ran : f.Ran σ.hub h f') :
    WatchSys.Ordered { σ with hub := h, lock := .committing ⟨events,todo,some f',removals⟩ } := by
  have lock := ordered.lock
  rw [held] at lock
  obtain ⟨⟨id,bound⟩,feeding⟩ := lock.feed f rfl
  obtain ⟨hub,members,others,fed⟩ := feeding.hub ran ordered.hub le_rfl
  have synced : h.synced = σ.hub.synced := congrFun members .synced
  refine ⟨ordered.logged,ordered.pending,hub,⟨lock.events,by rw [synced]; exact lock.todo,fun f'' is => ?_,?_⟩,?_⟩
  · cases is
    exact ⟨⟨id,by rw [synced,ran.ref_eq]; exact bound⟩,feeding.ran ran⟩
  · intro id' member ref r bound' at_
    rw [synced] at bound'
    by_cases same : ref = f.ref
    · subst same
      obtain ⟨w,here,-⟩ := σ.hub.named .synced id' _ bound'
      have before : σ.hub.revAt f.ref = some w.currentRev := by rw [Hub.revAt,here]; rfl
      obtain ⟨r',at',le⟩ := fed w.currentRev before
      cases at_.symm.trans at'
      rcases le with rfl | le
      · exact lock.removals id' member f.ref _ bound' before
      · exact le
    · exact lock.removals id' member ref r bound' ((others ref same).symm.trans at_)
  · refine ordered.loop.congr le_rfl fun ref r apart at_ => ⟨(others ref ?_).trans at_,by rw [synced]; exact apart⟩
    rintro rfl
    exact apart id bound

theorem served {f : Feed}
    {e : Watcher.FeedEnd} (held : σ.lock = .committing ⟨events,todo,some f,removals⟩) (ended : f.Ended σ.hub e) :
    WatchSys.Ordered { σ with lock := .committing (Commit.ended ⟨events,todo,some f,removals⟩ σ.hub f.ref e) } := by
  have lock := ordered.lock
  rw [held] at lock
  refine ⟨ordered.logged,ordered.pending,ordered.hub,?_,ordered.loop⟩
  cases e with
  | complete | panicked => exact ⟨lock.events,lock.todo,fun f is => (by cases is),lock.removals⟩
  | failed err =>
    refine ⟨lock.events,lock.todo,fun f is => (by cases is),fun id member ref r bound at_ => ?_⟩
    rcases List.mem_append.mp member with old | new
    · exact lock.removals id old ref r bound at_
    · -- the watcher that was just found overloaded
      obtain ⟨w,here,is⟩ := Option.map_eq_some_iff.mp (Option.mem_toList.mp new)
      cases is
      obtain ⟨⟨id,feeding⟩,-⟩ := lock.feed f rfl
      obtain ⟨w',here',named,-⟩ := σ.hub.named .synced id f.ref feeding
      rw [here] at here'
      cases here'
      rw [named,Hub.synced] at bound
      cases feeding.symm.trans bound
      obtain ⟨ascending,within⟩ := ordered.hub.watchers f.ref w here
      rw [Hub.revAt,here] at at_
      cases at_
      exact within.resolve_right fun start => ascending.sent_ne_nil (ended.full here) start.1

theorem endCommit
    (held : σ.lock = .committing ⟨events,[],none,removals⟩) :
    WatchSys.Ordered { σ with hub := removals.foldl Hub.applyRemoval σ.hub, lock := .free, pending := none } := by
  have lock := ordered.lock
  rw [held] at lock
  have thinned : σ.hub.Thinned σ.current (removals.foldl Hub.applyRemoval σ.hub) :=
    Hub.removals_keep (.refl ordered.hub) (fun _ _ _ kept => kept.drop _ _ _) fun _ id member kept =>
      kept.demote (lock.removals id member)
  exact ⟨ordered.logged,fun _ is => (by cases is),thinned.ordered,trivial,ordered.loop.thinned thinned⟩

theorem endWatcher {c : Creation} (held : σ.lock = .creating c) :
    WatchSys.Ordered { σ with hub := (σ.hub.newWatcher c σ.store).1, lock := .free } := by
  have lock := ordered.lock
  rw [held] at lock
  refine ⟨ordered.logged,ordered.pending,ordered.hub.newWatcher fun r read => Creation.lastRevision_le ordered.logged lock read,
    trivial,ordered.loop.congr le_rfl fun i r apart at_ => ?_⟩
  rcases σ.hub.newWatcher_cases c σ.store with ⟨e,run⟩ | ⟨g,lastRevision,read,chosen,free,run⟩ <;> rw [run]
  · exact ⟨at_,apart⟩
  · obtain ⟨w,here,-⟩ := Option.map_eq_some_iff.mp at_
    have old : i < σ.hub.watchers.length := (List.getElem?_eq_some_iff.mp here).1
    refine ⟨(Hub.revAt_register c.opened old).trans at_,fun id bound => ?_⟩
    rw [Hub.synced,Hub.find_register] at bound
    split at bound
    · cases bound
      exact absurd old (lt_irrefl _)
    · exact apart id bound

theorem take {batch : List Nat} (taken : σ.hub.Batch batch) :
    WatchSys.Ordered { σ with loop := .taken batch } := by
  refine ⟨ordered.logged,ordered.pending,ordered.hub,ordered.lock,fun ref member => ?_⟩
  obtain ⟨id,bound⟩ := Hub.mem_refs.mp (taken.2.1 ref member)
  obtain ⟨w,here,-⟩ := σ.hub.named .unsynced id ref bound
  have at_ : σ.hub.revAt ref = some w.currentRev := by rw [Hub.revAt,here]; rfl
  exact ⟨fun id' bound' => (by cases (Hub.unique bound' bound).1),w.currentRev,at_,ordered.hub.lagging id ref _ bound at_⟩

theorem working {t t' : Tick} {work work' : Work} {failures : Failures}
    (at_ : σ.loop = .ticking t work) (storeRev : t'.storeRev = t.storeRev) (batch : t'.batch = t.batch)
    (todo : ∀ ref ∈ t'.todo, ref ∈ t.todo) (works : work'.Ordered t' σ.hub) :
    WatchSys.Ordered { σ with failures := failures, loop := .ticking t' work' } := by
  have loop := ordered.loop
  rw [at_] at loop
  refine ⟨ordered.logged,ordered.pending,ordered.hub,ordered.lock,⟨by rw [storeRev]; exact loop.1.storeRev,?_,?_⟩,works⟩
  · intro ref member
    rw [batch]
    exact loop.1.todo ref (todo ref member)
  · rw [batch,storeRev]
    exact loop.1.batch

theorem concluded {t t' : Tick} {work : Work} (at_ : σ.loop = .ticking t work)
    (todo : ∀ ref ∈ t'.todo, ref ∈ t.todo) (storeRev : t'.storeRev = t.storeRev) (batch : t'.batch = t.batch) {id : Int}
    {verdict : Watcher.Verdict} : (σ.conclude t' id verdict).Ordered := by
  cases verdict <;> exact ordered.working at_ storeRev batch todo trivial

theorem fed {work work' : Work} (at_ : σ.loop = .ticking t work) (inBatch : ref ∈ t.batch)
    (hub : h.Ordered σ.current) (members : h.members = σ.hub.members) (others : ∀ i, i ≠ ref → h.revAt i = σ.hub.revAt i)
    (moved : ∃ r, h.revAt ref = some r ∧ r ≤ t.storeRev) (works : work'.Ordered t h) :
    WatchSys.Ordered { σ with hub := h, loop := .ticking t work' } := by
  have loop := ordered.loop
  rw [at_] at loop
  have synced : h.synced = σ.hub.synced := congrFun members .synced
  refine ⟨ordered.logged,ordered.pending,hub,ordered.lock.congr le_rfl members fun id i bound => others i ?_,
    ⟨loop.1.storeRev,loop.1.todo,fun i member => ?_⟩,works⟩
  · rintro rfl
    exact (loop.1.batch _ inBatch).1 id bound
  · rw [Hub.Behind,synced]
    refine ⟨(loop.1.batch i member).1,?_⟩
    by_cases same : i = ref
    · rw [same]
      exact moved
    · rw [others i same]
      exact (loop.1.batch i member).2

theorem forwards {w : Watcher} (at_ : σ.loop = .ticking t .next)
    (due : ref ∈ t.todo) (updated : σ.hub.Updated ref w { w with currentRev := t.storeRev } h) :
    (conclude { σ with hub := h } (t.visiting ref) w.id .promote).Ordered := by
  have loop := ordered.loop
  rw [at_] at loop
  have inBatch := loop.1.todo ref due
  obtain ⟨-,r,here,le⟩ := loop.1.batch ref inBatch
  rw [Hub.revAt,updated.here] at here
  cases here
  have hub : h.Ordered σ.current := ordered.hub.updated updated ((ordered.hub.watchers ref w updated.here).1.forward le)
    (Or.inl loop.1.storeRev) (Or.inr loop.1.storeRev)
  have moved : WatchSys.Ordered { σ with hub := h, loop := .ticking t .next } :=
    ordered.fed at_ inBatch hub updated.members (fun i other => by rw [updated.revAt,if_neg other])
      ⟨t.storeRev,by rw [updated.revAt,if_pos rfl],le_rfl⟩ trivial
  exact moved.working rfl rfl rfl (fun _ => Tick.todo_visiting) trivial

theorem feeds {f f' : Feed} {highest : Int} (at_ : σ.loop = .ticking t (.feeding f highest))
    (ran : f.Ran σ.hub h f') : WatchSys.Ordered { σ with hub := h, loop := .ticking t (.feeding f' highest) } := by
  have loop := ordered.loop
  rw [at_] at loop
  obtain ⟨inBatch,feeding⟩ := loop.2
  obtain ⟨hub,members,others,fed⟩ := feeding.hub ran ordered.hub loop.1.storeRev
  obtain ⟨-,r,before,le⟩ := loop.1.batch f.ref inBatch
  refine ordered.fed at_ inBatch hub members others ?_ ⟨by rw [ran.ref_eq]; exact inBatch,feeding.ran ran⟩
  obtain ⟨r',after,either⟩ := fed r before
  exact ⟨r',after,either.elim (fun same => same ▸ le) id⟩

theorem fetches {revs : List KvBucketKey}
    (at_ : σ.loop = .ticking t (.looked ref revs)) (found : Watcher.fetch σ.store.backend.buckets.kv revs = some events) :
    WatchSys.Ordered { σ with loop := .ticking t (.feeding ⟨ref,events,false⟩ (Watcher.highestRev events)) } := by
  have loop := ordered.loop
  rw [at_] at loop
  refine ordered.working at_ rfl rfl (fun _ member => member) ⟨loop.2.1,fun e member => ?_,fun tested => (by cases tested)⟩
  have read : some e ∈ revs.map fun bk => (σ.store.backend.buckets.kv.find? bk).map toKvEvent := by
    rw [Watcher.fetch_eq_some.mp found]
    exact List.mem_map_of_mem member
  obtain ⟨bk,listed,is⟩ := List.mem_map.mp read
  obtain ⟨entry,stored,rfl⟩ := Option.map_eq_some_iff.mp is
  have dated : entry.modRev = bk.rev.main := ordered.logged.dated _ (ordered.logged.known bk entry stored)
  exact dated.trans_le (loop.2.2 bk listed)

theorem step {act : Act} {σ' : WatchSys} (stepped : σ.Stepped act σ') : σ'.Ordered := by
  cases stepped with
  | waits => exact ordered
  | txn quiet => exact ordered.txn _
  | compact quiet => exact ordered.compact _
  | advance => exact ordered.advance _
  | beginCommit due free => exact ordered.beginCommit due
  | serve held due => exact ordered.serve held due
  | sends held ran => exact ordered.sends held ran
  | served held ended => exact (ordered.served held ended).panics _
  | endCommit held => exact ordered.endCommit held
  | beginWatcher free => exact ⟨ordered.logged,ordered.pending,ordered.hub,le_rfl,ordered.loop⟩
  | endWatcher held => exact ordered.endWatcher held
  | cancel updated => exact ordered.touched updated (fun kept => kept.cancel _) (.cancel _ _)
  | receive updated => exact ordered.touched updated Watcher.Ascending.receive (.receive _)
  | dropWatcher free =>
    exact ordered.thinned free (Hub.dropWatcher_keeps (.refl ordered.hub) (fun _ _ _ _ kept => kept.drop _ _ _) _)
  | dropAll free => exact ordered.thinned free (Hub.dropAll_keeps (.refl ordered.hub) fun _ _ _ _ kept => kept.drop _ _ _)
  | take at_ free taken => exact ordered.take taken
  | readRevisions at_ =>
    have loop := ordered.loop
    rw [at_] at loop
    exact ⟨ordered.logged,ordered.pending,ordered.hub,ordered.lock,⟨le_rfl,fun _ member => member,loop⟩,trivial⟩
  | givesUp at_ due here => exact ordered.concluded at_ (fun _ => Tick.todo_visiting) rfl rfl
  | forwards at_ due kept current updated => exact ordered.forwards at_ due updated
  | looks at_ due here kept =>
    have loop := ordered.loop
    rw [at_] at loop
    refine ordered.working at_ rfl rfl (fun _ => Tick.todo_visiting) ⟨loop.1.todo _ due,fun bk listed => ?_⟩
    obtain ⟨-,-,-,-,below⟩ := TreeIndex.mem_revisionsRange.mp listed
    exact Int.lt_add_one_iff.mp below
  | misses at_ here => exact ordered.concluded at_ (fun _ member => member) rfl rfl
  | fetches at_ found => exact ordered.fetches at_ found
  | feeds at_ ran => exact ordered.feeds at_ ran
  | loses at_ => exact ordered.working at_ rfl rfl (fun _ member => member) trivial
  | fed at_ ended here => exact (ordered.concluded at_ (fun _ member => member) rfl rfl).panics _
  | @finish t at_ free done =>
    have hub : (t.finish σ.failures σ.hub).2.Ordered σ.current :=
      Tick.finish_keeps (P := fun h => h.Ordered σ.current) ordered.hub (fun _ _ _ kept => kept.drop _ _ _)
        (fun _ _ _ kept => kept.promote _) σ.failures
    exact ⟨ordered.logged,ordered.pending,hub,by rw [free]; trivial,trivial⟩

end

end WatchSys.Ordered

/-- In every run, whatever is sent to a watcher is newer than its start and than all it was sent before. -/
theorem watcher_receives_in_order (acts : List Act) {ref : Nat} {w : Watcher} (at_ : (WatchSys.new.run acts).hub.watchers[ref]? = some w) :
    w.c.sent.Pairwise (fun a b => a.entry.modRev < b.entry.modRev) ∧ ∀ e ∈ w.c.sent, w.startRev < e.entry.modRev := by
  have ordered : (WatchSys.new.run acts).Ordered :=
    List.foldlRecOn _ _ .new fun σ kept act _ => kept.step (σ.step_cases act)
  have ascending := (ordered.hub.watchers ref w at_).1
  exact ⟨ascending.sent,fun e member => (ascending.between e member).1⟩

/-- One change that both producers offer: the loop has sent it when the commit gets to it. -/
theorem watcher_receives_change_once :
    let commit := [Act.txn [.put [97] (some [1]) 0],.beginCommit,.endCommit]
    let acts := commit ++ commit ++ [.beginWatcher ⟨7,some [97],none,false,1,none⟩ 0,.endWatcher,
      .txn [.put [97] (some [1]) 0],.take [0],.readRevisions,.look 0,.fetch,.feed true,.feed true,.feed true,.feed true,.feed true,
      .finish,.beginCommit,.serve 0,.send true,.send true,.endCommit]
    (WatchSys.new.run acts).hub.sentAt 0 = some [⟨.put,⟨[97],some [1],1,2,2,0⟩⟩,⟨.put,⟨[97],some [1],1,3,3,0⟩⟩] ∧
      ∃ w, (WatchSys.new.run acts).hub.watchers[0]? = some w ∧
        w.c.sent.Pairwise (fun a b => a.entry.modRev < b.entry.modRev) ∧ ∀ e ∈ w.c.sent, w.startRev < e.entry.modRev := by
  intro commit acts
  have registered : ((WatchSys.new.run acts).hub.watchers[0]?).isSome := by decide
  exact ⟨by decide,_,(Option.some_get registered).symm,watcher_receives_in_order acts (Option.some_get registered).symm⟩

end Kave
