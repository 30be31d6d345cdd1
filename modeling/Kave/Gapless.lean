import Kave.CompactionGap

/-! Watchers of a single key, without compactions: what a watcher has been sent, and what is still to come. Transactions, their
    announcements and new watchers leave nothing out, as long as no transaction has two changes for one watcher. -/

namespace Kave

open TreeIndex KeyIndex

/-! ### One key -/

def Watcher.SingleKey (w : Watcher) : Prop := w.keyEnd = none ∧ w.keyStart ≠ []

theorem Watcher.singleKey_kind : Watcher.Kind Watcher.SingleKey := fun w w' same single => by
  rw [SingleKey,← same.keyStart,← same.keyEnd]
  exact single

theorem Watcher.SingleKey.key_eq {w : Watcher} (single : w.SingleKey) {e : Event} (accepted : w.accepts e = true) :
    e.entry.key = w.keyStart := by
  have covered : w.covers e.entry.key = true := ((Bool.and_eq_true _ _).mp accepted).2
  simpa [covers,single.1,single.2] using covered

theorem TreeIndex.Valid.le_look {ti : TreeIndex} (valid : ti.Valid) {key : Bytes} {t : Int}
    (past : ∀ bk ∈ ti.records key, bk.rev.main ≤ t) {created mod : Revision} {version : Int}
    (alive : ti.look key t = some (created,mod,version)) {bk : KvBucketKey} (member : bk ∈ ti.records key) : bk.rev ≤ mod := by
  rw [look] at alive
  rw [records] at past member
  cases found : ti.find? key with
  | none => simp [found] at alive
  | some ki =>
    simp only [found,Option.bind_some,Option.map_some,Option.getD_some] at alive past member
    obtain ⟨-,ended,current,lives⟩ := valid key ki found
    have inside : ∀ {bk}, bk ∈ ki.bucketKeys → bk.rev ∈ allRevs ended ++ current.revs := by
      intro bk member
      rw [← lives.revs_eq]
      exact List.mem_map_of_mem member
    have newest : ki.modRev.main ≤ t := by
      have last := List.mem_of_getLast? lives.newest
      rw [← lives.revs_eq] at last
      obtain ⟨bk,known,same⟩ := List.mem_map.mp last
      rw [← same]
      exact past bk known
    rw [lives.view_now newest] at alive
    obtain ⟨last,at_,is⟩ := Option.map_eq_some_iff.mp alive
    cases is
    have same : mod = ki.modRev := by
      have newest := lives.newest
      rw [List.getLast?_append,at_] at newest
      exact Option.some.inj newest
    rw [same]
    exact lives.le_modRev (inside member)

/-- No change of a key is above the last revision that a read of it tells. -/
theorem KvStore.Logged.le_lastRev {s : KvStore} {log : List (KvBucketKey × Entry)} (logged : s.Logged log)
    (complete : s.Complete log) {key : Bytes} (nonempty : key ≠ []) {result : RangeResult}
    (read : s.range key none 0 0 = .ok result) {e : KvBucketKey × Entry} (member : e ∈ log) (named : e.2.key = key) :
    e.1.rev.main ≤ result.lastRev := by
  have nonneg := logged.settled.nonneg
  have record : e.1 ∈ s.kvIndex.records key := named ▸ complete.index e member
  have past : ∀ bk ∈ s.kvIndex.records key, bk.rev.main ≤ s.currentRev.main := by
    intro bk inside
    obtain ⟨entry,known,-⟩ := logged.listed key bk inside
    exact (logged.past _ known).2
  rw [range,doRange] at read
  simp only [reduceCtorEq,and_false,gt_iff_lt,not_lt.mpr nonneg,le_refl,if_true,if_false] at read
  split at read
  · cases read
  · cases read
    have looked := unsafeGet_toOption s.kvIndex key s.currentRev.main
    rw [fetchRange,revisions,if_pos ⟨rfl,nonempty⟩]
    cases found : s.kvIndex.unsafeGet key s.currentRev.main with
    | error err => exact past e.1 record
    | ok answer =>
      obtain ⟨created,mod,version⟩ := answer
      rw [found] at looked
      have alive : s.kvIndex.look key s.currentRev.main = some (created,mod,version) := looked.symm
      have le := logged.settled.before.valid.le_look past alive record
      obtain ⟨entry,known,-⟩ := logged.listed key _ (look_mem alive).1
      have stored := complete.kv _ known
      have dated : entry.modRev = mod.main := logged.dated _ known
      have positive : 0 < mod.main := (logged.past _ known).1
      have last : lastRevOf [entry] = mod.main := by simp [lastRevOf,dated,positive]
      simp only [List.cons_ne_nil,if_false,List.length_singleton,le_refl,true_or,if_true,List.take_succ_cons,List.take_zero,
        List.filterMap_cons,List.filterMap_nil,KvBucketKey.encodeRevisionAsBucketKey,stored,last]
      exact Revision.main_le_of_le le

/-- No change of the key of a new watcher is above the revision it is compared with. -/
theorem Creation.le_lastRevision {s : KvStore} {log : List (KvBucketKey × Entry)} (logged : s.Logged log) (complete : s.Complete log)
    {c : Creation} (point : c.endKey = none) (nonempty : c.key ≠ []) {last : Int} (read : c.lastRevision s = .ok last)
    {e : KvBucketKey × Entry} (member : e ∈ log) (named : e.2.key = c.key) : e.1.rev.main ≤ last := by
  rw [Creation.lastRevision,if_neg (by simp [point])] at read
  cases run : s.range c.key none 0 0 with
  | error err =>
    rw [run] at read
    cases read
  | ok result =>
    rw [run] at read
    cases read
    exact logged.le_lastRev complete nonempty run member named

/-! ### What is sent and what is still to come -/

@[simp] theorem Entry.stored_stored (e : Entry) : e.stored.stored = e.stored := rfl

theorem Watcher.accepts_stored (w : Watcher) (e : Entry) : w.accepts (toKvEvent e.stored) = w.accepts (toKvEvent e) := rfl

def Watcher.Got (w : Watcher) (e : KvBucketKey × Entry) : Prop := e.2.stored ∈ w.c.sent.map (·.entry.stored)

/-- It has been sent all that it accepts between its start and its revision. -/
def Watcher.Gapless (w : Watcher) (log : List (KvBucketKey × Entry)) : Prop :=
  ∀ e ∈ log, w.accepts (toKvEvent e.2) = true → w.startRev < e.1.rev.main → e.1.rev.main ≤ w.currentRev → w.Got e

/-- What it accepts above its revision is among `owed`. -/
def Watcher.Awaits (w : Watcher) (log : List (KvBucketKey × Entry)) (owed : List Entry) : Prop :=
  ∀ e ∈ log, w.accepts (toKvEvent e.2) = true → w.currentRev < e.1.rev.main → e.2.stored ∈ owed

/-- What a commit is still to offer to a watcher. -/
def Commit.left (c : Commit) (ref : Nat) : List Event :=
  if ref ∈ c.todo then c.events else ((c.feed.filter (·.ref = ref)).map (·.todo)).getD []

/-- What the synced watcher at a place is still to be offered. -/
def WatchSys.owed (σ : WatchSys) (ref : Nat) : List Entry :=
  match σ.lock with
  | .committing c => (c.left ref).map (·.entry.stored)
  | .free | .creating _ => (σ.pending.getD []).map Entry.stored

/-- The commit is going to remove the watcher from its group. -/
def Lock.Removes (l : Lock) (id : Int) : Prop :=
  match l with
  | .committing c => ∃ err, (id,err) ∈ c.removals
  | .free | .creating _ => False

/-- The commit serves every watcher once, and has at most one event for it. -/
structure Commit.Fair (c : Commit) (h : Hub) (pending : Option (List Entry)) : Prop where
  announced : ∃ changes, pending = some changes ∧ c.events = toKvEvents changes
  once : c.todo.Nodup
  fed : ∀ f, c.feed = some f → f.ref ∉ c.todo ∧ (∀ x ∈ f.todo, x ∈ c.events) ∧ ∀ id w, h.synced.find? id = some f.ref → h.watchers[f.ref]? = some w → w.SingleKey →
    (f.todo.filter w.accepts).length ≤ 1 ∧ (f.tested = true → ∀ x rest, f.todo = x :: rest → w.accepts x = true)
  unserved : ∀ id ref, h.synced.find? id = some ref → ref ∈ c.todo ∨ (∃ f, c.feed = some f ∧ f.ref = ref) → ∀ err, (id,err) ∉ c.removals

def Lock.Fair (l : Lock) (h : Hub) (pending : Option (List Entry)) : Prop :=
  match l with
  | .committing c => c.Fair h pending
  | .free | .creating _ => True

/-- The last event of a visit has the highest revision. -/
def Loop.Bounded (l : Loop) (h : Hub) : Prop :=
  match l with
  | .ticking _ (.looked ref revs) => ∀ w, h.watchers[ref]? = some w → w.SingleKey → revs.Pairwise fun a b => a.rev < b.rev
  | .ticking _ (.feeding f highest) => ∀ w, h.watchers[f.ref]? = some w → w.SingleKey → ∀ x ∈ f.todo, x.entry.modRev ≤ highest
  | .ticking _ .next | .idle | .taken _ => True

/-- No watcher of a single key has a gap. -/
structure WatchSys.Gapless (σ : WatchSys) : Prop where
  jobs : σ.sys.jobs = []
  complete : σ.store.Complete σ.log
  watchers : ∀ (ref : Nat) w, σ.hub.watchers[ref]? = some w → w.SingleKey → w.Gapless σ.log
  lock : σ.lock.Fair σ.hub σ.pending
  synced : ∀ id ref w, σ.hub.synced.find? id = some ref → σ.hub.watchers[ref]? = some w → w.SingleKey →
    σ.lock.Removes id ∨ w.Awaits σ.log (σ.owed ref)
  loop : σ.loop.Bounded σ.hub

/-! ### Changes of the hub -/

/-- What is synced was synced before, and is as it was. -/
def Hub.KeepsSynced (h h' : Hub) : Prop :=
  ∀ id ref w', h'.synced.find? id = some ref → h'.watchers[ref]? = some w' →
    h.synced.find? id = some ref ∧ ∃ w, h.watchers[ref]? = some w ∧ w.Like w'

section

variable {h h' : Hub} {w w' : Watcher} {log : List (KvBucketKey × Entry)} {ref : Nat}

theorem Watcher.Like.singleKey (like : w.Like w') (single : w'.SingleKey) : w.SingleKey := singleKey_kind w w' like.toSame single

theorem Watcher.Like.gapless (like : w.Like w') (gapless : w.Gapless log) : w'.Gapless log := by
  intro e member accepted after upTo
  rw [like.accepts] at accepted
  rw [like.startRev] at after
  rw [like.currentRev] at upTo
  rw [Got,like.sent]
  exact gapless e member accepted after upTo

theorem Watcher.Like.awaits (like : w.Like w') {owed : List Entry} (awaits : w.Awaits log owed) : w'.Awaits log owed := by
  intro e member accepted above
  rw [like.accepts] at accepted
  rw [like.currentRev] at above
  exact awaits e member accepted above

theorem Hub.KeepsSynced.refl (h : Hub) : h.KeepsSynced h := fun _ _ w bound at_ => ⟨bound,w,at_,.refl w⟩

theorem Hub.Updated.keepsSynced (updated : h.Updated ref w w' h')
    (untouched : w.Like w' ∨ ∀ id, h.synced.find? id ≠ some ref) : h.KeepsSynced h' := by
  intro id i x bound at_
  rw [Hub.synced,updated.members] at bound
  rw [updated.after] at at_
  refine ⟨bound,?_⟩
  split at at_
  next is =>
    cases at_
    exact ⟨w,by rw [is]; exact updated.here,untouched.resolve_right fun apart => apart id (is ▸ bound)⟩
  next => exact ⟨x,at_,.refl x⟩

theorem Hub.Updated.allLike (updated : h.Updated ref w w' h') (like : w.Like w') : h.AllLike h' := by
  intro i x at_
  rw [updated.after] at at_
  split at at_
  next is =>
    cases at_
    exact ⟨w,by rw [is]; exact updated.here,like⟩
  next => exact ⟨x,at_,.refl x⟩

theorem Hub.KeepsSynced.drop (kept : h.KeepsSynced h') (g : Group) (id : Int) (cause : Cause) :
    h.KeepsSynced (h'.drop g id cause) := by
  intro id' i x bound at_
  rw [Hub.synced,find_drop] at bound
  split at bound
  · cases bound
  · rw [watchers_drop] at at_
    split at at_
    · obtain ⟨y,here,rfl⟩ := Option.map_eq_some_iff.mp at_
      obtain ⟨bound',z,before,like⟩ := kept id' i y bound here
      exact ⟨bound',z,before,like.trans (.close y cause)⟩
    · exact kept id' i x bound at_

theorem Hub.KeepsSynced.bound (kept : h.KeepsSynced h') {id : Int} (bound : h'.synced.find? id = some ref) :
    h.synced.find? id = some ref := by
  obtain ⟨w,here,-⟩ := h'.named .synced id ref bound
  exact (kept id ref w bound here).1

theorem Hub.KeepsSynced.trans {h'' : Hub} (first : h.KeepsSynced h') (second : h'.KeepsSynced h'') : h.KeepsSynced h'' := by
  intro id ref w'' bound at_
  obtain ⟨bound',w',here',like'⟩ := second id ref w'' bound at_
  obtain ⟨bound'',w,here,like⟩ := first id ref w' bound' here'
  exact ⟨bound'',w,here,like.trans like'⟩

theorem Hub.KeepsSynced.demote (kept : h.KeepsSynced h') (id : Int) : h.KeepsSynced (h'.move .synced id) := by
  intro id' i x bound at_
  rw [Hub.synced,find_move_self] at bound
  split at bound
  · cases bound
  · exact kept id' i x bound at_

theorem Hub.removals_synced (removals : List (Int × SendError)) (h : Hub) :
    h.KeepsSynced (removals.foldl applyRemoval h) ∧
      ∀ id err, (id,err) ∈ removals → (removals.foldl applyRemoval h).synced.find? id = none := by
  induction removals generalizing h with
  | nil => exact ⟨.refl h,fun id err member => (by cases member)⟩
  | cons r rest ih =>
    have first : h.KeepsSynced (h.applyRemoval r) ∧ (h.applyRemoval r).synced.find? r.1 = none := by
      obtain ⟨id,err⟩ := r
      cases err with
      | overloaded => exact ⟨(KeepsSynced.refl h).demote id,by
          change ((h.move .synced id).members .synced).find? id = none
          rw [find_move_self,if_pos rfl]⟩
      | canceled => exact ⟨(KeepsSynced.refl h).drop _ _ _,(h.find_drop .synced id id .canceled .synced).trans (if_pos ⟨rfl,rfl⟩)⟩
      | deadlineExceeded =>
        exact ⟨(KeepsSynced.refl h).drop _ _ _,(h.find_drop .synced id id .deadlineExceeded .synced).trans (if_pos ⟨rfl,rfl⟩)⟩
    obtain ⟨kept,gone⟩ := ih (h.applyRemoval r)
    refine ⟨first.1.trans kept,fun id err member => ?_⟩
    rcases List.mem_cons.mp member with rfl | later
    · cases found : ((_ :: rest).foldl applyRemoval h).synced.find? id with
      | none => rfl
      | some ref => cases first.2.symm.trans (kept.bound found)
    · exact gone id err later

theorem Lock.Fair.congr {l : Lock} {pending : Option (List Entry)} (fair : l.Fair h pending) (kept : h.KeepsSynced h') :
    l.Fair h' pending := by
  cases l with
  | free | creating => trivial
  | committing c =>
    refine ⟨fair.announced,fair.once,fun f is => ⟨(fair.fed f is).1,(fair.fed f is).2.1,fun id x bound at_ single => ?_⟩,
      fun id ref bound => fair.unserved id ref (kept.bound bound)⟩
    obtain ⟨bound',y,here,like⟩ := kept id f.ref x bound at_
    have accepts : x.accepts = y.accepts := funext like.accepts
    rw [accepts]
    exact (fair.fed f is).2.2 id y bound' here (like.singleKey single)

theorem Loop.Bounded.congr {l : Loop} (bounded : l.Bounded h)
    (kept : ∀ (ref : Nat) w', h'.watchers[ref]? = some w' → ref < h.watchers.length → ∃ w, h.watchers[ref]? = some w ∧ w.Same w')
    {rev : Int} (ordered : l.Ordered h rev) : l.Bounded h' := by
  cases l with
  | idle | taken => trivial
  | ticking t work =>
    cases work with
    | next => trivial
    | looked ref revs =>
      intro w' at_ single
      obtain ⟨w,here,same⟩ := kept ref w' at_ (ordered.1.batch ref ordered.2.1).lt
      exact bounded w here (Watcher.singleKey_kind w w' same single)
    | feeding f highest =>
      intro w' at_ single
      obtain ⟨w,here,same⟩ := kept f.ref w' at_ (ordered.1.batch f.ref ordered.2.1).lt
      exact bounded w here (Watcher.singleKey_kind w w' same single)

end

/-! ### Commits -/

section

variable {c : Commit} {ref : Nat}

theorem Commit.left_todo (due : ref ∈ c.todo) : c.left ref = c.events := if_pos due

theorem Commit.left_feed {f : Feed} (served : f.ref ∉ c.todo) (feeding : c.feed = some f) : c.left f.ref = f.todo := by
  rw [left,if_neg served,feeding,Option.filter_some,if_pos (by simp)]
  rfl

theorem Commit.left_none (served : ref ∉ c.todo) (other : ∀ f, c.feed = some f → f.ref ≠ ref) : c.left ref = [] := by
  rw [left,if_neg served]
  cases feeding : c.feed with
  | none => rfl
  | some f =>
    rw [Option.filter_some,if_neg (by simpa using other f feeding)]
    rfl

theorem Commit.left_congr {c' : Commit} (events : c'.events = c.events) (todo : ref ∈ c'.todo ↔ ref ∈ c.todo)
    (other : ∀ f, c.feed = some f → f.ref ≠ ref) (other' : ∀ f, c'.feed = some f → f.ref ≠ ref) : c'.left ref = c.left ref := by
  by_cases due : ref ∈ c.todo
  · rw [left_todo due,left_todo (todo.mpr due),events]
  · rw [left_none due other,left_none (fun due' => due (todo.mp due')) other']

theorem Commit.left_others {events : List Event} {todo : List Nat} {f f' : Feed} {removals : List (Int × SendError)}
    (ref_eq : f'.ref = f.ref) (other : ref ≠ f.ref) :
    Commit.left ⟨events,todo,some f',removals⟩ ref = Commit.left ⟨events,todo,some f,removals⟩ ref := by
  refine Commit.left_congr rfl Iff.rfl (fun g is => ?_) fun g is => ?_
  · cases is
    exact Ne.symm other
  · cases is
    rw [ref_eq]
    exact Ne.symm other

end

theorem Watcher.Awaits.tail {w : Watcher} {log : List (KvBucketKey × Entry)} {x : Event} {rest : List Event}
    (awaits : w.Awaits log ((x :: rest).map (·.entry.stored)))
    (apart : ∀ e ∈ log, w.accepts (toKvEvent e.2) = true → w.currentRev < e.1.rev.main → e.2.stored ≠ x.entry.stored) :
    w.Awaits log (rest.map (·.entry.stored)) := by
  intro e member accepted above
  have coming := awaits e member accepted above
  rw [List.map_cons,List.mem_cons] at coming
  exact coming.resolve_left (apart e member accepted above)

theorem Commit.Fair.accepts_eq {c : Commit} {h : Hub} {pending : Option (List Entry)} (fair : c.Fair h pending) {x : Event}
    (offered : x ∈ c.events) {e : KvBucketKey × Entry} (is : e.2.stored = x.entry.stored) (w : Watcher) :
    w.accepts (toKvEvent e.2) = w.accepts x := by
  obtain ⟨changes,-,events⟩ := fair.announced
  rw [events] at offered
  obtain ⟨entry,-,rfl⟩ := List.mem_map.mp offered
  change e.2.stored = entry.stored at is
  rw [← w.accepts_stored,is,w.accepts_stored]

theorem WatchSys.owed_idle {σ : WatchSys} (idle : ∀ c, σ.lock ≠ .committing c) (ref : Nat) :
    σ.owed ref = (σ.pending.getD []).map Entry.stored := by
  rw [owed]
  split
  next c held => exact absurd held (idle c)
  next => rfl
  next => rfl

theorem Lock.removes_idle {l : Lock} (idle : ∀ c, l ≠ .committing c) (id : Int) : ¬ l.Removes id := by
  cases l with
  | committing c => exact absurd rfl (idle c)
  | free | creating => exact fun removes => removes

namespace WatchSys.Gapless

variable {σ : WatchSys}

theorem new : WatchSys.new.Gapless where
  jobs := rfl
  complete := ⟨fun e member => absurd member List.not_mem_nil,fun e member => absurd member List.not_mem_nil⟩
  watchers _ _ _ _ e member := absurd member List.not_mem_nil
  lock := trivial
  synced _ _ _ bound := by simp [WatchSys.new,Hub.synced,Hub.new] at bound
  loop := trivial

/-- A transaction owes its changes to the synced watchers. -/
theorem txn (gapless : σ.Gapless) (ordered : σ.Ordered) (quiet : σ.pending = none) (ops : List Op) : WatchSys.Gapless { σ with
    sys := σ.sys.step (.txn ops), log := σ.log ++ σ.store.newRecords (σ.store.txn ops), pending := σ.store.txnChanges ops } := by
  obtain ⟨changes,done⟩ := ordered.logged.toOrderly.txnDone ops
  have main : ∀ e ∈ σ.store.newRecords (σ.store.txn ops), e.1.rev.main = σ.current + 1 := done.appended.main
  have idle : ∀ c, σ.lock ≠ .committing c := by
    intro c held
    have fair := gapless.lock
    rw [held] at fair
    obtain ⟨_,pending,-⟩ := fair.announced
    cases quiet.symm.trans pending
  refine ⟨?_,gapless.complete.txn done,fun ref w at_ single e member accepted after upTo => ?_,?_,
    fun id ref w bound at_ single => Or.inr fun e member accepted above => ?_,gapless.loop⟩
  · change σ.sys.jobs.map _ = []
    rw [gapless.jobs,List.map_nil]
  · rcases List.mem_append.mp member with old | new
    · exact gapless.watchers ref w at_ single e old accepted after upTo
    · have := main e new
      rcases (ordered.hub.watchers ref w at_).2 with within | ⟨-,start⟩ <;> omega
  · cases held : σ.lock with
    | free | creating => trivial
    | committing c => exact absurd held (idle c)
  · have before : σ.owed ref = [] := by
      rw [owed_idle idle,quiet]
      rfl
    rw [owed_idle]
    · change e.2.stored ∈ ((σ.store.txnChanges ops).getD []).map Entry.stored
      rw [done.announced]
      rcases List.mem_append.mp member with old | new
      · have awaits := (gapless.synced id ref w bound at_ single).resolve_left (Lock.removes_idle idle id)
        rw [before] at awaits
        exact absurd (awaits e old accepted above) List.not_mem_nil
      · have change : e.2 ∈ changes.map Entry.stored := by
          rw [← done.changes]
          exact List.mem_map_of_mem new
        obtain ⟨entry,inside,is⟩ := List.mem_map.mp change
        rw [← is,Entry.stored_stored]
        exact List.mem_map_of_mem inside
    · exact idle

theorem advance (gapless : σ.Gapless) (i : Nat) : WatchSys.Gapless { σ with sys := σ.sys.advance i } := by
  have same : σ.sys.advance i = σ.sys := by
    rw [Sys.advance,gapless.jobs]
    rfl
  rw [same]
  exact gapless

theorem beginCommit (gapless : σ.Gapless) {changes : List Entry} (due : σ.pending = some changes) (free : σ.lock = .free) :
    WatchSys.Gapless { σ with lock := .committing ⟨toKvEvents changes,σ.hub.synced.entries.map (·.2),none,[]⟩ } := by
  have idle : ∀ c, σ.lock ≠ .committing c := fun c held => by cases free.symm.trans held
  refine ⟨gapless.jobs,gapless.complete,gapless.watchers,⟨⟨changes,due,rfl⟩,σ.hub.refs_nodup .synced,fun f is => (by cases is),
    fun _ _ _ _ _ member => (by cases member)⟩,fun id ref w bound at_ single => Or.inr ?_,gapless.loop⟩
  have awaits := (gapless.synced id ref w bound at_ single).resolve_left (Lock.removes_idle idle id)
  have owed : σ.owed ref = (Commit.left ⟨toKvEvents changes,σ.hub.synced.entries.map (·.2),none,[]⟩ ref).map (·.entry.stored) := by
    rw [owed_idle idle,due,Commit.left_todo (Hub.mem_refs.mpr ⟨id,bound⟩),toKvEvents,List.map_map]
    rfl
  rw [owed] at awaits
  exact awaits

theorem serve (gapless : σ.Gapless) {events : List Event} {todo : List Nat} {removals : List (Int × SendError)} {ref : Nat}
    (held : σ.lock = .committing ⟨events,todo,none,removals⟩) (due : ref ∈ todo)
    (few : ∀ w, σ.hub.watchers[ref]? = some w → w.SingleKey → (events.filter w.accepts).length ≤ 1) :
    WatchSys.Gapless { σ with lock := .committing ⟨events,todo.erase ref,some ⟨ref,events,false⟩,removals⟩ } := by
  have fair := gapless.lock
  rw [held] at fair
  have served : ref ∉ todo.erase ref := fair.once.not_mem_erase
  refine ⟨gapless.jobs,gapless.complete,gapless.watchers,⟨fair.announced,fair.once.erase ref,fun f is => ?_,?_⟩,
    fun id ref' w bound at_ single => ?_,gapless.loop⟩
  · cases is
    exact ⟨served,fun _ member => member,fun id w _ at_ single => ⟨few w at_ single,fun tested => (by cases tested)⟩⟩
  · rintro id ref' bound (later | ⟨f,is,rfl⟩)
    · exact fair.unserved id ref' bound (Or.inl (List.mem_of_mem_erase later))
    · cases is
      exact fair.unserved id ref bound (Or.inl due)
  · have before := gapless.synced id ref' w bound at_ single
    rw [WatchSys.owed,held] at before
    refine before.imp (fun removes => removes) fun awaits => ?_
    have left : Commit.left ⟨events,todo.erase ref,some ⟨ref,events,false⟩,removals⟩ ref' =
        Commit.left ⟨events,todo,none,removals⟩ ref' := by
      by_cases same : ref' = ref
      · subst same
        rw [@Commit.left_todo ⟨events,todo,none,removals⟩ ref' due]
        exact @Commit.left_feed ⟨events,todo.erase ref',some ⟨ref',events,false⟩,removals⟩ ⟨ref',events,false⟩ served rfl
      · refine Commit.left_congr rfl (List.mem_erase_of_ne same) (fun f is => (by cases is)) fun f is => ?_
        cases is
        exact Ne.symm same
    change w.Awaits σ.log ((Commit.left _ ref').map _)
    rw [left]
    exact awaits

section

variable {events : List Event} {todo : List Nat} {f f' : Feed} {removals : List (Int × SendError)} {h : Hub}

theorem awaits_feed (gapless : σ.Gapless) (held : σ.lock = .committing ⟨events,todo,some f,removals⟩) {id : Int} {w : Watcher}
    (bound : σ.hub.synced.find? id = some f.ref) (at_ : σ.hub.watchers[f.ref]? = some w) (single : w.SingleKey) :
    w.Awaits σ.log (f.todo.map (·.entry.stored)) := by
  have fair := gapless.lock
  have synced := gapless.synced id f.ref w bound at_ single
  simp only [WatchSys.owed,held] at fair synced
  rw [@Commit.left_feed ⟨events,todo,some f,removals⟩ f (fair.fed f rfl).1 rfl] at synced
  refine synced.resolve_left ?_
  rintro ⟨err,removed⟩
  exact fair.unserved id f.ref bound (Or.inr ⟨f,rfl,rfl⟩) err removed

theorem feed_goes_on (gapless : σ.Gapless) (held : σ.lock = .committing ⟨events,todo,some f,removals⟩) (ref_eq : f'.ref = f.ref)
    (synced : ∀ id, h.synced.find? id = σ.hub.synced.find? id)
    (others : ∀ ref : Nat, ref ≠ f.ref → h.watchers[ref]? = σ.hub.watchers[ref]?)
    (mine : ∀ w, h.watchers[f.ref]? = some w → w.SingleKey → w.Gapless σ.log)
    (fewer : ∀ x ∈ f'.todo, x ∈ f.todo)
    (few : ∀ id w, σ.hub.synced.find? id = some f.ref → h.watchers[f.ref]? = some w → w.SingleKey →
      ((f'.todo.filter w.accepts).length ≤ 1 ∧ (f'.tested = true → ∀ x rest, f'.todo = x :: rest → w.accepts x = true)) ∧
        w.Awaits σ.log (f'.todo.map (·.entry.stored)))
    (loop : σ.loop.Bounded h) : WatchSys.Gapless { σ with hub := h, lock := .committing ⟨events,todo,some f',removals⟩ } := by
  have fair := gapless.lock
  have before := gapless.synced
  simp only [WatchSys.owed,held] at fair before
  obtain ⟨served,offered,-⟩ := fair.fed f rfl
  have served' : f'.ref ∉ todo := by
    rw [ref_eq]
    exact served
  refine ⟨gapless.jobs,gapless.complete,fun ref w at_ single => ?_,⟨fair.announced,fair.once,fun g is => ?_,?_⟩,
    fun id ref w bound at_ single => ?_,loop⟩
  · change h.watchers[ref]? = some w at at_
    by_cases same : ref = f.ref
    · exact mine w (same ▸ at_) single
    · exact gapless.watchers ref w (others ref same ▸ at_) single
  · cases is
    refine ⟨served',fun x member => offered x (fewer x member),fun id w bound at_ single => ?_⟩
    change h.synced.find? id = _ at bound
    change h.watchers[f'.ref]? = some w at at_
    rw [ref_eq] at bound at_
    rw [synced] at bound
    exact (few id w bound at_ single).1
  · intro id ref bound unserved
    change h.synced.find? id = _ at bound
    rw [synced] at bound
    refine fair.unserved id ref bound (unserved.imp_right ?_)
    rintro ⟨g,is,named⟩
    cases is
    exact ⟨f,rfl,ref_eq.symm.trans named⟩
  · change h.synced.find? id = some ref at bound
    change h.watchers[ref]? = some w at at_
    change Lock.Removes (.committing ⟨events,todo,some f',removals⟩) id ∨
      w.Awaits σ.log ((Commit.left ⟨events,todo,some f',removals⟩ ref).map _)
    rw [synced] at bound
    by_cases same : ref = f.ref
    · subst same
      have left : Commit.left ⟨events,todo,some f',removals⟩ f.ref = f'.todo := by
        rw [← ref_eq]
        exact @Commit.left_feed ⟨events,todo,some f',removals⟩ f' served' rfl
      rw [left]
      exact Or.inr (few id w bound at_ single).2
    · rw [Commit.left_others ref_eq same]
      exact before id ref w bound (others ref same ▸ at_) single

theorem ne_of_old (ordered : σ.Ordered) {w : Watcher} {x : Event} (old : x.entry.modRev ≤ w.currentRev) {e : KvBucketKey × Entry}
    (member : e ∈ σ.log) (above : w.currentRev < e.1.rev.main) : e.2.stored ≠ x.entry.stored := by
  intro is
  have date : e.2.modRev = e.1.rev.main := ordered.logged.dated e member
  have same : e.2.stored.modRev = x.entry.stored.modRev := congrArg Entry.modRev is
  change e.2.modRev = x.entry.modRev at same
  omega

theorem passes (gapless : σ.Gapless) (held : σ.lock = .committing ⟨events,todo,some f,removals⟩) {w : Watcher} {x : Event}
    {rest : List Event} (here : σ.hub.watchers[f.ref]? = some w) (todo_ : f.todo = x :: rest) (accepted : w.accepts x = true) :
    WatchSys.Gapless { σ with lock := .committing ⟨events,todo,some ⟨f.ref,f.todo,true⟩,removals⟩ } := by
  have fair := gapless.lock
  rw [held] at fair
  refine @feed_goes_on σ events todo f ⟨f.ref,f.todo,true⟩ removals σ.hub gapless held rfl (fun _ => rfl) (fun _ _ => rfl)
    (gapless.watchers f.ref) (fun _ member => member) (fun id w' bound at_ single => ⟨⟨?_,fun _ y rest' is => ?_⟩,?_⟩) gapless.loop
  · exact ((fair.fed f rfl).2.2 id w' bound at_ single).1
  · cases todo_.symm.trans is
    cases here.symm.trans at_
    exact accepted
  · exact gapless.awaits_feed held bound at_ single

theorem skips (gapless : σ.Gapless) (ordered : σ.Ordered) (held : σ.lock = .committing ⟨events,todo,some f,removals⟩) {w : Watcher}
    {x : Event} {rest : List Event} (here : σ.hub.watchers[f.ref]? = some w) (todo_ : f.todo = x :: rest)
    (skips : w.accepts x = false ∨ x.entry.modRev ≤ w.currentRev) :
    WatchSys.Gapless { σ with lock := .committing ⟨events,todo,some ⟨f.ref,rest,false⟩,removals⟩ } := by
  have fair := gapless.lock
  rw [held] at fair
  have first : x ∈ f.todo := by
    rw [todo_]
    exact List.mem_cons_self
  refine @feed_goes_on σ events todo f ⟨f.ref,rest,false⟩ removals σ.hub gapless held rfl (fun _ => rfl) (fun _ _ => rfl)
    (gapless.watchers f.ref) (fun y member => by rw [todo_]; exact List.mem_cons_of_mem _ member)
    (fun id w' bound at_ single => ⟨⟨?_,fun tested => (by cases tested)⟩,?_⟩) gapless.loop
  · have one := ((fair.fed f rfl).2.2 id w' bound at_ single).1
    rw [todo_] at one
    exact ((List.sublist_cons_self x rest).filter _).length_le.trans one
  · have awaits := gapless.awaits_feed held bound at_ single
    rw [todo_] at awaits
    cases here.symm.trans at_
    refine awaits.tail fun e member accepted above is => ?_
    rcases skips with refused | old
    · rw [fair.accepts_eq ((fair.fed f rfl).2.1 x first) is,refused] at accepted
      cases accepted
    · exact ne_of_old ordered old member above is

theorem gapless_sent (gapless : σ.Gapless) (held : σ.lock = .committing ⟨events,todo,some f,removals⟩) {id : Int}
    (bound : σ.hub.synced.find? id = some f.ref) {w : Watcher} (here : σ.hub.watchers[f.ref]? = some w) (single : w.SingleKey) {x : Event}
    {rest : List Event} (todo_ : f.todo = x :: rest) (tested : f.tested = true) (newer : w.currentRev < x.entry.modRev)
    {c : Chan Event} (room : w.c.Sent x c) : (w.sent x c).Gapless σ.log := by
  have fair := gapless.lock
  rw [held] at fair
  obtain ⟨-,offered,few⟩ := fair.fed f rfl
  obtain ⟨one,head⟩ := few id w bound here single
  intro e member accepted after _
  rw [Watcher.Same.accepts ⟨rfl,rfl,rfl,rfl,rfl⟩] at accepted
  change w.startRev < _ at after
  change e.2.stored ∈ c.sent.map _
  rw [room.sent,List.map_append,List.mem_append]
  by_cases old : e.1.rev.main ≤ w.currentRev
  · exact Or.inl (gapless.watchers f.ref w here single e member accepted after old)
  · -- what is still to come for the watcher can only be the event
    obtain ⟨y,later,is⟩ := List.mem_map.mp (gapless.awaits_feed held bound here single e member accepted (not_le.mp old))
    have accY : w.accepts y = true := by
      rw [← fair.accepts_eq (offered y later) is.symm]
      exact accepted
    rw [todo_,List.filter_cons_of_pos (head tested x rest todo_),List.length_cons] at one
    rw [todo_] at later
    rcases List.mem_cons.mp later with rfl | more
    · exact Or.inr (List.mem_singleton.mpr is.symm)
    · have := List.length_pos_of_mem (List.mem_filter.mpr ⟨more,accY⟩)
      omega

theorem sends (gapless : σ.Gapless) (ordered : σ.Ordered) (held : σ.lock = .committing ⟨events,todo,some f,removals⟩)
    (ran : f.Ran σ.hub h f') : WatchSys.Gapless { σ with hub := h, lock := .committing ⟨events,todo,some f',removals⟩ } := by
  cases ran with
  | passed here todo_ live accepted newer => exact gapless.passes held here todo_ accepted
  | skipped here todo_ untested skipped => exact gapless.skips ordered held here todo_ skipped
  | @sent w x rest c h todo_ tested room opened updated =>
    have fair := gapless.lock
    have lock := ordered.lock
    rw [held] at fair lock
    obtain ⟨⟨id₀,bound₀⟩,feeding⟩ := lock.feed f rfl
    have newer : w.currentRev < x.entry.modRev :=
      feeding.newer tested x rest w.currentRev todo_ (by rw [Hub.revAt,updated.here]; rfl)
    have revision : (w.sent x c).currentRev = x.entry.modRev := if_pos newer
    have same : w.Same (w.sent x c) := ⟨rfl,rfl,rfl,rfl,rfl⟩
    have after : h.watchers[f.ref]? = some (w.sent x c) := by rw [updated.after,if_pos rfl]
    refine @feed_goes_on σ events todo f ⟨f.ref,rest,false⟩ removals h gapless held rfl (fun id => ?_)
      (fun ref other => by rw [updated.after,if_neg other]) (fun w' at_ single => ?_)
      (fun y member => by rw [todo_]; exact List.mem_cons_of_mem _ member)
      (fun id w' bound at_ single => ⟨⟨?_,fun tested => (by cases tested)⟩,?_⟩)
      (gapless.loop.congr (fun ref w' at_ _ => ?_) ordered.loop)
    · rw [Hub.synced,updated.members]
      rfl
    · cases after.symm.trans at_
      exact gapless.gapless_sent held bound₀ updated.here (Watcher.singleKey_kind w _ same single) todo_ tested newer room
    · cases after.symm.trans at_
      have one := ((fair.fed f rfl).2.2 id w bound updated.here (Watcher.singleKey_kind w _ same single)).1
      have accepts : (w.sent x c).accepts = w.accepts := funext same.accepts
      rw [todo_] at one
      rw [accepts]
      exact ((List.sublist_cons_self x rest).filter _).length_le.trans one
    · cases after.symm.trans at_
      have awaits := gapless.awaits_feed held bound updated.here (Watcher.singleKey_kind w _ same single)
      have awaits' : (w.sent x c).Awaits σ.log (f.todo.map (·.entry.stored)) := by
        intro e member accepted above
        rw [same.accepts] at accepted
        rw [revision] at above
        exact awaits e member accepted (newer.trans above)
      rw [todo_] at awaits'
      exact awaits'.tail fun e member _ above => ne_of_old ordered revision.ge member above
    · rw [updated.after] at at_
      split at at_
      next is =>
        cases at_
        exact ⟨w,by rw [is]; exact updated.here,same⟩
      next => exact ⟨w',at_,.refl w'⟩

end

/-- A watcher that has been served is owed nothing more, or is going to be removed. -/
theorem served (gapless : σ.Gapless) (ordered : σ.Ordered) {events : List Event} {todo : List Nat} {f : Feed} {removals : List (Int × SendError)}
    {e : Watcher.FeedEnd} (held : σ.lock = .committing ⟨events,todo,some f,removals⟩) (ended : f.Ended σ.hub e)
    (alive : e ≠ .panicked) :
    WatchSys.Gapless { σ with lock := .committing (Commit.ended ⟨events,todo,some f,removals⟩ σ.hub f.ref e) } := by
  have fair := gapless.lock
  have synced := gapless.synced
  have lock := ordered.lock
  simp only [WatchSys.owed,held] at fair synced
  rw [held] at lock
  obtain ⟨served,-,-⟩ := fair.fed f rfl
  have mine : Commit.left ⟨events,todo,some f,removals⟩ f.ref = f.todo :=
    @Commit.left_feed ⟨events,todo,some f,removals⟩ f served rfl
  -- what the commit has left is less by this watcher
  have left : ∀ {removals' : List (Int × SendError)} {ref : Nat}, Commit.left ⟨events,todo,none,removals'⟩ ref =
      if ref = f.ref then [] else Commit.left ⟨events,todo,some f,removals⟩ ref := by
    intro removals' ref
    split
    next is =>
      subst is
      exact Commit.left_none served fun g is => (by cases is)
    next other =>
      refine Commit.left_congr rfl Iff.rfl (fun g is => ?_) fun g is => (by cases is)
      cases is
      exact Ne.symm other
  refine ⟨gapless.jobs,gapless.complete,gapless.watchers,?_,?_,gapless.loop⟩
  · cases e with
    | panicked => exact absurd rfl alive
    | complete =>
      refine ⟨fair.announced,fair.once,fun g is => (by cases is),fun id ref bound unserved => ?_⟩
      exact fair.unserved id ref bound (unserved.imp_right fun ⟨g,is,_⟩ => (by cases is))
    | failed err =>
      refine ⟨fair.announced,fair.once,fun g is => (by cases is),?_⟩
      rintro id ref bound (later | ⟨g,is,-⟩) err' member
      · rcases List.mem_append.mp member with old | new
        · exact fair.unserved id ref bound (Or.inl later) err' old
        · obtain ⟨w,here,is⟩ := Option.map_eq_some_iff.mp (Option.mem_toList.mp new)
          cases is
          obtain ⟨⟨id₀,bound₀⟩,-⟩ := lock.feed f rfl
          obtain ⟨w',here',named,-⟩ := σ.hub.named .synced id₀ f.ref bound₀
          cases here.symm.trans here'
          change σ.hub.synced.find? w.id = some ref at bound
          rw [named] at bound
          cases bound₀.symm.trans bound
          exact served later
      · cases is
  · intro id ref w bound at_ single
    have before := synced id ref w bound at_ single
    cases e with
    | panicked => exact absurd rfl alive
    | complete =>
      change _ ∨ w.Awaits σ.log ((Commit.left ⟨events,todo,none,removals⟩ ref).map _)
      rw [left]
      split
      next is =>
        subst is
        rw [mine] at before
        cases ended with
        | gone missing => cases missing.symm.trans at_
        | complete none =>
          rw [none] at before
          exact before
      next => exact before
    | failed err =>
      change Lock.Removes (.committing ⟨events,todo,none,removals ++ _⟩) id ∨
        w.Awaits σ.log ((Commit.left ⟨events,todo,none,removals ++ _⟩ ref).map _)
      rw [left]
      split
      next is =>
        subst is
        obtain ⟨w',here',named,-⟩ := σ.hub.named .synced id f.ref bound
        refine Or.inl ⟨err,List.mem_append_right _ ?_⟩
        rw [here',Option.map_some,named]
        exact List.mem_singleton.mpr rfl
      next => exact before.imp_left fun ⟨err',removed⟩ => ⟨err',List.mem_append_left _ removed⟩

/-- At the end of a commit, who is still owed something is removed. -/
theorem endCommit (gapless : σ.Gapless) (ordered : σ.Ordered) {events : List Event} {removals : List (Int × SendError)}
    (held : σ.lock = .committing ⟨events,[],none,removals⟩) :
    WatchSys.Gapless { σ with hub := removals.foldl Hub.applyRemoval σ.hub, lock := .free, pending := none } := by
  have synced := gapless.synced
  simp only [WatchSys.owed,held] at synced
  have like : σ.hub.AllLike (removals.foldl Hub.applyRemoval σ.hub) :=
    Hub.removals_keep (.refl σ.hub) (fun _ _ _ kept => kept.drop _ _ _) fun _ _ _ kept => kept
  refine ⟨gapless.jobs,gapless.complete,fun ref w' at_ single => ?_,trivial,fun id ref w' bound at_ single => ?_,
    gapless.loop.congr (fun ref w' at_ _ => ?_) ordered.loop⟩
  · obtain ⟨w,here,likewise⟩ := like ref w' at_
    exact likewise.gapless (gapless.watchers ref w here (likewise.singleKey single))
  · obtain ⟨kept,gone⟩ := Hub.removals_synced removals σ.hub
    obtain ⟨bound',w,here,likewise⟩ := kept id ref w' bound at_
    have before := synced id ref w bound' here (likewise.singleKey single)
    rw [Commit.left_none List.not_mem_nil fun g is => (by cases is)] at before
    refine Or.inr (likewise.awaits (before.resolve_left ?_))
    rintro ⟨err,removed⟩
    cases (gone id err removed).symm.trans bound
  · obtain ⟨w,here,likewise⟩ := like ref w' at_
    exact ⟨w,here,likewise.toSame⟩

theorem touched (gapless : σ.Gapless) (ordered : σ.Ordered) {h : Hub} (like : σ.hub.AllLike h) (kept : σ.hub.KeepsSynced h) :
    WatchSys.Gapless { σ with hub := h } := by
  refine ⟨gapless.jobs,gapless.complete,fun ref w' at_ single => ?_,gapless.lock.congr kept,fun id ref w' bound at_ single => ?_,
    gapless.loop.congr (fun ref w' at_ _ => ?_) ordered.loop⟩
  · obtain ⟨w,here,likewise⟩ := like ref w' at_
    exact likewise.gapless (gapless.watchers ref w here (likewise.singleKey single))
  · obtain ⟨bound',w,here,likewise⟩ := kept id ref w' bound at_
    exact (gapless.synced id ref w bound' here (likewise.singleKey single)).imp (fun removes => removes) likewise.awaits
  · obtain ⟨w,here,likewise⟩ := like ref w' at_
    exact ⟨w,here,likewise.toSame⟩

/-- A new watcher starts without a gap. -/
theorem endWatcher (gapless : σ.Gapless) (ordered : σ.Ordered) {c : Creation} (held : σ.lock = .creating c) :
    WatchSys.Gapless { σ with hub := (σ.hub.newWatcher c σ.store).1, lock := .free } := by
  have idle : ∀ c, σ.lock ≠ .committing c := fun c' held' => by cases held.symm.trans held'
  have synced : ∀ id ref w, σ.hub.synced.find? id = some ref → σ.hub.watchers[ref]? = some w → w.SingleKey →
      w.Awaits σ.log ((σ.pending.getD []).map Entry.stored) := by
    intro id ref w bound at_ single
    have before := (gapless.synced id ref w bound at_ single).resolve_left (Lock.removes_idle idle id)
    rw [owed_idle idle] at before
    exact before
  rcases σ.hub.newWatcher_cases c σ.store with ⟨err,run⟩ | ⟨g,lastRevision,read,chosen,free,run⟩ <;> rw [run]
  · exact ⟨gapless.jobs,gapless.complete,gapless.watchers,trivial,
      fun id ref w bound at_ single => Or.inr (synced id ref w bound at_ single),gapless.loop⟩
  · have place : ∀ {ref : Nat} {w : Watcher}, (σ.hub.register g c.watcher c.opened).watchers[ref]? = some w →
        σ.hub.watchers[ref]? = some w ∨ ref = σ.hub.watchers.length ∧ w = c.watcher := by
      intro ref w at_
      rw [Hub.watchers_register] at at_
      by_cases old : ref < σ.hub.watchers.length
      · rw [List.getElem?_append_left old] at at_
        exact Or.inl at_
      · obtain ⟨lt,rfl⟩ := List.getElem?_eq_some_iff.mp at_
        rw [List.length_append,List.length_singleton] at lt
        have last : ref = σ.hub.watchers.length := by omega
        subst last
        exact Or.inr ⟨rfl,List.getElem_concat_length rfl _⟩
    refine ⟨gapless.jobs,gapless.complete,fun ref w at_ single => ?_,trivial,fun id ref w bound at_ single => Or.inr ?_,
      gapless.loop.congr (fun ref w at_ old => ?_) ordered.loop⟩
    · rcases place at_ with before | ⟨-,rfl⟩
      · exact gapless.watchers ref w before single
      · exact fun e member accepted after upTo => absurd after (not_lt.mpr upTo)
    · change (σ.hub.register g c.watcher c.opened).synced.find? id = some ref at bound
      rw [Hub.synced,Hub.find_register] at bound
      rcases place at_ with before | ⟨rfl,rfl⟩
      · have old : ref < σ.hub.watchers.length := (List.getElem?_eq_some_iff.mp before).1
        split at bound
        · cases bound
          omega
        · exact synced id ref w bound before single
      · -- a watcher that starts as a synced one starts after the last change of its key
        split at bound
        next new =>
          intro e member accepted above
          have late : lastRevision ≤ c.startRev := chosen.mp new.1.symm
          have le := Creation.le_lastRevision ordered.logged gapless.complete single.1 single.2 read member (single.key_eq accepted)
          have above : c.startRev < e.1.rev.main := above
          omega
        next => exact absurd (Hub.lt_of_find bound) (lt_irrefl _)
    · rcases place at_ with before | ⟨new,-⟩
      · exact ⟨w,before,.refl w⟩
      · omega

end WatchSys.Gapless

end Kave
