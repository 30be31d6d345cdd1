import Kave.Gapless

/-! Promotions of watchers of a single key. Whatever the loop hands over at the end of a tick has all changes up to the revision
    that the tick has read; what is committed and announced after that is sent to nobody. -/

namespace Kave

open TreeIndex

/-! ### The loop -/

theorem Watcher.le_highestRev {events : List Event} (ascending : events.Pairwise fun a b => a.entry.modRev ≤ b.entry.modRev) {x : Event}
    (member : x ∈ events) : x.entry.modRev ≤ highestRev events := by
  rcases events.eq_nil_or_concat with none | ⟨before,last,is⟩
  · rw [none] at member
    cases member
  · subst is
    rw [List.concat_eq_append] at ascending member ⊢
    rw [highestRev,List.getLast?_concat,Option.map_some,Option.getD_some]
    rcases List.mem_append.mp member with old | new
    · exact (List.pairwise_append.mp ascending).2.2 x old last (List.mem_singleton.mpr rfl)
    · rw [List.mem_singleton.mp new]

theorem KvStore.Logged.revisionsRange_sorted {s : KvStore} {log : List (KvBucketKey × Entry)} (logged : s.Logged log) {w : Watcher}
    (single : w.SingleKey) (startRev endRev : Int) :
    (s.kvIndex.revisionsRange w.keyStart w.keyEnd startRev endRev).Pairwise fun a b => a.rev < b.rev := by
  have byKey : List.Pairwise _ (s.kvIndex.revisionsRange _ _ _ _) :=
    logged.settled.before.valid.revisionsRange_ordered w.keyStart w.keyEnd startRev endRev
  have key : ∀ {bk : KvBucketKey} {k : Bytes}, bk ∈ s.kvIndex.revisionsRange w.keyStart w.keyEnd startRev endRev →
      bk ∈ s.kvIndex.records k → k = w.keyStart := by
    intro bk k listed record
    obtain ⟨k',selected,record',-⟩ := mem_revisionsRange.mp listed
    obtain ⟨entry,known,named⟩ := logged.listed k bk record
    have same : entry.key = k' := logged.key_eq known record'
    rw [selects,if_pos (show w.keyEnd = none ∧ w.keyStart ≠ [] from single)] at selected
    rw [← named,same]
    exact of_decide_eq_true selected
  refine byKey.imp_of_mem fun {a b} inA inB order => ?_
  obtain ⟨k,k',first,second,order⟩ := order
  rw [key inA first,key inB second] at order
  exact (order.resolve_left (lt_irrefl _)).2

theorem Watcher.fetch_ascending {s : KvStore} {log : List (KvBucketKey × Entry)} (logged : s.Logged log) {revs : List KvBucketKey}
    (sorted : revs.Pairwise fun a b => a.rev < b.rev) {events : List Event}
    (found : fetch s.backend.buckets.kv revs = some events) : events.Pairwise fun a b => a.entry.modRev ≤ b.entry.modRev := by
  have read := fetch_eq_some.mp found
  have ascending : (revs.map fun bk => (s.backend.buckets.kv.find? bk).map toKvEvent).Pairwise fun a b =>
      ∀ x y, a = some x → b = some y → x.entry.modRev ≤ y.entry.modRev := by
    refine List.pairwise_map.mpr (sorted.imp fun {a b} less x y isX isY => ?_)
    obtain ⟨entry,stored,rfl⟩ := Option.map_eq_some_iff.mp isX
    obtain ⟨entry',stored',rfl⟩ := Option.map_eq_some_iff.mp isY
    have dated : entry.modRev = a.rev.main := logged.dated _ (logged.known a entry stored)
    have dated' : entry'.modRev = b.rev.main := logged.dated _ (logged.known b entry' stored')
    change entry.modRev ≤ entry'.modRev
    rw [dated,dated']
    exact Revision.main_le_of_lt less
  rw [read,List.pairwise_map] at ascending
  exact ascending.imp fun ascends => ascends _ _ rfl rfl

namespace WatchSys

variable {σ σ' : WatchSys} {act : Act}

theorem Stepped.loop_before (stepped : σ.Stepped act σ') (ofLoop : act.ofLoop = true) {ref : Nat} {w' : Watcher}
    (after : σ'.hub.watchers[ref]? = some w') :
    ∃ w, σ.hub.watchers[ref]? = some w ∧ w.Same w' ∧ ∀ e ∈ w.c.sent, e ∈ w'.c.sent := by
  have same : σ.hub.watchers[ref]? = some w' → ∃ w, σ.hub.watchers[ref]? = some w ∧ w.Same w' ∧ ∀ e ∈ w.c.sent, e ∈ w'.c.sent :=
    fun at_ => ⟨w',at_,.refl w',fun _ member => member⟩
  cases stepped with
  | waits | take | readRevisions | looks | fetches | loses => exact same after
  | givesUp | misses | fed => exact same after
  | @forwards t ref' x h at_ due fresh current updated =>
    change h.watchers[ref]? = some w' at after
    rw [updated.after] at after
    split at after
    next is =>
      cases after
      exact ⟨x,by rw [is]; exact updated.here,⟨rfl,rfl,rfl,rfl,rfl⟩,fun _ member => member⟩
    next => exact same after
  | @feeds t f f' highest h takeDone at_ ran =>
    cases ran with
    | skipped | passed => exact same after
    | @sent x event rest c h todo tested room opened updated =>
      change h.watchers[ref]? = some w' at after
      rw [updated.after] at after
      split at after
      next is =>
        cases after
        refine ⟨x,by rw [is]; exact updated.here,⟨rfl,rfl,rfl,rfl,rfl⟩,fun e member => ?_⟩
        change e ∈ c.sent
        rw [room.sent]
        exact List.mem_append_left _ member
      next => exact same after
  | @finish t at_ free done =>
    have like : σ.hub.AllLike (t.finish σ.failures σ.hub).2 := Tick.finish_keeps (Hub.AllLike.refl σ.hub)
      (fun _ _ _ like => like.drop _ _ _) (fun _ _ _ like => like) σ.failures
    obtain ⟨w,here,likewise⟩ := like ref w' after
    exact ⟨w,here,likewise.toSame,fun e member => by rw [likewise.sent]; exact member⟩
  | _ => cases ofLoop

theorem Gapless.loop_watchers (gapless : σ.Gapless) (stepped : σ.Stepped act σ') (ofLoop : act.ofLoop = true) (ordered : σ.Ordered)
    (lists : σ.Lists Watcher.SingleKey act) (chases : σ.loop.Chases Watcher.SingleKey σ.hub σ.log) {ref : Nat} {w' : Watcher}
    (after : σ'.hub.watchers[ref]? = some w') (single : w'.SingleKey) : w'.Gapless σ.log := by
  obtain ⟨w,here,same,sent⟩ := stepped.loop_before ofLoop after
  have single' : w.SingleKey := Watcher.singleKey_kind w w' same single
  intro e member accepted started upTo
  rw [same.accepts] at accepted
  rw [same.startRev] at started
  rw [Watcher.Got]
  by_cases old : e.1.rev.main ≤ w.currentRev
  · obtain ⟨x,inside,is⟩ := List.mem_map.mp (gapless.watchers ref w here single' e member accepted started old)
    rw [← is]
    exact List.mem_map_of_mem (sent x inside)
  · exact List.mem_map.mpr ⟨_,stepped.passes ofLoop ordered lists chases here single' after member accepted (not_le.mp old) upTo,rfl⟩

theorem Stepped.loop_keepsSynced (stepped : σ.Stepped act σ') (ofLoop : act.ofLoop = true) (working : act ≠ .finish)
    (ordered : σ.Ordered) : σ.hub.KeepsSynced σ'.hub := by
  have loop := ordered.loop
  cases stepped with
  | waits | take | readRevisions | looks | fetches | loses => exact .refl _
  | givesUp | misses | fed => exact .refl _
  | @forwards t ref x h at_ due fresh current updated =>
    rw [at_] at loop
    exact updated.keepsSynced (Or.inr (loop.1.batch ref (loop.1.todo ref due)).1)
  | @feeds t f f' highest h takeDone at_ ran =>
    rw [at_] at loop
    cases ran with
    | skipped | passed => exact .refl _
    | sent todo tested room opened updated => exact updated.keepsSynced (Or.inr (loop.1.batch f.ref loop.2.1).1)
  | finish => exact absurd rfl working
  | _ => cases ofLoop

theorem Stepped.loop_bounded (stepped : σ.Stepped act σ') (ofLoop : act.ofLoop = true) (ordered : σ.Ordered)
    (bounded : σ.loop.Bounded σ.hub) : σ'.loop.Bounded σ'.hub := by
  have concluded : ∀ {τ : WatchSys} {t : Tick} {id : Int} {verdict : Watcher.Verdict} {h : Hub},
      (τ.conclude t id verdict).loop.Bounded h := by
    intro τ t id verdict h
    cases verdict <;> trivial
  cases stepped with
  | waits => exact bounded
  | take | readRevisions | loses | finish => trivial
  | givesUp | forwards | misses | fed => exact concluded
  | @looks t ref w at_ due here fresh =>
    intro w' at' single
    cases here.symm.trans at'
    exact ordered.logged.revisionsRange_sorted single _ _
  | @fetches t ref revs events at_ found =>
    rw [at_] at bounded
    intro w here single x member
    exact Watcher.le_highestRev (Watcher.fetch_ascending ordered.logged (bounded w here single) found) member
  | @feeds t f f' highest h takeDone at_ ran =>
    rw [at_] at bounded
    have fewer : ∀ x ∈ f'.todo, x ∈ f.todo := by
      intro x member
      cases ran with
      | passed => exact member
      | skipped here todo | sent todo =>
        rw [todo]
        exact List.mem_cons_of_mem _ member
    intro w' at' single x member
    change h.watchers[f'.ref]? = some w' at at'
    rw [ran.ref_eq] at at'
    rcases ran.hub_cases with rfl | ⟨w,v,updated,same,-⟩
    · exact bounded w' at' single x (fewer x member)
    · rw [updated.after,if_pos rfl] at at'
      cases at'
      exact bounded w updated.here (Watcher.singleKey_kind w _ same single) x (fewer x member)
  | _ => cases ofLoop

/-- The steps that lose no change of a single key: no transaction that is delivered has two changes for the watcher, and what is
    promoted at the end of a tick was in its batch and is told of the changes that came after the revision of the tick. -/
def Steady (σ : WatchSys) : Act → Prop
  | .compact _ => False
  | .serve ref => ∀ c w, σ.lock = .committing c → σ.hub.watchers[ref]? = some w → w.SingleKey →
      (c.events.filter w.accepts).length ≤ 1
  | .look ref => ∀ t w, σ.loop = .ticking t .next → σ.hub.watchers[ref]? = some w → w.SingleKey →
      ∀ a b, w.Lacks σ.log t.storeRev a → w.Lacks σ.log t.storeRev b → a.1.rev.main = b.1.rev.main → a = b
  | .finish => σ.PromotesOwn (fun σ e => e.2.stored ∈ (σ.pending.getD []).map Entry.stored) Watcher.SingleKey .finish
  | _ => True

theorem Steady.promotesOwn (steady : σ.Steady act) :
    σ.PromotesOwn (fun σ e => e.2.stored ∈ (σ.pending.getD []).map Entry.stored) Watcher.SingleKey act := by
  cases act with
  | finish => exact steady
  | _ => trivial

theorem Gapless.lists (gapless : σ.Gapless) (steady : σ.Steady act) : σ.Lists Watcher.SingleKey act := by
  cases act with
  | look ref =>
    intro t w at_ here single _
    refine ⟨fun e lacks => gapless.complete.index e lacks.logged,fun a b lacksA lacksB order => ?_⟩
    have keyA : a.2.key = w.keyStart := single.key_eq lacksA.accepted
    have keyB : b.2.key = w.keyStart := single.key_eq lacksB.accepted
    rw [keyA,keyB] at order
    have less : a.1.rev < b.1.rev := (order.resolve_left (lt_irrefl _)).2
    refine lt_of_le_of_ne (Revision.main_le_of_lt less) fun same => ?_
    have := steady t w at_ here single a b lacksA lacksB same
    subst this
    exact lt_irrefl _ less
  | feed takeDone =>
    intro t f highest w at_ here single _ reached x member _
    have bounded := gapless.loop
    rw [at_] at bounded
    exact (bounded w here single x member).trans reached
  | _ => trivial

theorem Gapless.finish (gapless : σ.Gapless) (stepped : σ.Stepped .finish σ') (ordered : σ.Ordered) (steady : σ.Steady .finish)
    (chases : σ.loop.Chases Watcher.SingleKey σ.hub σ.log) : σ'.Gapless := by
  have watchers := fun ref w' => @loop_watchers σ σ' .finish gapless stepped rfl ordered trivial chases ref w'
  have promotes := @Stepped.promotes _ _ σ σ' .finish stepped rfl steady.promotesOwn chases
  cases stepped with
  | waits => exact gapless
  | @finish t at_ free done =>
    have idle : ∀ c, σ.lock ≠ .committing c := fun c held => by cases free.symm.trans held
    have like : σ.hub.AllLike (t.finish σ.failures σ.hub).2 := Tick.finish_keeps (Hub.AllLike.refl σ.hub)
      (fun _ _ _ like => like.drop _ _ _) (fun _ _ _ like => like) σ.failures
    refine ⟨gapless.jobs,gapless.complete,watchers,?_,fun id ref w' bound at' single => Or.inr ?_,trivial⟩
    · change σ.lock.Fair _ _
      rw [free]
      trivial
    · obtain ⟨w,here,likewise⟩ := like ref w' at'
      refine likewise.awaits fun e member accepted above => ?_
      change e.2.stored ∈ σ.owed ref
      rw [owed_idle idle]
      rcases promotes here (likewise.singleKey single) bound member accepted above with before | told
      · have awaits := (gapless.synced id ref w before here (likewise.singleKey single)).resolve_left (Lock.removes_idle idle id)
        rw [owed_idle idle] at awaits
        exact awaits e member accepted above
      · exact told

theorem Gapless.loop_step (gapless : σ.Gapless) (stepped : σ.Stepped act σ') (ofLoop : act.ofLoop = true) (ordered : σ.Ordered)
    (steady : σ.Steady act) (chases : σ.loop.Chases Watcher.SingleKey σ.hub σ.log) : σ'.Gapless := by
  by_cases last : act = .finish
  · subst last
    exact gapless.finish stepped ordered steady chases
  · have kept := stepped.loop_keepsSynced ofLoop last ordered
    have same : σ'.sys = σ.sys ∧ σ'.log = σ.log ∧ σ'.lock = σ.lock ∧ σ'.pending = σ.pending := by
      cases stepped with
      | waits | take | readRevisions | looks | fetches | feeds | loses | finish => exact ⟨rfl,rfl,rfl,rfl⟩
      | givesUp | misses | fed | forwards => exact ⟨rfl,rfl,rfl,rfl⟩
      | _ => cases ofLoop
    obtain ⟨sys,log,lock,pending⟩ := same
    have store : σ'.store = σ.store := congrArg Sys.store sys
    have owed : ∀ ref, σ'.owed ref = σ.owed ref := fun ref => by rw [WatchSys.owed,WatchSys.owed,lock,pending]
    refine ⟨by rw [sys]; exact gapless.jobs,by rw [store,log]; exact gapless.complete,fun ref w' at_ single => ?_,?_,
      fun id ref w' bound at_ single => ?_,stepped.loop_bounded ofLoop ordered gapless.loop⟩
    · rw [log]
      exact gapless.loop_watchers stepped ofLoop ordered (gapless.lists steady) chases at_ single
    · rw [lock,pending]
      exact gapless.lock.congr kept
    · obtain ⟨bound',w,here,like⟩ := kept id ref w' bound at_
      rw [log,lock,owed]
      exact (gapless.synced id ref w bound' here (like.singleKey single)).imp_right like.awaits

theorem Gapless.step (gapless : σ.Gapless) (stepped : σ.Stepped act σ') (ordered : σ.Ordered) (steady : σ.Steady act)
    (chases : σ.loop.Chases Watcher.SingleKey σ.hub σ.log) (alive : σ'.panicked = false) : σ'.Gapless := by
  cases ofLoop : act.ofLoop with
  | true => exact gapless.loop_step stepped ofLoop ordered steady chases
  | false =>
    cases stepped with
    | waits => exact gapless
    | @txn ops quiet => exact gapless.txn ordered quiet ops
    | compact => exact steady.elim
    | @advance i => exact gapless.advance i
    | beginCommit due free => exact gapless.beginCommit due free
    | serve held due => exact gapless.serve held due fun w here single => steady _ w held here single
    | sends held ran => exact gapless.sends ordered held ran
    | @served events todo f removals e takeDone held ended =>
      have kept := gapless.served ordered held ended fun is => (by subst is; cases alive)
      exact ⟨kept.jobs,kept.complete,kept.watchers,kept.lock,kept.synced,kept.loop⟩
    | endCommit held => exact gapless.endCommit ordered held
    | @beginWatcher req generated free =>
      have idle : ∀ c, σ.lock ≠ .committing c := fun c held => by cases free.symm.trans held
      refine ⟨gapless.jobs,gapless.complete,gapless.watchers,trivial,fun id ref w bound at_ single => Or.inr ?_,gapless.loop⟩
      have awaits := (gapless.synced id ref w bound at_ single).resolve_left (Lock.removes_idle idle id)
      rw [owed_idle idle] at awaits
      exact awaits
    | endWatcher held => exact gapless.endWatcher ordered held
    | @cancel ref cause w h updated => exact gapless.touched ordered (updated.allLike (.cancel w cause)) (updated.keepsSynced (Or.inl (.cancel w cause)))
    | @receive ref w h updated => exact gapless.touched ordered (updated.allLike (.receive w)) (updated.keepsSynced (Or.inl (.receive w)))
    | @dropWatcher id free =>
      exact gapless.touched ordered (Hub.dropWatcher_keeps (.refl _) (fun _ _ _ _ like => like.drop _ _ _) id)
        (Hub.dropWatcher_keeps (.refl _) (fun _ _ _ _ kept => kept.drop _ _ _) id)
    | dropAll free =>
      exact gapless.touched ordered (Hub.dropAll_keeps (.refl _) fun _ _ _ _ like => like.drop _ _ _)
        (Hub.dropAll_keeps (.refl _) fun _ _ _ _ kept => kept.drop _ _ _)
    | _ => cases ofLoop

/-- Everything that is known along a run that loses no change. -/
structure Lossless (σ : WatchSys) : Prop where
  pursues : Pursues Watcher.SingleKey σ
  gapless : σ.panicked = false → σ.Gapless

theorem Lossless.new : WatchSys.new.Lossless := ⟨.new _,fun _ => .new⟩

theorem Lossless.step (lossless : σ.Lossless) (steady : σ.Steady act) : (σ.step act).Lossless := by
  obtain ⟨pursues,gapless⟩ := lossless
  cases dead : σ.panicked with
  | true =>
    have same : σ.step act = σ := by
      rw [WatchSys.step,dead]
      rfl
    rw [same]
    exact ⟨pursues,gapless⟩
  | false =>
    have kept := gapless dead
    exact ⟨pursues.step Watcher.singleKey_kind (kept.lists steady),
      fun alive => kept.step (σ.step_cases act) pursues.ordered steady (pursues.chases dead) alive⟩

end WatchSys

/-- As long as no transaction has two changes for a watcher, every promoted watcher was in the batch of the tick, and nothing is
    announced between the tick's reading of the revision and the promotion, a watcher of a single key has been sent all changes
    up to its revision, and as a synced one also those above it, except for what the commit at hand is still to offer it; or it
    is about to leave the group. -/
theorem promotion_leaves_no_gap {acts : List Act} (steady : Runs.Along WatchSys.step WatchSys.Steady .new acts) {σ : WatchSys}
    (reached : σ = WatchSys.new.run acts) (alive : σ.panicked = false) {ref : Nat} {w : Watcher}
    (here : σ.hub.watchers[ref]? = some w) (single : w.SingleKey) {e : KvBucketKey × Entry} (logged : e ∈ σ.log)
    (accepted : w.accepts (toKvEvent e.2) = true) (started : w.startRev < e.1.rev.main) :
    (e.1.rev.main ≤ w.currentRev → w.Got e) ∧
      ∀ id, σ.hub.synced.find? id = some ref → w.Got e ∨ e.2.stored ∈ σ.owed ref ∨ σ.lock.Removes id := by
  have lossless : σ.Lossless := by
    rw [reached]
    exact steady.invariant .new fun σ act kept ok => kept.step ok
  have gapless := lossless.gapless alive
  have got : e.1.rev.main ≤ w.currentRev → w.Got e := gapless.watchers ref w here single e logged accepted started
  refine ⟨got,fun id bound => ?_⟩
  by_cases reached : e.1.rev.main ≤ w.currentRev
  · exact Or.inl (got reached)
  · rcases gapless.synced id ref w bound here single with removes | awaits
    · exact Or.inr (Or.inr removes)
    · exact Or.inr (Or.inl (awaits e logged accepted (not_le.mp reached)))

/-- Two changes of a key, and a watcher that the loop takes up. -/
def chasingActs : List Act :=
  let commit := [Act.txn [.put [97] (some [1]) 0],.beginCommit,.endCommit]
  commit ++ commit ++ [.beginWatcher ⟨7,some [97],none,false,1,none⟩ 0,.endWatcher,.take [0],.readRevisions]

def visitActs : List Act := [.look 0,.fetch,.feed true,.feed true,.feed true]

theorem chasing_steady : Runs.Along WatchSys.step WatchSys.Steady .new (chasingActs ++ visitActs ++ [.finish]) := by
  have looked : Runs.Along WatchSys.step WatchSys.Steady .new (chasingActs ++ [.look 0]) := by
    refine .concat (.of_all (by simp [chasingActs,WatchSys.Steady])) fun t w at_ here _ a b lacksA lacksB _ => ?_
    have log : (WatchSys.new.run chasingActs).log =
        [(⟨⟨1,0⟩,false⟩,⟨[97],some [1],1,1,1,0⟩),(⟨⟨2,0⟩,false⟩,⟨[97],some [1],1,2,2,0⟩)] := by decide
    have revision : (WatchSys.new.run chasingActs).hub.revAt 0 = some 1 := by decide
    change (WatchSys.new.run chasingActs).hub.watchers[0]? = _ at here
    rw [Hub.revAt,here,Option.map_some,Option.some.injEq] at revision
    -- above the revision of the watcher there is one change only
    have second : ∀ e, w.Lacks (WatchSys.new.run chasingActs).log t.storeRev e → e = (⟨⟨2,0⟩,false⟩,⟨[97],some [1],1,2,2,0⟩) := by
      intro e lacks
      have member := lacks.logged
      have above := lacks.above
      rw [log,List.mem_cons,List.mem_singleton] at member
      rw [revision] at above
      refine member.resolve_left fun is => ?_
      rw [is] at above
      exact absurd above (by decide)
    rw [second a lacksA,second b lacksB]
  have visited : Runs.Along WatchSys.step WatchSys.Steady .new (chasingActs ++ visitActs) :=
    Runs.along_append.mpr ⟨(Runs.along_append.mp looked).1,(Runs.along_append.mp looked).2.1,
      .of_all (by simp [WatchSys.Steady])⟩
  refine visited.concat fun t at_ id marked ref w bound here _ => ?_
  have loop : (WatchSys.new.run (chasingActs ++ visitActs)).loop = .ticking ⟨2,0,[0],[],[],[7]⟩ .next := by decide
  have group : (WatchSys.new.run (chasingActs ++ visitActs)).hub.unsynced.find? 7 = some 0 := by decide
  have past : ∀ e ∈ (WatchSys.new.run (chasingActs ++ visitActs)).log, e.1.rev.main ≤ 2 := by decide
  cases loop.symm.trans at_
  cases List.mem_singleton.mp marked
  cases group.symm.trans bound
  exact ⟨List.mem_cons_self,fun e logged _ later => absurd later (not_lt.mpr (past e logged))⟩

/-- The watcher is promoted, and has been sent the second change. -/
theorem promotion_leaves_no_gap_after_visit :
    let σ := WatchSys.new.run (chasingActs ++ visitActs ++ [.finish])
    σ.hub.synced.find? 7 = some 0 ∧
      ∀ w, σ.hub.watchers[0]? = some w → w.SingleKey ∧ w.Got (⟨⟨2,0⟩,false⟩,⟨[97],some [1],1,2,2,0⟩) := by
  intro σ
  have bound : σ.hub.synced.find? 7 = some 0 := by decide
  have key : (σ.hub.watchers[0]?).map (fun w => (w.keyStart,w.keyEnd)) = some ([97],none) := by decide
  have covers : (σ.hub.watchers[0]?).map (·.accepts (toKvEvent ⟨[97],some [1],1,2,2,0⟩)) = some true := by decide
  have started : (σ.hub.watchers[0]?).map (·.startRev) = some 1 := by decide
  have revision : σ.hub.revAt 0 = some 2 := by decide
  refine ⟨bound,fun w here => ?_⟩
  rw [here, Option.map_some, Option.some.injEq, Prod.mk.injEq] at key
  rw [here, Option.map_some, Option.some.injEq] at covers started
  rw [Hub.revAt, here, Option.map_some, Option.some.injEq] at revision
  have single : w.SingleKey := ⟨key.2,by rw [key.1]; decide⟩
  exact ⟨single,(promotion_leaves_no_gap chasing_steady rfl (by decide) here single
    (e := (⟨⟨2,0⟩,false⟩,⟨[97],some [1],1,2,2,0⟩)) (by decide) covers (by rw [started]; decide)).1 (by rw [revision])⟩

/-- A third change is committed and announced before the watcher is promoted: it is not sent to the watcher, which is owed
    nothing, and the fourth one is. -/
theorem promotion_skips_announced_change :
    let put := Act.txn [.put [97] (some [1]) 0]
    let promoted := WatchSys.new.run (chasingActs ++ visitActs ++ [put,.beginCommit,.endCommit,.finish])
    let later := promoted.run [put,.beginCommit,.serve 0,.send true,.send true,.send true,.endCommit]
    promoted.hub.synced.find? 7 = some 0 ∧ promoted.current = 3 ∧ promoted.hub.revAt 0 = some 2 ∧ promoted.owed 0 = [] ∧
      later.hub.sentAt 0 = some [⟨.put,⟨[97],some [1],1,2,2,0⟩⟩,⟨.put,⟨[97],some [1],1,4,4,0⟩⟩] := by
  decide

end Kave
