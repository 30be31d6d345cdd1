import Kave.Agreement
import Kave.Journal

/-! What the observers of commits are told. Only the engine tells them, after the commit of a put, delete or txn command. The
    key deletions of a lease that is revoked or expires commit a revision of their own, and no observer hears of it. -/

namespace Kave

/-- The calls of `OnCommit` that `ApplyWrite` makes on each observer; a transaction without changes is announced as well. -/
def Engine.announces {A : Type} [LeaseAttacher A] (s : KvStore) (a : A) (cmd : KvRequest) : List (List Entry) :=
  match applyRequest s.newWriter a cmd with
  | (_,.error _) => []
  | ((w,_),.ok _) => [w.changes]

/-- The calls of `OnCommit` during the switch of `Apply`. -/
def Fsm.dispatchAnnounces (f : Fsm) : Request → List (List Entry)
  | .kv cmd => Engine.announces f.store f.lm cmd
  | .lease _ | .compaction _ | .ot _ => []

/-- The calls of `OnCommit` during `Apply`. -/
def Fsm.announces (f : Fsm) (log : Log) : List (List Entry) :=
  if log.index ≤ f.store.applyIndex then []
  else
    match log.data with
    | some (.full request) => dispatchAnnounces { f with store := f.store.updateInmemRaftMeta log.index log.term } request
    | some (.missing _) | none => []

namespace KvStore

/-- The changes of one revision, as the bucket keeps them. -/
def changesAt (s : KvStore) (rev : Int) : List Entry :=
  (s.backend.buckets.kv.entries.filter (·.1.rev.main = rev)).map (·.2)

/-- The revision committed on the way from one state to the next, with its changes. -/
def gained (s s' : KvStore) : List (Int × List Entry) :=
  if s.currentRev.main < s'.currentRev.main then [(s'.currentRev.main,s'.changesAt s'.currentRev.main)] else []

variable {s s' s'' : KvStore}

theorem gained_of_current (same : s'.currentRev = s.currentRev) : s.gained s' = [] := by
  rw [gained,same,if_neg (lt_irrefl _)]

theorem SameKv.gained (same : s'.SameKv s'') : s.gained s'' = s.gained s' := by
  have kv : s''.backend.buckets.kv = s'.backend.buckets.kv := congrArg Content.kv same.content
  rw [KvStore.gained,KvStore.gained,changesAt,changesAt,same.current,kv]

theorem Appended.changesAt (orderly : s.Orderly) {log : List (KvBucketKey × Entry)} (appended : s.Appended s' log) :
    s'.changesAt (s.currentRev.main + 1) = log.map (·.2) := by
  have old : s.backend.buckets.kv.entries.filter (·.1.rev.main = s.currentRev.main + 1) = [] := by
    refine List.filter_eq_nil_iff.mpr fun e member => ?_
    have present : (s.backend.buckets.kv.find? e.1).isSome := by rw [SortedMap.mem_entries.mp member]; rfl
    obtain ⟨-,sub,less⟩ := orderly.stamped.early e.1 present
    rcases Revision.lt_iff.mp less with below | ⟨-,below⟩ <;> simp only [decide_eq_true_eq] at below ⊢ <;> omega
  have new : log.filter (·.1.rev.main = s.currentRev.main + 1) = log :=
    List.filter_eq_self.mpr fun e member => by simpa using appended.main e member
  rw [KvStore.changesAt,appended.entries,List.filter_append,old,new]
  rfl

theorem Appended.gained (orderly : s.Orderly) {log : List (KvBucketKey × Entry)} (appended : s.Appended s' log) :
    s.gained s' = if log = [] then [] else [(s.currentRev.main + 1,log.map (·.2))] := by
  have current := appended.current
  by_cases none : log = []
  · rw [if_pos none] at current ⊢
    rw [KvStore.gained,current,if_neg (lt_irrefl _)]
  · rw [if_neg none] at current ⊢
    rw [KvStore.gained,current,if_pos (by omega),appended.changesAt orderly]

end KvStore

/-! ### One command -/

theorem Engine.announces_eq {A : Type} [LeaseAttacher A] {s : KvStore} (orderly : s.Orderly) (a : A) (cmd : KvRequest) :
    ((announces s a cmd).filter (· ≠ [])).map (·.map Entry.stored) = (s.gained (applyWrite s a cmd).1.1).map (·.2) := by
  obtain ⟨opened,-⟩ := applyRequest_writer orderly.settled a cmd
  rw [announces,applyWrite]
  cases request : applyRequest s.newWriter a cmd with
  | mk state outcome =>
    obtain ⟨w,a'⟩ := state
    rw [request] at opened
    cases outcome with
    | error e =>
      obtain ⟨ti,left,-⟩ := opened.abort
      change [] = (s.gained w.abort).map (·.2)
      change w.abort = _ at left
      have same : w.abort.currentRev = s.currentRev := by rw [left]
      rw [KvStore.gained_of_current same]
      rfl
    | ok result =>
      obtain ⟨log,journaled⟩ := (Writer.Journaled.new s).runOps orderly.stamped _ (applyRequest_calls request)
      change (([w.changes] : List (List Entry)).filter (· ≠ [])).map (·.map Entry.stored) = (s.gained w.endTx).map (·.2)
      rw [journaled.endTx.gained orderly]
      by_cases none : w.changes = []
      · rw [if_pos (journaled.changes_eq_nil_iff.mp none),none]
        rfl
      · rw [if_neg (mt journaled.changes_eq_nil_iff.mpr none)]
        simpa [none] using journaled.changes.symm

theorem KvStore.idle_deleteKey_iff (s : KvStore) (key : Bytes) : s.Idle (.deleteKey key) ↔ s.alive key = false := by
  rw [Idle,TreeIndex.range,if_pos rfl,KvStore.alive]
  cases s.kvIndex.unsafeGet key s.currentRev.main with
  | error e => simp [Except.toOption]
  | ok found => simp [Except.toOption]

/-- The command deletes a key that is alive, by removing a lease the key is attached to. -/
def Fsm.DeletesLeased (f : Fsm) (cmd : LeaseRequest) : Prop :=
  ∃ id ∈ cmd.removes, ∃ key, f.lm.attached id key = true ∧ f.store.alive key = true

variable {f : Fsm} {log : Log}

theorem Fsm.applyLease_gained (orderly : f.store.Orderly) (env : Env) (cmd : LeaseRequest) :
    f.store.gained (f.applyLease env cmd).1.store = [] ∧ ¬ f.DeletesLeased cmd ∨
      ∃ changes, f.store.gained (f.applyLease env cmd).1.store = [(f.store.currentRev.main + 1,changes)] ∧ f.DeletesLeased cmd := by
  obtain ⟨keys,which,same⟩ := applyLease_store orderly.settled env cmd
  obtain ⟨log,appended,idle⟩ := orderly.appended (keys.map .deleteKey)
  rw [same.gained,appended.gained orderly]
  by_cases none : log = []
  · refine Or.inl ⟨if_pos none,?_⟩
    rintro ⟨id,removed,key,attached,alive⟩
    have inside : key ∈ keys := (which key).mpr ⟨id,removed,attached⟩
    have dead := (f.store.idle_deleteKey_iff key).mp (idle.mp none _ (List.mem_map_of_mem inside))
    rw [alive] at dead
    cases dead
  · refine Or.inr ⟨_,if_neg none,?_⟩
    by_contra kept
    refine none (idle.mpr fun op member => ?_)
    obtain ⟨key,inside,rfl⟩ := List.mem_map.mp member
    obtain ⟨id,removed,attached⟩ := (which key).mp inside
    refine (f.store.idle_deleteKey_iff key).mpr (Bool.eq_false_iff.mpr fun alive => ?_)
    exact kept ⟨id,removed,key,attached,alive⟩

theorem Fsm.applyCompaction_currentRev (f : Fsm) (targetRev : Int) :
    (f.applyCompaction targetRev).1.store.currentRev = f.store.currentRev := by
  change (f.store.compact targetRev).1.currentRev = _
  rcases f.store.compact_eq targetRev with ⟨-,run⟩ | ⟨-,e,run⟩ <;> rw [run]

theorem Fsm.applyOT_currentRev (f : Fsm) (cmd : OtRequest) : (f.applyOT cmd).1.store.currentRev = f.store.currentRev := by
  cases cmd with
  | writeAll blob => exact (KvStore.SameKv.applyWriteAll _ _ _).current
  | generateClusterKey key => exact (KvStore.SameKv.applyGenerateClusterKey _ _ _).current

/-- The command is one of a lease and deletes a leased key. -/
def Fsm.Deletes (f : Fsm) : Request → Prop
  | .lease cmd => f.DeletesLeased cmd
  | .kv _ | .compaction _ | .ot _ => False

theorem Fsm.dispatchAnnounces_cases (orderly : f.store.Orderly) (env : Env) (request : Request) :
    ((f.dispatchAnnounces request).filter (· ≠ [])).map (·.map Entry.stored) =
        (f.store.gained (f.dispatch env request).1.store).map (·.2) ∧ ¬ f.Deletes request ∨
      f.dispatchAnnounces request = [] ∧ (f.store.gained (f.dispatch env request).1.store).length = 1 ∧ f.Deletes request := by
  have idle : ∀ {request : Request}, f.dispatchAnnounces request = [] → f.store.gained (f.dispatch env request).1.store = [] →
      ((f.dispatchAnnounces request).filter (· ≠ [])).map (·.map Entry.stored) =
        (f.store.gained (f.dispatch env request).1.store).map (·.2) := by
    intro request silent same
    rw [silent,same]
    rfl
  cases request with
  | kv cmd => exact Or.inl ⟨Engine.announces_eq orderly f.lm cmd,id⟩
  | lease cmd =>
    rcases applyLease_gained orderly env cmd with ⟨same,kept⟩ | ⟨changes,one,deletes⟩
    · exact Or.inl ⟨idle rfl same,kept⟩
    · exact Or.inr ⟨rfl,congrArg List.length one,deletes⟩
  | compaction targetRev => exact Or.inl ⟨idle rfl (KvStore.gained_of_current (applyCompaction_currentRev f targetRev)),id⟩
  | ot cmd => exact Or.inl ⟨idle rfl (KvStore.gained_of_current (applyOT_currentRev f cmd)),id⟩

theorem Fsm.dispatch_current (settled : f.store.Settled) (env : Env) (request : Request) :
    (f.dispatch env request).1.store.currentRev.main = f.store.currentRev.main ∨
      (f.dispatch env request).1.store.currentRev.main = f.store.currentRev.main + 1 := by
  have committed : ∀ {s : KvStore} {ws : List Write}, Committed f.store s ws →
      s.currentRev.main = f.store.currentRev.main ∨ s.currentRev.main = f.store.currentRev.main + 1 := by
    intro s ws committed
    have current := committed.current
    split at current
    · exact Or.inl current
    · exact Or.inr current
  cases request with
  | kv cmd =>
    rcases Engine.applyWrite_cases settled f.lm cmd with ⟨e,ti,-,left,-⟩ | ⟨r,ws,-,done⟩
    · exact Or.inl (congrArg (·.currentRev.main) left)
    · exact committed done
  | lease cmd =>
    obtain ⟨keys,-,same⟩ := applyLease_store settled env cmd
    obtain ⟨ws,done⟩ := settled.committed (keys.map .deleteKey)
    have current := committed done
    rwa [← same.current] at current
  | compaction targetRev => exact Or.inl (congrArg Revision.main (applyCompaction_currentRev f targetRev))
  | ot cmd => exact Or.inl (congrArg Revision.main (applyOT_currentRev f cmd))

/-- The entry is applied, and its command deletes a leased key. -/
def Fsm.AppliesDeletion (f : Fsm) (log : Log) : Prop :=
  f.store.applyIndex < log.index ∧ ∃ request, log.data = some (.full request) ∧ f.Deletes request

theorem Fsm.apply_of_full (env : Env) {request : Request} (new : f.store.applyIndex < log.index)
    (data : log.data = some (.full request)) :
    (dispatch { f with store := f.store.updateInmemRaftMeta log.index log.term } env request).1.store.SameKv
      (f.apply env log).1.store := by
  rw [Fsm.apply,if_neg (not_le.mpr new),data]
  simp only [Command.check]
  generalize dispatch _ env request = run
  obtain ⟨g,started,outcome⟩ := run
  cases outcome with
  | error e => exact .refl _
  | ok r => exact .persistRaftMeta _

theorem Fsm.announces_of_full {request : Request} (new : f.store.applyIndex < log.index)
    (data : log.data = some (.full request)) :
    f.announces log = dispatchAnnounces { f with store := f.store.updateInmemRaftMeta log.index log.term } request := by
  rw [Fsm.announces,if_neg (not_le.mpr new),data]

theorem Fsm.skips (env : Env)
    (skipped : ¬∃ request, f.store.applyIndex < log.index ∧ log.data = some (.full request)) :
    f.announces log = [] ∧ (f.apply env log).1 = f := by
  rw [Fsm.announces,Fsm.apply]
  by_cases old : log.index ≤ f.store.applyIndex
  · rw [if_pos old,if_pos old]
    exact ⟨rfl,rfl⟩
  · rw [if_neg old,if_neg old]
    cases data : log.data with
    | none => exact ⟨rfl,rfl⟩
    | some cmd =>
      cases cmd with
      | missing kind => exact ⟨rfl,rfl⟩
      | full request => exact absurd ⟨request,not_le.mp old,data⟩ skipped

theorem Fsm.announces_cases (orderly : f.store.Orderly) (env : Env) (log : Log) :
    ((f.announces log).filter (· ≠ [])).map (·.map Entry.stored) = (f.store.gained (f.apply env log).1.store).map (·.2) ∧
        ¬ f.AppliesDeletion log ∨
      f.announces log = [] ∧ (f.store.gained (f.apply env log).1.store).length = 1 ∧ f.AppliesDeletion log := by
  by_cases applied : ∃ request, f.store.applyIndex < log.index ∧ log.data = some (.full request)
  · obtain ⟨request,new,data⟩ := applied
    have known := orderly.same (KvStore.SameKv.updateInmemRaftMeta f.store log.index log.term)
    have deletion : f.AppliesDeletion log ↔ f.Deletes request := by
      refine ⟨?_,fun deletes => ⟨new,request,data,deletes⟩⟩
      rintro ⟨-,request',is,deletes⟩
      rw [data] at is
      cases is
      exact deletes
    rw [announces_of_full new data,(apply_of_full env new data).gained,deletion]
    have cases_ := dispatchAnnounces_cases (f := { f with store := f.store.updateInmemRaftMeta log.index log.term }) known env request
    cases request <;> exact cases_
  · obtain ⟨silent,same⟩ := skips env applied
    refine Or.inl ⟨?_,?_⟩
    · rw [silent,same,KvStore.gained_of_current rfl]
      rfl
    · rintro ⟨new,request,data,-⟩
      exact applied ⟨request,new,data⟩

/-! ### Runs -/

namespace Replica

/-- The calls of `OnCommit` in one step. -/
def announces (r : Replica) : ReplicaEvent → List (List Entry)
  | .apply _ log => r.fsm.announces log
  | .advance _ | .restart _ => []

/-- The calls of `OnCommit` along a run. -/
def announced : Replica → List ReplicaEvent → List (List Entry)
  | _, [] => []
  | r, event :: rest => r.announces event ++ announced (r.step event) rest

/-- The revisions committed along a run, with their changes. -/
def committed : Replica → List ReplicaEvent → List (Int × List Entry)
  | _, [] => []
  | r, event :: rest => r.fsm.store.gained (r.step event).fsm.store ++ committed (r.step event) rest

/-- The step deletes a leased key. -/
def Deletes (r : Replica) : ReplicaEvent → Prop
  | .apply _ log => r.fsm.AppliesDeletion log
  | .advance _ | .restart _ => False

/-- No step of the run deletes a leased key. -/
def Undeleting : Replica → List ReplicaEvent → Prop
  | _, [] => True
  | r, event :: rest => ¬ r.Deletes event ∧ Undeleting (r.step event) rest

theorem announces_cases {r : Replica} (orderly : r.fsm.store.Orderly) {event : ReplicaEvent} (up : ∀ now, event ≠ .restart now) :
    ((r.announces event).filter (· ≠ [])).map (·.map Entry.stored) =
        (r.fsm.store.gained (r.step event).fsm.store).map (·.2) ∧ ¬ r.Deletes event ∨
      r.announces event = [] ∧ (r.fsm.store.gained (r.step event).fsm.store).length = 1 ∧ r.Deletes event := by
  cases event with
  | apply env log => exact Fsm.announces_cases orderly env log
  | restart now => exact absurd rfl (up now)
  | advance i =>
    have same : (r.step (.advance i)).fsm.store.currentRev = r.fsm.store.currentRev := Sys.advance_currentRev (s := r.sys) orderly.settled.before.valid i
    refine Or.inl ⟨?_,id⟩
    rw [KvStore.gained_of_current same]
    rfl

theorem step_current {r : Replica} (orderly : r.fsm.store.Orderly) {event : ReplicaEvent} (up : ∀ now, event ≠ .restart now) :
    (r.step event).fsm.store.currentRev.main = r.fsm.store.currentRev.main ∨
      (r.step event).fsm.store.currentRev.main = r.fsm.store.currentRev.main + 1 := by
  cases event with
  | restart now => exact absurd rfl (up now)
  | advance i => exact Or.inl (congrArg Revision.main (Sys.advance_currentRev (s := r.sys) orderly.settled.before.valid i))
  | apply env log =>
    change (r.fsm.apply env log).1.store.currentRev.main = _ ∨ (r.fsm.apply env log).1.store.currentRev.main = _
    rcases r.fsm.apply_cases env log with ⟨same,-⟩ | ⟨request,-,-,g,started,outcome,run,-,ended⟩
    · exact Or.inl (by rw [same])
    · have current := Fsm.dispatch_current (f := { r.fsm with store := r.fsm.store.updateInmemRaftMeta log.index log.term })
        (orderly.same (KvStore.SameKv.updateInmemRaftMeta _ _ _)).settled env request
      rw [run] at current
      rcases ended with ⟨e,-,same⟩ | ⟨result,-,same⟩ <;> rw [same] <;> exact current

theorem announced_iff {r : Replica} (orderly : r.fsm.store.Orderly) {events : List ReplicaEvent}
    (up : ∀ now, .restart now ∉ events) :
    ((r.announced events).filter (· ≠ [])).length ≤ (r.committed events).length ∧
      (((r.announced events).filter (· ≠ [])).map (·.map Entry.stored) = (r.committed events).map (·.2) ↔ r.Undeleting events) := by
  induction events generalizing r with
  | nil => exact ⟨le_rfl,iff_of_true rfl trivial⟩
  | cons event rest ih =>
    obtain ⟨fewer,rest_⟩ := ih (r.step_orderly event orderly) fun now inside => up now (List.mem_cons_of_mem _ inside)
    simp only [announced,committed,Undeleting,List.filter_append,List.map_append,List.length_append]
    have first : ∀ now, event ≠ .restart now := fun now is => up now (by rw [is]; exact List.mem_cons_self)
    rcases announces_cases orderly first with ⟨told,kept⟩ | ⟨silent,one,deletes⟩
    · have lengths := congrArg List.length told
      simp only [List.length_map] at lengths
      refine ⟨by omega,?_⟩
      rw [told,List.append_cancel_left_eq,rest_]
      exact (and_iff_right kept).symm
    · -- the step commits one revision more than it announces, and later steps never make up for it
      refine ⟨?_,iff_of_false (fun same => ?_) fun all => all.1 deletes⟩
      · rw [silent,List.filter_nil,List.length_nil]
        omega
      have lengths := congrArg List.length same
      simp only [silent,List.filter_nil,List.map_nil,List.nil_append,List.length_append,List.length_map,one] at lengths
      omega

theorem committed_revisions {r : Replica} (orderly : r.fsm.store.Orderly) {events : List ReplicaEvent}
    (up : ∀ now, .restart now ∉ events) :
    ∃ n : Nat, (r.run events).fsm.store.currentRev.main = r.fsm.store.currentRev.main + n ∧
      (r.committed events).map (·.1) = (List.range n).map fun i : Nat => r.fsm.store.currentRev.main + 1 + (i : Int) := by
  induction events generalizing r with
  | nil => exact ⟨0,by simp [run],rfl⟩
  | cons event rest ih =>
    obtain ⟨n,current,revisions⟩ := ih (r.step_orderly event orderly) fun now inside => up now (List.mem_cons_of_mem _ inside)
    have run_cons : r.run (event :: rest) = (r.step event).run rest := rfl
    rw [run_cons,current,committed,List.map_append,revisions,KvStore.gained]
    have first : ∀ now, event ≠ .restart now := fun now is => up now (by rw [is]; exact List.mem_cons_self)
    rcases step_current orderly first with same | next
    · rw [same,if_neg (lt_irrefl _)]
      exact ⟨n,rfl,rfl⟩
    · rw [next,if_pos (by omega)]
      refine ⟨n + 1,by push_cast; omega,?_⟩
      simp only [List.range_succ_eq_map,List.map_cons,List.map_nil,List.singleton_append,List.map_map,Nat.cast_zero,add_zero,
        List.cons.injEq,true_and]
      refine List.map_congr_left fun i _ => ?_
      simp only [Function.comp_apply]
      push_cast
      omega

end Replica

/-- Observers are told of every committed revision, once and in order, exactly as long as no lease takes a key with it. -/
theorem observers_see_every_revision_iff (opts : OtOptions) (nodeID : String) {events : List ReplicaEvent}
    (up : ∀ now, .restart now ∉ events) :
    let r := Replica.new opts nodeID
    (((r.announced events).filter (· ≠ [])).map (·.map Entry.stored) = (r.committed events).map (·.2) ∧
      (r.committed events).map (·.1) =
        (List.range (r.run events).fsm.store.currentRev.main.toNat).map fun i : Nat => (i : Int) + 1) ↔
    r.Undeleting events := by
  intro r
  have orderly : r.fsm.store.Orderly := KvStore.Orderly.new
  obtain ⟨n,current,revisions⟩ := Replica.committed_revisions orderly up
  have start : r.fsm.store.currentRev.main = 0 := rfl
  rw [(Replica.announced_iff orderly up).2, current, revisions, start]
  refine and_iff_left ?_
  simp [add_comm]

/-- A run in which a lease is granted, its key is deleted by a command, and then the lease is revoked. -/
theorem observers_see_every_revision_after_delete :
    (Replica.new defaultOtOptions "a").Undeleting
      [.apply (.plain 0) (.plain 1 (.lease (.grant 5 10))),
        .apply (.plain 0) (.plain 2 (.kv (.put (.plain [97] [1] 5)))),
        .apply (.plain 0) (.plain 3 (.kv (.delete ⟨[97],none,false⟩))),
        .apply (.plain 0) (.plain 4 (.lease (.revoke 5)))] :=
  (observers_see_every_revision_iff defaultOtOptions "a" (by simp)).mp (by decide)

/-- Revoking a lease deletes its key in revision 2, and the observers only know of revision 1. -/
theorem observers_miss_revoked_keys :
    let r := Replica.new defaultOtOptions "a"
    let events : List ReplicaEvent := [.apply (.plain 0) (.plain 1 (.lease (.grant 5 10))),
      .apply (.plain 0) (.plain 2 (.kv (.put (.plain [97] [1] 5)))),
      .apply (.plain 0) (.plain 3 (.lease (.revoke 5)))]
    r.announced events = [[⟨[97],some [1],1,1,1,5⟩]] ∧
      r.committed events = [(1,[⟨[97],some [1],1,1,1,5⟩]),(2,[⟨[97],some [],0,2,0,0⟩])] := by
  decide

end Kave
