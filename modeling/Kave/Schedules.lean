import Kave.Agreement
import Kave.ConcurrentReads

/-! Replicas of one log. Between the entries the goroutines of the compactions go on at their own pace, which is different
    on every replica; the results of the commands are not, as long as no transaction reads below a compaction that was
    accepted and has not ended. -/

namespace Kave

open TreeIndex

/-! ### The history behind a store with running compactions -/

/-- The store answers the history from `top` on, and no compaction goes or has gone above `top`. -/
structure Sys.Traced (top : Int) (h : History) (s : Sys) : Prop where
  sound : s.Sound top h
  orderly : s.store.Orderly
  compacted : s.store.compactedMainRev ≤ top
  targets : ∀ job ∈ s.jobs, job.compaction.targetRev ≤ top

theorem Refines.mono {lo lo' : Int} {s : KvStore} {h : History} (refines_ : Refines lo s h) (le : lo ≤ lo') (reach : lo' ≤ h.current) :
    Refines lo' s h :=
  ⟨refines_.settled,refines_.current,reach,fun r low high => refines_.agree r (le.trans low) high⟩

theorem Refines.seenAt {lo : Int} {s : KvStore} {h : History} (refines_ : Refines lo s h) (key : Bytes) {r : Int} (low : lo ≤ r) :
    s.seenAt key r = wanted key ((h.snap (min r h.current)).find? key) := by
  rcases le_total r h.current with past | future
  · rw [min_eq_left past]
    exact refines_.agree r low past key
  · rw [min_eq_right future,KvStore.seenAt,refines_.settled.look_now key (refines_.current.trans_le future),refines_.current]
    exact refines_.agree h.current refines_.reach le_rfl key

namespace Sys.Traced

variable {top : Int} {h : History} {s : Sys}

private theorem replace (traced : s.Traced top h) {s' : KvStore} (orderly : s'.Orderly) (current : s'.currentRev = s.store.currentRev)
    (kv : s'.backend.buckets.kv = s.store.backend.buckets.kv) (compacted : s'.compactedMainRev = s.store.compactedMainRev)
    (look : ∀ key t, s'.kvIndex.look key t = s.store.kvIndex.look key t)
    (records : ∀ key, s'.kvIndex.records key = s.store.kvIndex.records key) : (Sys.settle s' s.jobs).Traced top h := by
  refine ⟨⟨traced.sound.refines_.of_shows orderly.settled current fun r m shows_ key => ?_,?_,?_⟩,orderly,?_,?_⟩
  · change shown s'.backend.buckets.kv (s'.kvIndex.look key r) = _
    rw [kv,look]
    exact shows_ key
  · intro key bk member
    change bk ∈ s'.kvIndex.records key at member
    change ∃ entry, s'.backend.buckets.kv.find? bk = some entry ∧ _
    rw [records] at member
    rw [kv]
    exact traced.sound.linked key bk member
  · intro job member
    obtain ⟨old,inside,rfl⟩ := mem_settle.mp member
    refine (traced.sound.jobs old inside).later (by rw [current]) fun key bk known => Or.inl ?_
    rwa [← records]
  · exact compacted.le.trans traced.compacted
  · intro job member
    obtain ⟨old,inside,rfl⟩ := mem_settle.mp member
    rw [Job.detach_compaction]
    exact traced.targets old inside

theorem same (traced : s.Traced top h) {s' : KvStore} (same : s.store.SameKv s') : (Sys.settle s' s.jobs).Traced top h := by
  have index : s'.kvIndex = s.store.kvIndex := congrArg Content.index same.content
  exact traced.replace (traced.orderly.same same) same.current (congrArg Content.kv same.content) same.compacted
    (fun key t => by rw [index]) fun key => by rw [index]

theorem updateInmemRaftMeta (traced : s.Traced top h) (index term : Nat) :
    Sys.Traced top h ⟨s.store.updateInmemRaftMeta index term,s.jobs⟩ := by
  have orderly := traced.orderly.same (.updateInmemRaftMeta s.store index term)
  refine ⟨⟨traced.sound.refines_.of_shows orderly.settled rfl fun _ _ shows_ => shows_,traced.sound.linked,?_⟩,orderly,
    traced.compacted,traced.targets⟩
  intro job member
  have sound := traced.sound.jobs job member
  exact ⟨sound.target_le,sound.clean,sound.covers⟩

theorem aborted (traced : s.Traced top h) {ti : TreeIndex} (alike : ti.Alike s.store.kvIndex) :
    (Sys.settle { s.store with kvIndex := ti } s.jobs).Traced top h :=
  traced.replace (traced.orderly.aborted alike) rfl rfl rfl alike.look alike.records

theorem settle_settle (s : KvStore) (jobs : List Job) {s' : KvStore} (index : s'.kvIndex = s.kvIndex) :
    Sys.settle s' (Sys.settle s jobs).jobs = Sys.settle s' jobs := by
  have twice : ∀ job : Job, (job.detach s.kvIndex).detach s.kvIndex = job.detach s.kvIndex := by
    rintro ⟨c,stage⟩
    cases stage with
    | index pending avail => simp [Job.detach,Function.comp_def]
    | clone | batch | store => rfl
  rw [Sys.settle,Sys.settle,Sys.settle,index,List.map_map]
  exact congrArg (Sys.mk s') (List.map_congr_left fun job _ => twice job)

theorem txn (traced : s.Traced top h) (ops : List Op) {s' : KvStore} (same : (s.store.txn ops).SameKv s') :
    (Sys.settle s' s.jobs).Traced top (h.txn ops) := by
  obtain ⟨ws,committed⟩ := traced.orderly.settled.committed ops
  have after : (s.step (.txn ops)).Traced top (h.txn ops) := by
    refine ⟨traced.sound.txn ops,traced.orderly.txn ops,committed.compacted.le.trans traced.compacted,?_⟩
    intro job member
    obtain ⟨old,inside,rfl⟩ := mem_settle.mp member
    rw [Job.detach_compaction]
    exact traced.targets old inside
  have final := after.same same
  rwa [Sys.step, settle_settle _ _ (congrArg Content.index same.content)] at final

theorem compact (traced : s.Traced top h) {rev : Int} (clean : s.store.Accepts rev → s.store.CleanAt rev) :
    (s.compact rev).Traced (if s.store.Accepts rev then max top rev else top) h := by
  have sound := traced.sound.compact clean
  have orderly := traced.orderly.compact rev
  rcases s.store.compact_eq rev with ⟨accepts_,run⟩ | ⟨refused,e,run⟩
  · rw [if_pos accepts_]
    rw [Sys.compact,run] at sound ⊢
    rw [run] at orderly
    have reach : max top rev ≤ h.current := max_le traced.sound.refines_.reach (accepts_.2.1.trans_eq traced.sound.refines_.current)
    refine ⟨⟨sound.refines_.mono (le_max_left _ _) reach,sound.linked,sound.jobs⟩,orderly,traced.compacted.trans (le_max_left _ _),?_⟩
    intro job member
    rcases List.mem_append.mp member with old | new
    · exact (traced.targets job old).trans (le_max_left _ _)
    · rw [List.mem_singleton.mp new]
      exact le_max_right _ _
  · rw [if_neg refused]
    rw [Sys.compact,run] at sound ⊢
    exact ⟨sound,traced.orderly,traced.compacted,traced.targets⟩

theorem advance (traced : s.Traced top h) (i : Nat) : (s.advance i).Traced top h := by
  obtain ⟨lo,from_,sound⟩ := traced.sound.advance i
  have sound : (s.advance i).Sound top h := by
    rcases from_ with rfl | ⟨c,visited,rfl⟩
    · exact sound
    · rw [visits,Option.mem_def,Option.bind_eq_some_iff] at visited
      obtain ⟨job,at_,target⟩ := visited
      have le := traced.targets job (List.mem_of_getElem? at_)
      split at target
      · cases target
        rwa [max_eq_left le] at sound
      · cases target
  refine ⟨sound,?_,?_,fun job member => ?_⟩
  · rw [Sys.advance]
    split
    · exact traced.orderly
    next job at_ => exact (job.step_cases traced.orderly.settled.before.valid).orderly traced.orderly
  · rw [Sys.advance]
    split
    · exact traced.compacted
    next job at_ =>
      have stepped := job.step_cases traced.orderly.settled.before.valid
      change (job.step s.store).1.compactedMainRev ≤ top
      generalize (job.step s.store).1 = store at stepped ⊢
      generalize (job.step s.store).2 = next at stepped
      cases stepped with
      | store => exact traced.targets job (List.mem_of_getElem? at_)
      | clone | indexed | failed | visit | batch => exact traced.compacted
  · obtain ⟨old,inside,same⟩ := compaction_of_advance member
    rw [same]
    exact traced.targets old inside

theorem twins (traced : s.Traced top h) {s' : Sys} (traced' : s'.Traced top h) : s.store.Twins top s'.store where
  orderly := traced.orderly
  orderly' := traced'.orderly
  current := traced'.sound.refines_.current.trans traced.sound.refines_.current.symm
  reach := traced.sound.refines_.reach.trans_eq traced.sound.refines_.current.symm
  kept := traced.compacted
  kept' := traced'.compacted
  seen key _ low := (traced.sound.refines_.seenAt key low).trans (traced'.sound.refines_.seenAt key low).symm

end Sys.Traced

theorem KvStore.Twins.liveEntries {lo : Int} {s s' : KvStore} (twins : s.Twins lo s') : s.liveEntries = s'.liveEntries := by
  have nonneg := twins.orderly.settled.nonneg
  have above : ¬ s.currentRev.main < s.compactedMainRev := not_lt.mpr (twins.kept.trans twins.reach)
  have above' : ¬ s.currentRev.main < s'.compactedMainRev := not_lt.mpr (twins.kept'.trans twins.reach)
  have fetch := fetchRange_seenAt fun key => twins.seen key s.currentRev.main twins.reach
  simp only [KvStore.liveEntries,KvStore.range,doRange,twins.current,le_refl,if_true,gt_iff_lt,not_lt.mpr nonneg,if_false,
    above,above',fetch]

/-! ### Two replicas -/

namespace Replica

/-- The replicas have applied the same log: one history is behind both stores, and the leases have the same keys. -/
structure Twins (top : Int) (r r' : Replica) : Prop where
  history : ∃ h, r.sys.Traced top h ∧ r'.sys.Traced top h
  sets : r.fsm.lm.SameKeySets r'.fsm.lm
  applied : r'.fsm.store.applyIndex = r.fsm.store.applyIndex
  node : r'.fsm.nodeID = r.fsm.nodeID

/-- The command does not depend on how far the compactions are, of which `top` is the highest target: a compaction that is
    accepted meets no key that its target deleted and put again, and the range operations of a transaction ask for the
    newest revision, for one not below `top`, or for one that is compacted already. -/
def Steady (r : Replica) (top : Int) : Request → Prop
  | .kv cmd => Engine.Asks (fun rev => rev ≤ 0 ∨ top ≤ rev ∨ rev < r.fsm.store.compactedMainRev) r.fsm.store.newWriter cmd
  | .compaction rev => r.fsm.store.Accepts rev → r.fsm.store.CleanAt rev
  | _ => True

/-- The highest target after a command that starts a compaction or none. -/
def raised (top : Int) (started : Option Compaction) : Int := started.elim top fun c => max top c.targetRev

/-- The highest target of an accepted compaction after the entry. -/
def topAfter (r : Replica) (env : Env) (log : Log) (top : Int) : Int := raised top (r.fsm.apply env log).2.1

/-- Every command that is applied is steady, and the replica is not restarted. -/
def SteadyRun : Replica → Int → List ReplicaEvent → Prop
  | _, _, [] => True
  | r, top, .apply env log :: rest => (r.fsm.store.applyIndex < log.index → ∀ request ∈ log.request?, r.Steady top request) ∧
      SteadyRun (r.apply env log) (r.topAfter env log top) rest
  | r, top, .advance i :: rest => SteadyRun (r.advance i) top rest
  | _, _, .restart _ :: _ => False

instance (r : Replica) (top : Int) : (request : Request) → Decidable (r.Steady top request)
  | .kv _ => by unfold Steady; infer_instance
  | .compaction _ => by unfold Steady KvStore.Accepts; infer_instance
  | .lease _ => isTrue trivial
  | .ot _ => isTrue trivial

instance decidableSteadyRun : (r : Replica) → (top : Int) → (events : List ReplicaEvent) → Decidable (r.SteadyRun top events)
  | _, _, [] => isTrue trivial
  | r, top, .apply env log :: rest =>
    have := decidableSteadyRun (r.apply env log) (r.topAfter env log top) rest
    inferInstanceAs (Decidable ((r.fsm.store.applyIndex < log.index → ∀ request ∈ log.request?, r.Steady top request) ∧
      SteadyRun (r.apply env log) (r.topAfter env log top) rest))
  | r, top, .advance i :: rest => decidableSteadyRun (r.advance i) top rest
  | _, _, .restart _ :: _ => isFalse id

/-- What a command leaves: the state machine, and the goroutines with the one it has started. -/
def next (f : Fsm) (started : Option Compaction) (jobs : List Job) : Replica :=
  ⟨f,(Sys.settle f.store jobs).jobs ++ started.toList.map fun c => ⟨c,.clone⟩⟩

theorem sys_next (f : Fsm) (started : Option Compaction) (jobs : List Job) :
    (next f started jobs).sys = Sys.settle f.store (jobs ++ started.toList.map fun c => ⟨c,.clone⟩) := by
  cases started with
  | none => simp [next,sys,Sys.settle]
  | some c => simp [next,sys,Sys.settle,Job.detach]

variable {top : Int} {h : History} {f f' : Fsm} {jobs jobs' : List Job}

section

variable (traced : Sys.Traced top h ⟨f.store,jobs⟩)

include traced

theorem Steady.updateInmemRaftMeta {request : Request} (steady : Steady ⟨f,jobs⟩ top request)
    (index term : Nat) : Steady ⟨{ f with store := f.store.updateInmemRaftMeta index term },jobs⟩ top request := by
  cases request with
  | kv cmd =>
    cases cmd with
    | put cmd | delete cmd => trivial
    | txn cmd =>
      have twins := traced.twins (traced.updateInmemRaftMeta index term)
      change Engine.OpsAsk _ _ f.store.newWriter at steady
      change Engine.OpsAsk _ _ (f.store.updateInmemRaftMeta index term).newWriter
      refine Engine.OpsAsk.transfer twins.writersAgree (fun rev ok => ⟨?_,ok⟩) twins.newWriter steady
      rcases ok with now | above | below
      · exact Or.inl now
      · exact Or.inr (Or.inl above)
      · exact Or.inr (Or.inr ⟨below,below⟩)
  | compaction rev => exact steady
  | lease cmd => trivial
  | ot cmd => trivial

theorem traced_applyKv (cmd : KvRequest) :
    (∃ result, (Engine.applyWrite f.store f.lm cmd).2 = .ok result ∧
      (next (f.applyKv cmd).1 none jobs).sys.Traced top (h.txn (Engine.calls f.store.newWriter cmd))) ∨
    ∃ e, (Engine.applyWrite f.store f.lm cmd).2 = .error e ∧ (next (f.applyKv cmd).1 none jobs).sys.Traced top h := by
  rw [sys_next,Option.toList_none,List.map_nil,List.append_nil]
  change (∃ result, _ ∧ (Sys.settle (Engine.applyWrite f.store f.lm cmd).1.1 jobs).Traced top _) ∨
    ∃ e, _ ∧ (Sys.settle (Engine.applyWrite f.store f.lm cmd).1.1 jobs).Traced top h
  rcases Engine.applyWrite_cases traced.orderly.settled f.lm cmd with ⟨e,ti,failed,left,alike⟩ | ⟨result,ws,succeeded,-⟩
  · refine Or.inr ⟨e,failed,?_⟩
    rw [left]
    exact traced.aborted alike
  · refine Or.inl ⟨result,succeeded,?_⟩
    rw [Engine.applyWrite_eq_txn succeeded]
    exact traced.txn _ (.refl _)

theorem traced_same (same : f.store.SameKv f'.store) :
    (next f' none jobs).sys.Traced top h := by
  rw [sys_next,Option.toList_none,List.map_nil,List.append_nil]
  exact traced.same same

theorem traced_applyLease (env : Env) (cmd : LeaseRequest) :
    ∃ keys : List Bytes, (∀ key, key ∈ keys ↔ ∃ id ∈ cmd.removes, f.lm.attached id key = true) ∧
      (next (f.applyLease env cmd).1 none jobs).sys.Traced top (h.txn (keys.map .deleteKey)) := by
  obtain ⟨keys,attached,same⟩ := Fsm.applyLease_store traced.orderly.settled env cmd
  refine ⟨keys,attached,?_⟩
  rw [sys_next,Option.toList_none,List.map_nil,List.append_nil]
  exact traced.txn _ same

theorem traced_applyCompaction {rev : Int}
    (clean : f.store.Accepts rev → f.store.CleanAt rev) :
    (next (f.applyCompaction rev).1 (f.applyCompaction rev).2.1 jobs).sys.Traced (raised top (f.applyCompaction rev).2.1) h ∧
    raised top (f.applyCompaction rev).2.1 = if f.store.Accepts rev then max top rev else top := by
  have after := traced.compact clean
  rw [sys_next]
  change (Sys.settle (f.store.compact rev).1 (jobs ++ (f.store.compact rev).2.toOption.toList.map _)).Traced
    (raised top (f.store.compact rev).2.toOption) h ∧ raised top (f.store.compact rev).2.toOption = _
  rcases f.store.compact_eq rev with ⟨accepts_,run⟩ | ⟨refused,e,run⟩
  · rw [if_pos accepts_] at after ⊢
    rw [Sys.compact,run] at after
    rw [run]
    exact ⟨after.same (.refl _),rfl⟩
  · rw [if_neg refused] at after ⊢
    rw [Sys.compact,run] at after
    rw [run]
    refine ⟨?_,rfl⟩
    change (Sys.settle f.store (jobs ++ [])).Traced top h
    rw [List.append_nil]
    exact after.same (.refl _)

end

namespace Twins

variable {r r' : Replica}

theorem stores (twins : Twins top r r') : r.fsm.store.Twins top r'.fsm.store := by
  obtain ⟨h,traced,traced'⟩ := twins.history
  exact traced.twins traced'

theorem advance (twins : Twins top r r') (i : Nat) : Twins top (r.advance i) r' := by
  obtain ⟨h,traced,traced'⟩ := twins.history
  have applied : (r.sys.advance i).store.applyIndex = r.fsm.store.applyIndex := by
    rw [Sys.advance]
    split
    · rfl
    next job at_ =>
      have stepped := job.step_cases traced.orderly.settled.before.valid
      change (job.step r.sys.store).1.applyIndex = r.sys.store.applyIndex
      generalize (job.step r.sys.store).1 = store at stepped ⊢
      generalize (job.step r.sys.store).2 = left at stepped
      cases stepped <;> rfl
  exact ⟨⟨h,traced.advance i,traced'⟩,twins.sets,twins.applied.trans applied.symm,twins.node⟩

theorem symm (twins : Twins top r r') : Twins top r' r := by
  obtain ⟨h,traced,traced'⟩ := twins.history
  exact ⟨⟨h,traced',traced⟩,fun id => (twins.sets id).symm,twins.applied.symm,twins.node.symm⟩

theorem updateInmemRaftMeta (twins : Twins top ⟨f,jobs⟩ ⟨f',jobs'⟩) (index term : Nat) :
    Twins top ⟨{ f with store := f.store.updateInmemRaftMeta index term },jobs⟩
      ⟨{ f' with store := f'.store.updateInmemRaftMeta index term },jobs'⟩ := by
  obtain ⟨h,traced,traced'⟩ := twins.history
  exact ⟨⟨h,traced.updateInmemRaftMeta index term,traced'.updateInmemRaftMeta index term⟩,twins.sets,rfl,twins.node⟩

theorem persistRaftMeta {started : Option Compaction} (twins : Twins top (next f started jobs) r') :
    Twins top (next { f with store := f.store.persistRaftMeta } started jobs) r' := by
  obtain ⟨h,traced,traced'⟩ := twins.history
  refine ⟨⟨h,?_,traced'⟩,twins.sets,twins.applied,twins.node⟩
  rw [sys_next] at traced ⊢
  have once : Sys.settle f.store.persistRaftMeta (Sys.settle f.store _).jobs = _ :=
    Sys.Traced.settle_settle f.store (jobs ++ started.toList.map fun c => ⟨c,.clone⟩) rfl
  have after := traced.same (KvStore.SameKv.persistRaftMeta f.store)
  rwa [once] at after

section

variable (twins : Twins top ⟨f,jobs⟩ ⟨f',jobs'⟩)

include twins

theorem applyKv {cmd : KvRequest} (steady : Steady ⟨f,jobs⟩ top (.kv cmd))
    (steady' : Steady ⟨f',jobs'⟩ top (.kv cmd)) :
    Twins top (next (f.applyKv cmd).1 none jobs) (next (f'.applyKv cmd).1 none jobs') ∧
      (f.applyKv cmd).2.2 = (f'.applyKv cmd).2.2 := by
  obtain ⟨h,traced,traced'⟩ := twins.history
  have stores : f.store.Twins top f'.store := twins.stores
  have asks := stores.asks (fun rev ok ok' => ?_) steady steady'
  · obtain ⟨result,sets,calls⟩ := stores.applyWrite LeaseManager.SameKeySets.attachersAgree twins.sets asks
    have applied := Fsm.dispatch_applyIndex traced.orderly.settled (.plain 0) (.kv cmd)
    have applied' := Fsm.dispatch_applyIndex traced'.orderly.settled (.plain 0) (.kv cmd)
    have rest : ∀ h', (next (f.applyKv cmd).1 none jobs).sys.Traced top h' →
        (next (f'.applyKv cmd).1 none jobs').sys.Traced top h' →
        Twins top (next (f.applyKv cmd).1 none jobs) (next (f'.applyKv cmd).1 none jobs') := fun h' after after' =>
      ⟨⟨h',after,after'⟩,sets,applied'.trans (twins.applied.trans applied.symm),twins.node⟩
    refine ⟨?_,?_⟩
    · rcases traced_applyKv traced cmd with ⟨r,ok,after⟩ | ⟨e,failed,after⟩
      · rcases traced_applyKv traced' cmd with ⟨r',ok',after'⟩ | ⟨e',failed',after'⟩
        · rw [← calls] at after'
          exact rest _ after after'
        · change (Engine.applyWrite f'.store f'.lm cmd).2 = _ at failed'
          rw [← result,ok] at failed'
          cases failed'
      · rcases traced_applyKv traced' cmd with ⟨r',ok',after'⟩ | ⟨e',failed',after'⟩
        · change (Engine.applyWrite f'.store f'.lm cmd).2 = _ at ok'
          rw [← result,failed] at ok'
          cases ok'
        · exact rest _ after after'
    · change Except.map _ (Except.mapError _ (Engine.applyWrite f.store f.lm cmd).2) =
        Except.map _ (Except.mapError _ (Engine.applyWrite f'.store f'.lm cmd).2)
      rw [result]
  · have kept := stores.kept
    have kept' := stores.kept'
    unfold KvStore.Alike
    simp only at ok ok'
    omega

theorem applyLease (env env' : Env) (cmd : LeaseRequest) :
    Twins top (next (f.applyLease env cmd).1 none jobs) (next (f'.applyLease env' cmd).1 none jobs') := by
  obtain ⟨h,traced,traced'⟩ := twins.history
  obtain ⟨keys,attached,after⟩ := traced_applyLease traced env cmd
  obtain ⟨keys',attached',after'⟩ := traced_applyLease traced' env' cmd
  have sets : f.lm.SameKeySets f'.lm := twins.sets
  -- the key sets are iterated in different orders, which the history does not see
  have same : ∀ key, key ∈ keys ↔ key ∈ keys' := fun key => by simp only [attached,attached',sets.attached]
  rw [← h.txn_deleteKeys_congr fun key _ => same key] at after'
  refine ⟨⟨_,after,after'⟩,fun id => ?_,?_,?_⟩
  · change ((f'.applyLease env' cmd).1.lm.find? id).map _ = ((f.applyLease env cmd).1.lm.find? id).map _
    rw [Fsm.applyLease_keySets traced.orderly.settled,Fsm.applyLease_keySets traced'.orderly.settled,sets id]
  · exact (Fsm.dispatch_applyIndex traced'.orderly.settled env' (.lease cmd)).trans
      (twins.applied.trans (Fsm.dispatch_applyIndex traced.orderly.settled env (.lease cmd)).symm)
  · have node : ∀ (f : Fsm) (env : Env), (f.applyLease env cmd).1.nodeID = f.nodeID := fun f env => by cases cmd <;> rfl
    exact (node f' env').trans (twins.node.trans (node f env).symm)

theorem applyOT (cmd : OtRequest) :
    Twins top (next (f.applyOT cmd).1 none jobs) (next (f'.applyOT cmd).1 none jobs') := by
  obtain ⟨h,traced,traced'⟩ := twins.history
  have same : ∀ f : Fsm, f.store.SameKv (f.applyOT cmd).1.store := by
    intro f
    cases cmd with
    | writeAll blob => exact .applyWriteAll _ _ _
    | generateClusterKey key => exact .applyGenerateClusterKey _ _ _
  have rest : ∀ f : Fsm, (f.applyOT cmd).1.lm = f.lm ∧ (f.applyOT cmd).1.nodeID = f.nodeID := fun f => by cases cmd <;> exact ⟨rfl,rfl⟩
  refine ⟨⟨h,traced_same traced (same f),traced_same traced' (same f')⟩,?_,?_,?_⟩
  · change LeaseManager.SameKeySets (f.applyOT cmd).1.lm (f'.applyOT cmd).1.lm
    rw [(rest f).1,(rest f').1]
    exact twins.sets
  · exact (Fsm.dispatch_applyIndex traced'.orderly.settled (.plain 0) (.ot cmd)).trans
      (twins.applied.trans (Fsm.dispatch_applyIndex traced.orderly.settled (.plain 0) (.ot cmd)).symm)
  · exact (rest f').2.trans (twins.node.trans (rest f).2.symm)

/-- One replica may refuse a compaction that the other accepts, but only if its target is not above `top`. -/
theorem applyCompaction {rev : Int} (steady : Steady ⟨f,jobs⟩ top (.compaction rev))
    (steady' : Steady ⟨f',jobs'⟩ top (.compaction rev)) :
    raised top (f'.applyCompaction rev).2.1 = raised top (f.applyCompaction rev).2.1 ∧
    Twins (raised top (f.applyCompaction rev).2.1) (next (f.applyCompaction rev).1 (f.applyCompaction rev).2.1 jobs)
      (next (f'.applyCompaction rev).1 (f'.applyCompaction rev).2.1 jobs') := by
  obtain ⟨h,traced,traced'⟩ := twins.history
  obtain ⟨after,topIs⟩ := traced_applyCompaction traced steady
  obtain ⟨after',topIs'⟩ := traced_applyCompaction traced' steady'
  have stores : f.store.Twins top f'.store := twins.stores
  have same : (if f'.store.Accepts rev then max top rev else top) = if f.store.Accepts rev then max top rev else top := by
    have kept := stores.kept
    have kept' := stores.kept'
    have current := stores.current
    by_cases accepts_ : f.store.Accepts rev <;> by_cases accepts' : f'.store.Accepts rev
    · rw [if_pos accepts_,if_pos accepts']
    · rw [if_pos accepts_,if_neg accepts']
      unfold KvStore.Accepts at accepts_ accepts'
      omega
    · rw [if_neg accepts_,if_pos accepts']
      unfold KvStore.Accepts at accepts_ accepts'
      omega
    · rw [if_neg accepts_,if_neg accepts']
  have tops := topIs'.trans (same.trans topIs.symm)
  rw [tops] at after'
  refine ⟨tops,⟨h,after,after'⟩,twins.sets,?_,twins.node⟩
  exact (Fsm.dispatch_applyIndex traced'.orderly.settled (.plain 0) (.compaction rev)).trans
    (twins.applied.trans (Fsm.dispatch_applyIndex traced.orderly.settled (.plain 0) (.compaction rev)).symm)

end

end Twins

end Replica

/-- A put, delete or txn command, or an entry that holds no command that could be applied. -/
def Log.isKv (log : Log) : Bool :=
  match log.request? with
  | some (.kv _) | none => true
  | some _ => false

namespace Replica

/-- The results of the put, delete and txn commands of a run. -/
def kvResults : Replica → List ReplicaEvent → List Result
  | _, [] => []
  | r, .apply env log :: rest =>
    if log.isKv then (r.fsm.apply env log).2.2 :: kvResults (r.apply env log) rest else kvResults (r.apply env log) rest
  | r, .advance i :: rest => kvResults (r.advance i) rest
  | r, .restart now :: rest => kvResults (r.restart now) rest

/-- The entries of the log that a run applies. -/
def logsOf (events : List ReplicaEvent) : List Log :=
  events.filterMap fun
    | .apply _ log => some log
    | _ => none

theorem apply_eq (r : Replica) (env : Env) (log : Log) :
    r.apply env log = next (r.fsm.apply env log).1 (r.fsm.apply env log).2.1 r.jobs := rfl

theorem Twins.dispatch {top : Int} {f f' : Fsm} {jobs jobs' : List Job} (twins : Twins top ⟨f,jobs⟩ ⟨f',jobs'⟩) (env env' : Env)
    {request : Request} (steady : Steady ⟨f,jobs⟩ top request) (steady' : Steady ⟨f',jobs'⟩ top request)
    {run run' : Fsm.Outcome} (is : f.dispatch env request = run) (is' : f'.dispatch env' request = run') :
    raised top run'.2.1 = raised top run.2.1 ∧
      Twins (raised top run.2.1) (next run.1 run.2.1 jobs) (next run'.1 run'.2.1 jobs') ∧
      ∀ cmd, request = .kv cmd → run.2.2 = run'.2.2 := by
  cases request with
  | kv cmd =>
    obtain ⟨after,same⟩ := twins.applyKv steady steady'
    change f.applyKv cmd = run at is
    change f'.applyKv cmd = run' at is'
    have started : run.2.1 = none := by rw [← is]; rfl
    have started' : run'.2.1 = none := by rw [← is']; rfl
    rw [is,is'] at after same
    rw [started,started']
    exact ⟨rfl,after,fun _ _ => same⟩
  | lease cmd =>
    have after := twins.applyLease env env' cmd
    change f.applyLease env cmd = run at is
    change f'.applyLease env' cmd = run' at is'
    have started : run.2.1 = none := by rw [← is]; cases cmd <;> rfl
    have started' : run'.2.1 = none := by rw [← is']; cases cmd <;> rfl
    rw [is,is'] at after
    rw [started,started']
    exact ⟨rfl,after,fun cmd other => by cases other⟩
  | compaction rev =>
    obtain ⟨tops,after⟩ := twins.applyCompaction steady steady'
    change f.applyCompaction rev = run at is
    change f'.applyCompaction rev = run' at is'
    rw [is,is'] at tops after
    exact ⟨tops,after,fun cmd other => by cases other⟩
  | ot cmd =>
    have after := twins.applyOT cmd
    change f.applyOT cmd = run at is
    change f'.applyOT cmd = run' at is'
    have started : run.2.1 = none := by rw [← is]; cases cmd <;> rfl
    have started' : run'.2.1 = none := by rw [← is']; cases cmd <;> rfl
    rw [is,is'] at after
    rw [started,started']
    exact ⟨rfl,after,fun cmd other => by cases other⟩

theorem Twins.apply {top : Int} {r r' : Replica} (twins : Twins top r r') (env env' : Env) {log : Log}
    (steady : r.fsm.store.applyIndex < log.index → ∀ request ∈ log.request?, r.Steady top request)
    (steady' : r'.fsm.store.applyIndex < log.index → ∀ request ∈ log.request?, r'.Steady top request) :
    r'.topAfter env' log top = r.topAfter env log top ∧
      Twins (r.topAfter env log top) (r.apply env log) (r'.apply env' log) ∧
      (log.isKv = true → (r.fsm.apply env log).2.2 = (r'.fsm.apply env' log).2.2) := by
  have applied := twins.applied
  have passed : ∀ result, r.fsm.apply env log = (r.fsm,none,result) → r'.fsm.apply env' log = (r'.fsm,none,result) →
      r'.topAfter env' log top = r.topAfter env log top ∧
        Twins (r.topAfter env log top) (r.apply env log) (r'.apply env' log) ∧
        (log.isKv = true → (r.fsm.apply env log).2.2 = (r'.fsm.apply env' log).2.2) := by
    intro result run run'
    obtain ⟨h,traced,traced'⟩ := twins.history
    rw [topAfter,topAfter,apply_eq,apply_eq,run,run']
    exact ⟨rfl,⟨⟨h,traced_same traced (.refl _),traced_same traced' (.refl _)⟩,twins.sets,twins.applied,twins.node⟩,fun _ => rfl⟩
  by_cases old : log.index ≤ r.fsm.store.applyIndex
  · exact passed Result.empty (by rw [Fsm.apply,if_pos old]) (by rw [Fsm.apply,applied,if_pos old])
  have old' : ¬ log.index ≤ r'.fsm.store.applyIndex := by rwa [applied]
  obtain ⟨index,term,data⟩ := log
  cases data with
  | none => exact passed _ (by rw [Fsm.apply,if_neg old]) (by rw [Fsm.apply,if_neg old'])
  | some cmd =>
    cases cmd with
    | missing kind => exact passed _ (by rw [Fsm.apply,if_neg old]; rfl) (by rw [Fsm.apply,if_neg old']; rfl)
    | full request =>
      obtain ⟨h,traced,traced'⟩ := twins.history
      have known : Twins top ⟨{ r.fsm with store := r.fsm.store.updateInmemRaftMeta index term },r.jobs⟩
          ⟨{ r'.fsm with store := r'.fsm.store.updateInmemRaftMeta index term },r'.jobs⟩ :=
        Twins.updateInmemRaftMeta twins index term
      have isKv : Log.isKv ⟨index,term,some (.full request)⟩ = true → ∃ cmd, request = .kv cmd := by
        cases request <;> simp [Log.isKv,Log.request?]
      have dispatched := @known.dispatch _ _ _ _ _ env env' request
        ((steady (not_le.mp old) request rfl).updateInmemRaftMeta traced index term)
        ((steady' (not_le.mp old') request rfl).updateInmemRaftMeta traced' index term)
      rw [topAfter,topAfter,apply_eq,apply_eq,Fsm.apply,Fsm.apply,if_neg old,if_neg old']
      simp only [Command.check]
      generalize Fsm.dispatch _ env request = run at dispatched ⊢
      generalize Fsm.dispatch _ env' request = run' at dispatched ⊢
      obtain ⟨tops,after,same⟩ := dispatched rfl rfl
      obtain ⟨g,started,outcome⟩ := run
      obtain ⟨g',started',outcome'⟩ := run'
      have node : g'.nodeID = g.nodeID := after.node
      have results : Log.isKv ⟨index,term,some (.full request)⟩ = true → outcome = outcome' := fun kv => by
        obtain ⟨cmd,is⟩ := isKv kv
        exact same cmd is
      cases outcome with
      | error e =>
        cases outcome' with
        | error e' => exact ⟨tops,after,fun kv => by cases results kv; simp only [node]⟩
        | ok result' => exact ⟨tops,after.symm.persistRaftMeta.symm,fun kv => by cases results kv⟩
      | ok result =>
        cases outcome' with
        | error e' => exact ⟨tops,after.persistRaftMeta,fun kv => by cases results kv⟩
        | ok result' =>
          exact ⟨tops,after.persistRaftMeta.symm.persistRaftMeta.symm,fun kv => by cases results kv; simp only [node]⟩

/-- Two runs of one log keep the replicas together and give the same results. -/
theorem Twins.runs {top : Int} {r r' : Replica} (twins : Twins top r r') {events events' : List ReplicaEvent}
    (same : logsOf events = logsOf events') (steady : r.SteadyRun top events) (steady' : r'.SteadyRun top events') :
    r.kvResults events = r'.kvResults events' ∧ ∃ top', Twins top' (r.run events) (r'.run events') := by
  induction events generalizing r r' top events' with
  | nil =>
    induction events' generalizing r' with
    | nil => exact ⟨rfl,top,twins⟩
    | cons event' rest' ih' =>
      cases event' with
      | apply env' log' => cases same
      | advance i => exact ih' (twins.symm.advance i).symm same steady'
      | restart now => exact steady'.elim
  | cons event rest ih =>
    cases event with
    | advance i => exact ih (twins.advance i) same steady steady'
    | restart now => exact steady.elim
    | apply env log =>
      -- the other replica advances its compactions until it comes to the entry
      induction events' generalizing r' with
      | nil => cases same
      | cons event' rest' ih' =>
        cases event' with
        | advance i => exact ih' (twins.symm.advance i).symm steady' same
        | restart now => exact steady'.elim
        | apply env' log' =>
          obtain ⟨rfl,logs⟩ : log = log' ∧ logsOf rest = logsOf rest' := by
            simpa [logsOf] using same
          obtain ⟨tops,after,results⟩ := twins.apply env env' steady.1 steady'.1
          rw [SteadyRun,tops] at steady'
          obtain ⟨others,final⟩ := ih after logs steady.2 steady'.2
          refine ⟨?_,final⟩
          rw [kvResults,kvResults,others]
          split
          next kv => rw [results kv]
          next => rfl

theorem twins_new (opts : OtOptions) (nodeID : String) : Twins 0 (new opts nodeID) (new opts nodeID) := by
  have start : (new opts nodeID).sys.Traced 0 History.empty :=
    ⟨Sys.Sound.new,KvStore.Orderly.new,le_rfl,fun job member => by cases member⟩
  exact ⟨⟨_,start,start⟩,fun _ => rfl,rfl,rfl⟩

end Replica

/-- Two replicas that apply one log, with the goroutines of the compactions going on at any pace, give the same results for
    put, delete and txn commands and end with the same entries, if every command is steady on both. -/
theorem replicas_agree (opts : OtOptions) (nodeID : String) (events events' : List ReplicaEvent)
    (same : Replica.logsOf events = Replica.logsOf events') (steady : (Replica.new opts nodeID).SteadyRun 0 events)
    (steady' : (Replica.new opts nodeID).SteadyRun 0 events') :
    let r := (Replica.new opts nodeID).run events
    let r' := (Replica.new opts nodeID).run events'
    (Replica.new opts nodeID).kvResults events = (Replica.new opts nodeID).kvResults events' ∧
      r.fsm.store.currentRev.main = r'.fsm.store.currentRev.main ∧ r.fsm.store.liveEntries = r'.fsm.store.liveEntries := by
  intro r r'
  obtain ⟨results,top,final⟩ := (Replica.twins_new opts nodeID).runs same steady steady'
  exact ⟨results,final.stores.current.symm,final.stores.liveEntries⟩

/-- A key is put twice, and its second revision is the target of a compaction. -/
def compactedEvents (now : Int) : List ReplicaEvent := [.apply (.plain now) (.plain 1 (.kv (.put (.plain [97] [1] 0)))),
  .apply (.plain now) (.plain 2 (.kv (.put (.plain [97] [2] 0)))),.apply (.plain now) (.plain 3 (.compaction 2))]

/-- A transaction reads the target of a compaction, before the goroutine has started and after it has ended. -/
theorem replicas_agree_at_target :
    let read : Log := .plain 4 (.kv (.txn ⟨[],[.range (some ⟨[97],none,0,2,false⟩)],[]⟩))
    let events := compactedEvents 0 ++ [.apply (.plain 0) read]
    let events' := compactedEvents 9 ++ [.advance 0,.advance 0,.advance 0,.advance 0,.advance 0,.apply (.plain 9) read]
    (Replica.new defaultOtOptions "a").kvResults events = (Replica.new defaultOtOptions "a").kvResults events' ∧
      ((Replica.new defaultOtOptions "a").run events).fsm.store.compactedMainRev = 0 ∧
      ((Replica.new defaultOtOptions "a").run events').fsm.store.compactedMainRev = 2 := by
  intro read events events'
  have agree := replicas_agree defaultOtOptions "a" events events' rfl (by decide) (by decide)
  exact ⟨agree.1,by decide,by decide⟩

/-- A transaction reads below a compaction that was accepted: the replica on which it has ended refuses. -/
theorem replicas_disagree_below_target :
    let read : Log := .plain 4 (.kv (.txn ⟨[],[.range (some ⟨[97],none,0,1,false⟩)],[]⟩))
    let r := (Replica.new defaultOtOptions "a").run (compactedEvents 0)
    let r' := r.run [.advance 0,.advance 0,.advance 0,.advance 0,.advance 0]
    (r.fsm.apply (.plain 0) read).2.2 =
        ⟨⟨2,1,4,"a"⟩,none,.kv (.txn ⟨true,[.range ⟨[⟨[97],some [1],1,1,1,0⟩],1⟩]⟩)⟩ ∧
      (r'.fsm.apply (.plain 0) read).2.2 = ⟨⟨0,1,4,"a"⟩,some (.write (.applyTxn (.range .compacted))),.empty⟩ := by
  decide

end Kave
