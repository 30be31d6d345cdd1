import Kave.VisibleHistory

/-! Compactions beside everything else. Each runs in a goroutine of its own: it compacts a clone of the tree item by
    item, removes records batch by batch and stores its target at the end. A step is what happens under one lock. -/

namespace Kave

open TreeIndex KeyIndex

/-- Where a running `doCompact` stands: before the clone, among the items of the clone, in the delete loop, or before
    the last store. The clone shares its items with the tree; the mark tells whether the tree still has the item. -/
inductive Stage
  | clone
  | index (pending : List (Bytes × Bool)) (avail : List Revision)
  | batch (retain : List Revision) (start : KvBucketKey)
  | store
deriving DecidableEq, Repr

structure Job where
  compaction : Compaction
  stage : Stage
deriving DecidableEq, Repr

/-- One step of a goroutine and what is left of it. An item that has left the tree was emptied before, and compacting
    it is an error that ends the goroutine. -/
def Job.step (job : Job) (s : KvStore) : KvStore × Option Job :=
  let c := job.compaction
  match job.stage with
  | .clone => (s,some ⟨c,.index (s.kvIndex.keys.map fun key => (key,true)) []⟩)
  | .index [] avail => (s,some ⟨c,.batch avail (KvBucketKey.encodeRevisionAsBucketKey ⟨c.compactedRev,0⟩)⟩)
  | .index ((key,attached) :: rest) avail =>
    if attached then
      match s.kvIndex.compactKey c.targetRev key avail with
      | .error _ => (s,none)
      | .ok (kvIndex,avail) => ({ s with kvIndex := kvIndex },some ⟨c,.index rest avail⟩)
    else (s,none)
  | .batch retain start =>
    match s.compactBatch c.targetRev retain start with
    | (s,none) => (s,some ⟨c,.store⟩)
    | (s,some start) => (s,some ⟨c,.batch retain start⟩)
  | .store => ({ s with compactedMainRev := c.targetRev },none)

/-- The items of a clone that are not in the tree any more are marked. -/
def Job.detach (ti : TreeIndex) (job : Job) : Job :=
  match job.stage with
  | .index pending avail => ⟨job.compaction,.index (pending.map fun p => (p.1,p.2 && (ti.find? p.1).isSome)) avail⟩
  | _ => job

/-- A store and the compactions running on it. -/
structure Sys where
  store : KvStore
  jobs : List Job

inductive SysEvent
  | txn (ops : List Op)
  | compact (rev : Int)
  | advance (i : Nat)
deriving DecidableEq, Repr

namespace Sys

def new : Sys := ⟨KvStore.new Backend.empty,[]⟩

/-- The store has changed under the running compactions. -/
def settle (s : KvStore) (jobs : List Job) : Sys := ⟨s,jobs.map (·.detach s.kvIndex)⟩

def compact (s : Sys) (rev : Int) : Sys :=
  match s.store.compact rev with
  | (store,.error _) => ⟨store,s.jobs⟩
  | (store,.ok c) => ⟨store,s.jobs ++ [⟨c,.clone⟩]⟩

/-- A goroutine that goes on keeps its place. -/
def replaceJob (jobs : List Job) (i : Nat) : Option Job → List Job
  | none => jobs.eraseIdx i
  | some job => jobs.set i job

def advance (s : Sys) (i : Nat) : Sys :=
  match s.jobs[i]? with
  | none => s
  | some job => settle (job.step s.store).1 (replaceJob s.jobs i (job.step s.store).2)

def step (s : Sys) : SysEvent → Sys
  | .txn ops => settle (s.store.txn ops) s.jobs
  | .compact rev => s.compact rev
  | .advance i => s.advance i

def run (s : Sys) (events : List SysEvent) : Sys := events.foldl step s

@[simp] theorem run_append (s : Sys) (a b : List SysEvent) : s.run (a ++ b) = (s.run a).run b := List.foldl_append

/-- Every accepted compaction of the run meets `ok` in the state it is accepted in. -/
def EveryAccepted (ok : Sys → Int → Prop) : Sys → List SysEvent → Prop
  | _, [] => True
  | s, .compact rev :: rest => (s.store.Accepts rev → ok s rev) ∧ EveryAccepted ok (s.compact rev) rest
  | s, .txn ops :: rest => EveryAccepted ok (s.step (.txn ops)) rest
  | s, .advance i :: rest => EveryAccepted ok (s.advance i) rest

instance decidableEveryAccepted (ok : Sys → Int → Prop) [∀ s rev, Decidable (ok s rev)] :
    (s : Sys) → (events : List SysEvent) → Decidable (s.EveryAccepted ok events)
  | _, [] => isTrue trivial
  | s, .compact rev :: rest =>
    have := decidableEveryAccepted ok (s.compact rev) rest
    inferInstanceAs (Decidable ((s.store.Accepts rev → ok s rev) ∧ EveryAccepted ok (s.compact rev) rest))
  | s, .txn ops :: rest => decidableEveryAccepted ok (s.step (.txn ops)) rest
  | s, .advance i :: rest => decidableEveryAccepted ok (s.advance i) rest

theorem EveryAccepted.append {ok : Sys → Int → Prop} {s : Sys} {a b : List SysEvent} (every : s.EveryAccepted ok (a ++ b)) :
    s.EveryAccepted ok a ∧ (s.run a).EveryAccepted ok b := by
  induction a generalizing s with
  | nil => exact ⟨trivial,every⟩
  | cons event rest ih =>
    cases event with
    | txn ops => exact ih every
    | compact rev => exact ⟨⟨every.1,(ih every.2).1⟩,(ih every.2).2⟩
    | advance i => exact ih every

theorem run_invariant {ok : Sys → Int → Prop} {P : Sys → Prop} (txn : ∀ s ops, P s → P (s.step (.txn ops)))
    (compact : ∀ s rev, P s → (s.store.Accepts rev → ok s rev) → P (s.compact rev))
    (advance : ∀ s i, P s → P (s.advance i)) {s : Sys} (start : P s) {events : List SysEvent}
    (every : s.EveryAccepted ok events) : P (s.run events) := by
  induction events generalizing s with
  | nil => exact start
  | cons event rest ih =>
    cases event with
    | txn ops => exact ih (txn s ops start) every
    | compact rev => exact ih (compact s rev start every.1) every.2
    | advance i => exact ih (advance s i start) every

end Sys

/-! ### What one step of a goroutine does -/

theorem Job.detach_compaction (ti : TreeIndex) (job : Job) : (job.detach ti).compaction = job.compaction := by
  obtain ⟨c,stage⟩ := job
  cases stage <;> rfl

theorem Job.step_compaction {job next : Job} {s : KvStore} (left : (job.step s).2 = some next) : next.compaction = job.compaction := by
  obtain ⟨c,stage⟩ := job
  cases stage with
  | clone =>
    cases left
    rfl
  | store => cases left
  | index pending avail =>
    match pending with
    | [] =>
      cases left
      rfl
    | (key,false) :: rest => cases left
    | (key,true) :: rest =>
      simp only [Job.step,if_true] at left
      split at left
      · cases left
      · cases left
        rfl
  | batch retain start =>
    simp only [Job.step] at left
    split at left <;> cases left <;> rfl

/-- A step changes the index by one visit, the bucket by one batch or the compacted revision, and nothing else. -/
inductive Job.Stepped (job : Job) (s : KvStore) : KvStore → Option Job → Prop
  | clone (at_ : job.stage = .clone) :
      Stepped job s s (some ⟨job.compaction,.index (s.kvIndex.keys.map fun key => (key,true)) []⟩)
  | indexed {avail : List Revision} (at_ : job.stage = .index [] avail) :
      Stepped job s s (some ⟨job.compaction,.batch avail ⟨⟨job.compaction.compactedRev,0⟩,false⟩⟩)
  | failed {pending : List (Bytes × Bool)} {avail : List Revision} (at_ : job.stage = .index pending avail) :
      Stepped job s s none
  | visit {key : Bytes} {rest : List (Bytes × Bool)} {avail kept : List Revision} {ti : TreeIndex}
      (at_ : job.stage = .index ((key,true) :: rest) avail)
      (visited : KeyVisited job.compaction.targetRev s.kvIndex ti key kept) :
      Stepped job s { s with kvIndex := ti } (some ⟨job.compaction,.index rest (avail ++ kept)⟩)
  | batch {retain : List Revision} {start : KvBucketKey} {b : Backend} {next : Stage}
      (at_ : job.stage = .batch retain start)
      (pruned : Pruned (Removable job.compaction.targetRev retain start) s.backend.buckets.kv b.buckets.kv)
      (scheduled : b.buckets.metadata.scheduledCompactedRev = s.backend.buckets.metadata.scheduledCompactedRev)
      (ended : next = .store ∧ b.buckets.metadata.finishedCompactedRev = some job.compaction.targetRev ∨
        (∃ start', next = .batch retain start') ∧
          b.buckets.metadata.finishedCompactedRev = s.backend.buckets.metadata.finishedCompactedRev) :
      Stepped job s { s with backend := b } (some ⟨job.compaction,next⟩)
  | store (at_ : job.stage = .store) : Stepped job s { s with compactedMainRev := job.compaction.targetRev } none

theorem Job.step_cases (job : Job) {s : KvStore} (valid : s.kvIndex.Valid) :
    Job.Stepped job s (job.step s).1 (job.step s).2 := by
  obtain ⟨c,stage⟩ := job
  cases stage with
  | clone => exact .clone rfl
  | store => exact .store rfl
  | index pending avail =>
    cases pending with
    | nil => exact .indexed rfl
    | cons item rest =>
      obtain ⟨key,attached⟩ := item
      cases attached with
      | false => exact .failed rfl
      | true =>
        cases found : s.kvIndex.find? key with
        | none =>
          have refused : s.kvIndex.compactKey c.targetRev key avail = .error (.compactOnEmptyKeyIndex key) := by
            simp [compactKey,found]
          simp only [Job.step,if_true,refused]
          exact .failed rfl
        | some ki =>
          obtain ⟨ti,kept,run,visited⟩ := compactKey_visited valid c.targetRev avail
            (show (s.kvIndex.find? key).isSome by rw [found]; rfl)
          simp only [Job.step,if_true,run]
          exact .visit rfl visited
  | batch retain start =>
    obtain ⟨b,first,batched⟩ := s.compactBatch_batched c.targetRev retain start
    simp only [Job.step]
    generalize s.compactBatch c.targetRev retain start = run at first batched ⊢
    obtain ⟨store,next⟩ := run
    obtain rfl : store = _ := first
    cases next with
    | none => exact .batch rfl batched.kv batched.scheduled (Or.inl ⟨rfl,batched.finished⟩)
    | some start' => exact .batch rfl batched.kv batched.scheduled (Or.inr ⟨⟨start',rfl⟩,batched.finished⟩)

/-! ### The compacted revision -/

theorem TreeIndex.KeyVisited.records_subset {c : Int} {ti ti' : TreeIndex} {key : Bytes} {kept : List Revision}
    (visited : KeyVisited c ti ti' key kept) {k : Bytes} {bk : KvBucketKey} (member : bk ∈ ti'.records k) :
    bk ∈ ti.records k := by
  by_cases same : k = key
  · subst same
    exact visited.item.subset member
  · rw [TreeIndex.records,visited.other k same] at member
    exact member

theorem Content.exists_domain (c : Content) (t : Int) : ∃ m : KvMap, c.Domain t m := by
  refine ⟨(c.index.live t).mapVals fun _ found => ⟨[],0,found.1.main,found.2.1.main,found.2.2⟩,?_⟩
  intro key
  rw [SortedMap.find_mapVals,find_live,Option.isSome_map]

theorem KvStore.Settled.committed {s : KvStore} (settled : s.Settled) (ops : List Op) : ∃ ws, Committed s (s.txn ops) ws := by
  obtain ⟨m,domain⟩ := s.content.exists_domain (s.currentRev.main + 1)
  exact ⟨_,settled.txn domain ops⟩

theorem KvStore.Settled.of_content {s s' : KvStore} (settled : s.Settled) (current : s'.currentRev = s.currentRev)
    (valid : s'.kvIndex.Valid) (subset : ∀ key, ∀ bk ∈ s'.kvIndex.records key, bk ∈ s.kvIndex.records key) : s'.Settled := by
  refine ⟨by rw [current]; exact settled.nonneg,⟨valid,fun key bk member => ?_⟩⟩
  rw [current]
  exact settled.before.early key bk (subset key bk member)

theorem Job.Stepped.settled {job : Job} {s s' : KvStore} {next : Option Job} (stepped : Job.Stepped job s s' next)
    (settled : s.Settled) : s'.Settled := by
  cases stepped with
  | clone | indexed | failed => exact settled
  | visit at_ visited => exact settled.of_content rfl visited.valid fun key bk member => visited.records_subset member
  | batch => exact settled.of_content rfl settled.before.valid fun key bk member => member
  | store => exact settled.of_content rfl settled.before.valid fun key bk member => member

theorem KvStore.Settled.compact {s : KvStore} (settled : s.Settled) (rev : Int) : (s.compact rev).1.Settled := by
  rcases s.compact_eq rev with ⟨-,run⟩ | ⟨-,e,run⟩
  · rw [run]
    exact settled.of_content rfl settled.before.valid fun key bk member => member
  · rw [run]
    exact settled

namespace Sys

variable {jobs : List Job} {i : Nat} {s : Sys}

theorem mem_settle {s : KvStore} {job : Job} :
    job ∈ (settle s jobs).jobs ↔ ∃ old ∈ jobs, old.detach s.kvIndex = job := List.mem_map

theorem mem_of_mem_replaceJob {next : Option Job} {job : Job}
    (member : job ∈ replaceJob jobs i next) : job ∈ jobs ∨ next = some job := by
  cases next with
  | none => exact Or.inl (List.mem_of_mem_eraseIdx member)
  | some new =>
    rcases List.mem_or_eq_of_mem_set member with old | same
    · exact Or.inl old
    · exact Or.inr (by rw [same])

theorem compaction_of_advance {new : Job} (member : new ∈ (s.advance i).jobs) :
    ∃ old ∈ s.jobs, new.compaction = old.compaction := by
  cases at_ : s.jobs[i]? with
  | none =>
    rw [Sys.advance,at_] at member
    exact ⟨new,member,rfl⟩
  | some job =>
    rw [Sys.advance,at_] at member
    obtain ⟨left,inside,rfl⟩ := mem_settle.mp member
    rw [Job.detach_compaction]
    rcases mem_of_mem_replaceJob inside with old | next
    · exact ⟨left,old,rfl⟩
    · exact ⟨job,List.mem_of_getElem? at_,Job.step_compaction next⟩

theorem mem_replaceJob {stepping job : Job} (at_ : jobs[i]? = some stepping)
    (member : job ∈ jobs) (other : job ≠ stepping) (next : Option Job) : job ∈ replaceJob jobs i next := by
  obtain ⟨j,here⟩ := List.mem_iff_getElem?.mp member
  have different : i ≠ j := by
    rintro rfl
    rw [at_] at here
    exact other (Option.some.inj here).symm
  cases next with
  | none =>
    refine List.mem_eraseIdx_iff_getElem?.mpr ⟨j,different.symm,here⟩
  | some new =>
    refine List.mem_iff_getElem?.mpr ⟨j,?_⟩
    rw [replaceJob,List.getElem?_set_ne different]
    exact here

/-- The compacted revision that a restart would find. -/
def finished (s : Sys) : Int := s.store.backend.buckets.metadata.finishedCompactedRev.getD 0

/-- The running compactions all have one target, from which neither compacted revision is far ahead. -/
structure Ordered (s : Sys) : Prop where
  settled : s.store.Settled
  same : ∀ job ∈ s.jobs, ∀ other ∈ s.jobs, job.compaction.targetRev = other.compaction.targetRev
  above : ∀ job ∈ s.jobs, s.store.compactedMainRev ≤ job.compaction.targetRev ∧ s.finished ≤ job.compaction.targetRev
  persisted : s.finished ≤ s.store.compactedMainRev ∨
    ∃ job ∈ s.jobs, job.stage = .store ∧ s.finished = job.compaction.targetRev

/-- Neither compacted revision has gone down. -/
structure NotBelow (s s' : Sys) : Prop where
  compacted : s.store.compactedMainRev ≤ s'.store.compactedMainRev
  finished : s.finished ≤ s'.finished

theorem Ordered.txn (ordered : s.Ordered) (ops : List Op) :
    (s.step (.txn ops)).Ordered ∧ s.NotBelow (s.step (.txn ops)) := by
  obtain ⟨ws,committed⟩ := ordered.settled.committed ops
  have finished : (s.step (.txn ops)).finished = s.finished := by
    change Option.getD (s.store.txn ops).backend.buckets.metadata.finishedCompactedRev 0 = _
    rw [committed.finished]
    rfl
  have compacted : (s.step (.txn ops)).store.compactedMainRev = s.store.compactedMainRev := committed.compacted
  refine ⟨⟨committed.settled ordered.settled,?_,?_,?_⟩,⟨compacted.ge,finished.ge⟩⟩
  · intro job member other member'
    obtain ⟨old,inside,rfl⟩ := mem_settle.mp member
    obtain ⟨old',inside',rfl⟩ := mem_settle.mp member'
    rw [Job.detach_compaction,Job.detach_compaction]
    exact ordered.same old inside old' inside'
  · intro job member
    obtain ⟨old,inside,rfl⟩ := mem_settle.mp member
    rw [Job.detach_compaction,compacted,finished]
    exact ordered.above old inside
  · rw [compacted,finished]
    rcases ordered.persisted with done | ⟨job,inside,at_,same⟩
    · exact Or.inl done
    · refine Or.inr ⟨job.detach _,mem_settle.mpr ⟨job,inside,rfl⟩,?_,by rw [Job.detach_compaction]; exact same⟩
      rw [Job.detach,at_]
      exact at_

theorem Ordered.compact (ordered : s.Ordered) {rev : Int}
    (alone : s.store.Accepts rev → ∀ job ∈ s.jobs, job.compaction.targetRev = rev) :
    (s.compact rev).Ordered ∧ s.NotBelow (s.compact rev) := by
  rcases s.store.compact_eq rev with ⟨accepts_,run⟩ | ⟨-,e,run⟩
  · have shape : s.compact rev = ⟨{ s.store with backend := s.store.backend.commit [.putScheduledCompactedRev rev] },
        s.jobs ++ [⟨⟨rev,s.store.compactedMainRev⟩,.clone⟩]⟩ := by
      rw [Sys.compact,run]
    have target : ∀ job ∈ (s.compact rev).jobs, job.compaction.targetRev = rev := by
      rw [shape]
      intro job member
      rcases List.mem_append.mp member with old | new
      · exact alone accepts_ job old
      · rw [List.mem_singleton.mp new]
    have finished : (s.compact rev).finished = s.finished := by
      rw [shape]
      rfl
    have compacted : (s.compact rev).store.compactedMainRev = s.store.compactedMainRev := by rw [shape]
    have less : s.store.compactedMainRev < rev := accepts_.2.2
    have reached : s.finished ≤ rev := by
      rcases ordered.persisted with done | ⟨job,inside,-,same⟩
      · omega
      · rw [same,alone accepts_ job inside]
    refine ⟨⟨?_,?_,?_,?_⟩,⟨compacted.ge,finished.ge⟩⟩
    · have settled := ordered.settled.compact rev
      rw [run] at settled
      rw [shape]
      exact settled
    · intro job member other member'
      rw [target job member,target other member']
    · intro job member
      rw [target job member,finished,compacted]
      exact ⟨less.le,reached⟩
    · rw [finished,compacted]
      rcases ordered.persisted with done | ⟨job,inside,at_,same⟩
      · exact Or.inl done
      · refine Or.inr ⟨job,?_,at_,same⟩
        rw [shape]
        exact List.mem_append_left _ inside
  · have shape : s.compact rev = s := by rw [Sys.compact,run]
    rw [shape]
    exact ⟨ordered,le_rfl,le_rfl⟩

theorem Ordered.advance (ordered : s.Ordered) (i : Nat) :
    (s.advance i).Ordered ∧ s.NotBelow (s.advance i) := by
  cases at_ : s.jobs[i]? with
  | none =>
    have shape : s.advance i = s := by rw [Sys.advance,at_]
    rw [shape]
    exact ⟨ordered,le_rfl,le_rfl⟩
  | some job =>
    have shape : s.advance i = settle (job.step s.store).1 (replaceJob s.jobs i (job.step s.store).2) := by
      rw [Sys.advance,at_]
    have here : job ∈ s.jobs := List.mem_of_getElem? at_
    have stepped := job.step_cases ordered.settled.before.valid
    have targets : ∀ new ∈ (s.advance i).jobs, ∃ old ∈ s.jobs, new.compaction = old.compaction := fun _ => compaction_of_advance
    rw [shape] at targets ⊢
    generalize (job.step s.store).1 = store at stepped targets
    generalize (job.step s.store).2 = next at stepped targets
    have same : ∀ new ∈ (settle store (replaceJob s.jobs i next)).jobs,
        ∀ other ∈ (settle store (replaceJob s.jobs i next)).jobs,
          new.compaction.targetRev = other.compaction.targetRev := by
      intro new member other member'
      obtain ⟨old,inside,target⟩ := targets new member
      obtain ⟨old',inside',target'⟩ := targets other member'
      rw [target,target']
      exact ordered.same old inside old' inside'
    have settled : (settle store (replaceJob s.jobs i next)).store.Settled := stepped.settled ordered.settled
    have others : ∀ {other : Job}, other ∈ s.jobs → other.stage = .store → job.stage ≠ .store →
        ∃ left ∈ (settle store (replaceJob s.jobs i next)).jobs, left.stage = .store ∧
          left.compaction.targetRev = other.compaction.targetRev := by
      intro other member stage mine
      refine ⟨other.detach store.kvIndex,mem_settle.mpr ⟨other,?_,rfl⟩,?_,by rw [Job.detach_compaction]⟩
      · refine mem_replaceJob at_ member ?_ next
        rintro rfl
        exact mine stage
      · rw [Job.detach,stage]
        exact stage
    have persisted : job.stage ≠ .store → s.finished ≤ s.store.compactedMainRev ∨
        ∃ left ∈ (settle store (replaceJob s.jobs i next)).jobs, left.stage = .store ∧
          s.finished = left.compaction.targetRev := by
      intro mine
      rcases ordered.persisted with done | ⟨other,inside,stage,finished⟩
      · exact Or.inl done
      · obtain ⟨left,member,leftStage,target⟩ := others inside stage mine
        exact Or.inr ⟨left,member,leftStage,finished.trans target.symm⟩
    have above : ∀ new ∈ (settle store (replaceJob s.jobs i next)).jobs,
        s.store.compactedMainRev ≤ new.compaction.targetRev ∧ s.finished ≤ new.compaction.targetRev := by
      intro new member
      obtain ⟨old,inside,target⟩ := targets new member
      rw [target]
      exact ordered.above old inside
    cases stepped with
    | clone stage =>
      exact ⟨⟨settled,same,above,persisted (by rw [stage]; simp)⟩,le_rfl,le_rfl⟩
    | indexed stage =>
      exact ⟨⟨settled,same,above,persisted (by rw [stage]; simp)⟩,le_rfl,le_rfl⟩
    | failed stage =>
      exact ⟨⟨settled,same,above,persisted (by rw [stage]; simp)⟩,le_rfl,le_rfl⟩
    | visit stage =>
      exact ⟨⟨settled,same,above,persisted (by rw [stage]; simp)⟩,le_rfl,le_rfl⟩
    | store stage =>
      -- all targets are the one stored now
      have target : ∀ new ∈ s.jobs, new.compaction.targetRev = job.compaction.targetRev :=
        fun new member => ordered.same new member job here
      refine ⟨⟨settled,same,?_,?_⟩,(ordered.above job here).1,le_rfl⟩
      · intro new member
        obtain ⟨old,inside,isTarget⟩ := targets new member
        rw [isTarget,target old inside]
        exact ⟨le_rfl,(ordered.above job here).2⟩
      · exact Or.inl (ordered.above job here).2
    | @batch retain start b next stage pruned _ ended =>
      rcases ended with ⟨rfl,finished⟩ | ⟨-,finished⟩
      · have now : (settle { s.store with backend := b } (replaceJob s.jobs i (some ⟨job.compaction,.store⟩))).finished
            = job.compaction.targetRev := by
          change Option.getD b.buckets.metadata.finishedCompactedRev 0 = _
          rw [finished]
          rfl
        refine ⟨⟨settled,same,?_,?_⟩,le_rfl,by rw [now]; exact (ordered.above job here).2⟩
        · intro new member
          refine ⟨(above new member).1,?_⟩
          obtain ⟨old,inside,target⟩ := targets new member
          rw [now,target]
          exact (ordered.same job here old inside).le
        · rw [now]
          refine Or.inr ⟨⟨job.compaction,.store⟩,mem_settle.mpr ⟨⟨job.compaction,.store⟩,?_,rfl⟩,rfl,rfl⟩
          exact List.mem_set (List.getElem?_eq_some_iff.mp at_).1 _
      · have now : (settle { s.store with backend := b } (replaceJob s.jobs i (some ⟨job.compaction,next⟩))).finished
            = s.finished := by
          change Option.getD b.buckets.metadata.finishedCompactedRev 0 = _
          rw [finished]
          rfl
        refine ⟨⟨settled,same,?_,?_⟩,le_rfl,by rw [now]⟩
        · intro new member
          rw [now]
          exact above new member
        · rw [now]
          exact persisted (by rw [stage]; simp)

theorem Ordered.run (ordered : s.Ordered) {events : List SysEvent}
    (alone : s.EveryAccepted (fun s rev => ∀ job ∈ s.jobs, job.compaction.targetRev = rev) events) :
    (s.run events).Ordered ∧ s.NotBelow (s.run events) := by
  have trans : ∀ {a b c : Sys}, a.NotBelow b → b.NotBelow c → a.NotBelow c := fun first second =>
    ⟨first.compacted.trans second.compacted,first.finished.trans second.finished⟩
  refine run_invariant (P := fun t => t.Ordered ∧ s.NotBelow t) ?_ ?_ ?_ ⟨ordered,le_rfl,le_rfl⟩ alone
  · rintro t ops ⟨before,up⟩
    exact ⟨(before.txn ops).1,trans up (before.txn ops).2⟩
  · rintro t rev ⟨before,up⟩ alone
    exact ⟨(before.compact alone).1,trans up (before.compact alone).2⟩
  · rintro t i ⟨before,up⟩
    exact ⟨(before.advance i).1,trans up (before.advance i).2⟩

theorem Ordered.new : Sys.new.Ordered :=
  ⟨refines_empty.settled,by simp [Sys.new],by simp [Sys.new],Or.inl le_rfl⟩

/-- In every run in which no compaction is accepted beside one with another target, neither compacted revision ever goes
    down. -/
theorem compacted_revision_monotone (earlier later : List SysEvent)
    (alone : Sys.new.EveryAccepted (fun s rev => ∀ job ∈ s.jobs, job.compaction.targetRev = rev) (earlier ++ later)) :
    (Sys.new.run earlier).store.compactedMainRev ≤ (Sys.new.run (earlier ++ later)).store.compactedMainRev ∧
    (Sys.new.run earlier).finished ≤ (Sys.new.run (earlier ++ later)).finished := by
  obtain ⟨first,second⟩ := alone.append
  obtain ⟨ordered,-⟩ := Ordered.new.run first
  obtain ⟨-,up⟩ := ordered.run second
  rw [run_append]
  exact ⟨up.compacted,up.finished⟩

theorem compacted_revision_monotone_two_compactions :
    (Sys.new.run [.txn [.put [97] (some [1]) 0],.compact 1]).store.compactedMainRev ≤
      (Sys.new.run ([.txn [.put [97] (some [1]) 0],.compact 1] ++ [.advance 0,.advance 0,.advance 0,.advance 0,.advance 0,
        .txn [.put [97] (some [2]) 0],.compact 2,.advance 0])).store.compactedMainRev :=
  (compacted_revision_monotone [.txn [.put [97] (some [1]) 0],.compact 1] [.advance 0,.advance 0,.advance 0,.advance 0,
    .advance 0,.txn [.put [97] (some [2]) 0],.compact 2,.advance 0] (by decide)).1

/-- Two compactions accepted one after the other and ended in the same order: the second stores the lower target. -/
theorem compacted_revision_goes_down :
    (Sys.new.run [.txn [.put [97] (some [1]) 0],.txn [.put [97] (some [2]) 0],.compact 2,.compact 1,
      .advance 0,.advance 0,.advance 0,.advance 0,.advance 0]).store.compactedMainRev = 2 ∧
    (Sys.new.run [.txn [.put [97] (some [1]) 0],.txn [.put [97] (some [2]) 0],.compact 2,.compact 1,
      .advance 0,.advance 0,.advance 0,.advance 0,.advance 0]).finished = 2 ∧
    (Sys.new.run [.txn [.put [97] (some [1]) 0],.txn [.put [97] (some [2]) 0],.compact 2,.compact 1,
      .advance 0,.advance 0,.advance 0,.advance 0,.advance 0,
      .advance 0,.advance 0,.advance 0,.advance 0,.advance 0]).store.compactedMainRev = 1 ∧
    (Sys.new.run [.txn [.put [97] (some [1]) 0],.txn [.put [97] (some [2]) 0],.compact 2,.compact 1,
      .advance 0,.advance 0,.advance 0,.advance 0,.advance 0,
      .advance 0,.advance 0,.advance 0,.advance 0,.advance 0]).finished = 1 := by
  decide

end Sys

end Kave
