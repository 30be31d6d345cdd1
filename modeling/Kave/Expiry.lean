import Kave.Deadlines

/-! The expiry loop of a node. While a node leads, every tick of the loop drains the heap and proposes to expire what it
    has drained; the log goes on meanwhile, and the proposal may fail. -/

namespace Kave

open TreeIndex

/-! ### What an expiry does -/

/-- What a reader at the current revision learns of a key. -/
def KvStore.seen (s : KvStore) (key : Bytes) : Option (Int × Int × Int × Option Entry) := s.seenAt key s.currentRev.main

theorem KvStore.SameKv.seen {s s' : KvStore} (same : s.SameKv s') (key : Bytes) : s'.seen key = s.seen key := by
  change shown s'.content.kv (s'.content.index.look key s'.currentRev.main) = _
  rw [same.content,same.current]
  rfl

variable {keys : List Bytes} {key : Bytes}

theorem Chain.shown_other {next : Int} {n : Nat} {a b : Content} (positive : 0 < next)
    (chain : Chain next n a (keys.map .delete) b) (before : a.Before ⟨next,n⟩) (other : key ∉ keys) (r : Int) :
    shown b.kv (b.index.look key r) = shown a.kv (a.index.look key r) := by
  induction keys generalizing n a with
  | nil =>
    cases chain
    rfl
  | cons first rest ih =>
    rw [List.mem_cons,not_or] at other
    cases chain with
    | cons step chain =>
      rw [ih chain (step.before positive before) other.2]
      cases step with
      | delete alive wrote =>
        rw [wrote.look_other other.1]
        exact shown_insert before key r rfl _

theorem mem_of_liveOnce {alive : Bytes → Bool} (inside : key ∈ liveOnce alive keys) :
    key ∈ keys := by
  induction keys generalizing alive with
  | nil => cases inside
  | cons first rest ih =>
    rw [liveOnce] at inside
    split at inside
    · rcases List.mem_cons.mp inside with rfl | later
      · exact List.mem_cons_self
      · exact List.mem_cons_of_mem _ (ih later)
    · exact List.mem_cons_of_mem _ (ih inside)

theorem KvStore.Settled.seen_deleteKeys {s : KvStore} (settled : s.Settled) (other : key ∉ keys) :
    (s.txn (keys.map .deleteKey)).seen key = s.seen key := by
  obtain ⟨m,domain⟩ := s.content.exists_domain (s.currentRev.main + 1)
  have committed := settled.txn domain (keys.map .deleteKey)
  rw [opsWrites_deleteKeys] at committed
  have positive : 0 < s.currentRev.main + 1 := by have := settled.nonneg; omega
  have kept := fun r => committed.chain.shown_other positive settled.before (fun inside => other (mem_of_liveOnce inside)) r
  have now : s.kvIndex.look key s.currentRev.main = s.kvIndex.look key (s.currentRev.main + 1) := settled.fresh.look_start key
  have current := committed.current
  rw [seen]
  refine (kept _).trans ?_
  rw [current]
  split
  · rfl
  · rw [seen,KvStore.seenAt,now]
    rfl

/-- The entry that `tick` proposes. -/
def Log.expire (index term : Nat) (ids : List Int64) : Log := ⟨index,term,some (.full (.lease (.expire ids)))⟩

theorem Fsm.apply_expire {f : Fsm} (settled : f.store.Settled) (env : Env) {index : Nat} (new : f.store.applyIndex < index)
    (term : Nat) (ids : List Int64) :
    (∀ id, (f.apply env (.expire index term ids)).1.lm.find? id = if id ∈ ids then none else f.lm.find? id) ∧
      ∀ key, (∀ id ∈ ids, f.lm.attached id key = false) → (f.apply env (.expire index term ids)).1.store.seen key = f.store.seen key := by
  have known : (f.store.updateInmemRaftMeta index term).Settled := ⟨settled.nonneg,settled.before⟩
  have run := LeaseManager.applyExpired_eq known env f.lm ids
  have after : (f.apply env (.expire index term ids)).1 =
      { f with
        lm := (LeaseManager.collectExpired env ids f.lm [] 0).1
        store := (LeaseManager.removeFromBackend ((f.store.updateInmemRaftMeta index term).txn
          ((LeaseManager.collectExpired env ids f.lm [] 0).2.1.map .deleteKey)) ids).persistRaftMeta } := by
    rw [Fsm.apply,Log.expire,if_neg (not_le.mpr new)]
    simp only [Command.check,dispatch,applyLease,ofLease,run]
    rfl
  rw [after]
  refine ⟨LeaseManager.find_collectExpired env ids f.lm [] 0,fun key kept => ?_⟩
  have outside : key ∉ (LeaseManager.collectExpired env ids f.lm [] 0).2.1 := by
    rw [LeaseManager.collectExpired_keys,List.nil_append,LeaseManager.mem_expiredKeys]
    rintro ⟨id,listed,attached⟩
    rw [kept id listed] at attached
    cases attached
  rw [(KvStore.SameKv.persistRaftMeta _).seen,(KvStore.SameKv.removeFromBackend _ _).seen,known.seen_deleteKeys outside]
  exact (KvStore.SameKv.updateInmemRaftMeta f.store index term).seen key

theorem Fsm.isSome_find_of_renewed {f : Fsm} {env : Env} {index term : Nat} {id : Int64} {ttl : Int}
    (answered : (f.apply env ⟨index,term,some (.full (.lease (.keepAlive id)))⟩).2.2.answer = .leaseKeepAlive ttl id) :
    ((f.apply env ⟨index,term,some (.full (.lease (.keepAlive id)))⟩).1.lm.find? id).isSome := by
  unfold Fsm.apply at answered ⊢
  split at answered
  · cases answered
  next new =>
    rw [if_neg new]
    simp only [Command.check,dispatch,applyLease,ofLease,LeaseManager.keepAlive] at answered ⊢
    by_cases zero : id = 0
    · simp [zero,Except.mapError,Except.map] at answered
    · simp only [if_neg zero] at answered ⊢
      cases found : f.lm.find? id with
      | none => simp [found,Except.mapError,Except.map] at answered
      | some l =>
        have named : l.id = id := LeaseManager.id_of_find found
        simp [Except.mapError,Except.map,LeaseManager.find_save,named]

/-! ### A node -/

/-- A replica with its expiry loop. `inFlight` is what the tick that waits for its proposal has drained. -/
structure Node where
  replica : Replica
  inFlight : Option (List Int64)

inductive NodeEvent
  | apply (env : Env) (log : Log)
  | advance (i : Nat)
  | tick (now : Int)
  /-- The proposal is committed and applied. -/
  | succeed (env : Env) (term : Nat)
  /-- The proposal fails, which is only logged. -/
  | fail

namespace Node

def new (opts : OtOptions) (nodeID : String) : Node := ⟨Replica.new opts nodeID,none⟩

abbrev fsm (n : Node) : Fsm := n.replica.fsm

abbrev lm (n : Node) : LeaseManager := n.replica.fsm.lm

/-- The ids of what `DrainExpiredLeases` returns at a time. -/
def drained (n : Node) (now : Int) : List Int64 := (n.lm.drainExpiredLeases now).2

def step (n : Node) : NodeEvent → Node
  | .apply env log => { n with replica := n.replica.apply env log }
  | .advance i => { n with replica := n.replica.advance i }
  | .tick now =>
    match n.inFlight with
    | some _ => n
    | none =>
      ⟨⟨{ n.fsm with lm := (n.lm.drainExpiredLeases now).1 },n.replica.jobs⟩,
        if n.drained now = [] then none else some (n.drained now)⟩
  | .succeed env term =>
    match n.inFlight with
    | none => n
    | some ids => ⟨n.replica.apply env (.expire (n.fsm.store.applyIndex + 1) term ids),none⟩
  | .fail => { n with inFlight := none }

def run (n : Node) (events : List NodeEvent) : Node := events.foldl step n

/-- The command that the event applies. -/
def request? (n : Node) : NodeEvent → Option Request
  | .apply _ log => if n.fsm.store.applyIndex < log.index then log.request? else none
  | .succeed _ _ => n.inFlight.map fun ids => .lease (.expire ids)
  | _ => none

/-- Every event meets the condition in the state it finds. -/
def Meets (cond : Node → NodeEvent → Prop) : Node → List NodeEvent → Prop
  | _, [] => True
  | n, event :: rest => cond n event ∧ Meets cond (n.step event) rest

instance decidableMeets (cond : Node → NodeEvent → Prop) [∀ n event, Decidable (cond n event)] :
    (n : Node) → (events : List NodeEvent) → Decidable (Meets cond n events)
  | _, [] => isTrue trivial
  | n, event :: rest =>
    have := decidableMeets cond (n.step event) rest
    inferInstanceAs (Decidable (cond n event ∧ Meets cond (n.step event) rest))

theorem Meets.append {cond : Node → NodeEvent → Prop} {n : Node} {events more : List NodeEvent} (first : n.Meets cond events)
    (second : (n.run events).Meets cond more) : n.Meets cond (events ++ more) := by
  induction events generalizing n with
  | nil => exact second
  | cons event rest ih => exact ⟨first.1,ih first.2 second⟩

theorem run_invariant {cond : Node → NodeEvent → Prop} {P : Node → Prop}
    (keeps : ∀ n event, cond n event → P n → P (n.step event)) {n : Node} (start : P n) {events : List NodeEvent}
    (meets : n.Meets cond events) : P (n.run events) := by
  induction events generalizing n with
  | nil => exact start
  | cons event rest ih => exact ih (keeps n event meets.1 start) meets.2

theorem step_cases {n : Node} (orderly : n.fsm.store.Orderly) (event : NodeEvent) :
    (n.step event).lm = n.lm ∨ (∃ request, n.request? event = some request ∧ n.lm.Ticks (n.step event).lm request) ∨
      ∃ now, (n.step event).lm = (n.lm.drainExpiredLeases now).1 := by
  cases event with
  | apply env log =>
    rcases n.fsm.apply_ticks orderly env log with same | ⟨request,asked,new,ticks⟩
    · exact Or.inl (congrArg Fsm.lm same)
    · exact Or.inr (Or.inl ⟨request,by rw [request?,if_pos new,asked],ticks⟩)
  | advance i => exact Or.inl rfl
  | tick now =>
    rw [step]
    split
    · exact Or.inl rfl
    · exact Or.inr (Or.inr ⟨now,rfl⟩)
  | succeed env term =>
    rw [step,request?]
    cases n.inFlight with
    | none => exact Or.inl rfl
    | some ids =>
      rcases n.fsm.apply_ticks orderly env (.expire (n.fsm.store.applyIndex + 1) term ids) with same | ⟨request,asked,new,ticks⟩
      · exact Or.inl (congrArg Fsm.lm same)
      · exact Or.inr (Or.inl ⟨request,asked,ticks⟩)
  | fail => exact Or.inl rfl

theorem step_orderly {n : Node} (orderly : n.fsm.store.Orderly) (event : NodeEvent) : (n.step event).fsm.store.Orderly := by
  cases event with
  | apply env log => exact n.replica.step_orderly (.apply env log) orderly
  | advance i => exact n.replica.step_orderly (.advance i) orderly
  | tick now =>
    rw [step]
    split <;> exact orderly
  | succeed env term =>
    rw [step]
    split
    · exact orderly
    next ids _ => exact n.replica.step_orderly (.apply env (.expire (n.fsm.store.applyIndex + 1) term ids)) orderly
  | fail => exact orderly

/-- What holds of every node. -/
structure Sound (n : Node) : Prop where
  orderly : n.fsm.store.Orderly
  heaped : n.lm.Heaped

theorem Sound.new (opts : OtOptions) (nodeID : String) : (Node.new opts nodeID).Sound := ⟨KvStore.Orderly.new,LeaseManager.Heaped.new⟩

theorem Sound.step {n : Node} (sound : n.Sound) (event : NodeEvent) : (n.step event).Sound := by
  refine ⟨step_orderly sound.orderly event,?_⟩
  rcases step_cases sound.orderly event with same | ⟨request,-,ticks⟩ | ⟨now,drained⟩
  · rw [same]
    exact sound.heaped
  · exact ticks.heaped sound.heaped
  · rw [drained]
    exact sound.heaped.drain now

theorem Sound.run {n : Node} (sound : n.Sound) (events : List NodeEvent) : (n.run events).Sound := by
  induction events generalizing n with
  | nil => exact sound
  | cons event rest ih => exact ih (sound.step event)

end Node

/-! ### Old decisions -/

/-- The command removes the lease. -/
def Request.removes (id : Int64) : Request → Bool
  | .lease (.revoke id') => id' = id
  | .lease (.expire ids) => id ∈ ids
  | _ => false

namespace Node

/-- The event does not apply a command that removes the lease. -/
def Spares (id : Int64) (n : Node) (event : NodeEvent) : Prop := ∀ request ∈ n.request? event, request.removes id = false

instance (id : Int64) (n : Node) (event : NodeEvent) : Decidable (n.Spares id event) :=
  inferInstanceAs (Decidable (∀ request ∈ n.request? event, request.removes id = false))

theorem isSome_find_step {n : Node} (sound : n.Sound) {id : Int64} {event : NodeEvent} (spares : n.Spares id event)
    (there : (n.lm.find? id).isSome) : ((n.step event).lm.find? id).isSome := by
  rcases step_cases sound.orderly event with same | ⟨request,asked,ticks⟩ | ⟨now,drained⟩
  · rwa [same]
  · have kept := spares request asked
    generalize (n.step event).lm = lm' at ticks ⊢
    cases ticks with
    | same same => rwa [same.isSome_find]
    | @granted id' ttl l named nonzero positive new after =>
      subst after
      rw [LeaseManager.find_pushToHeap,LeaseManager.find_save]
      split
      · rfl
      · exact there
    | renewed named old after =>
      subst named after
      rwa [LeaseManager.isSome_find_renewed old]
    | @revoked id' l named old after =>
      subst named after
      have other : id ≠ l.id := fun same => (of_decide_eq_false kept) same.symm
      rwa [LeaseManager.find_revoked, if_neg (by simpa using other)]
    | expired removed =>
      rwa [removed, if_neg (of_decide_eq_false kept)]
  · rwa [drained, LeaseManager.find_drain]

theorem isSome_find_run {n : Node} (sound : n.Sound) {id : Int64} {events : List NodeEvent} (spares : n.Meets (Spares id) events)
    (there : (n.lm.find? id).isSome) : ((n.run events).lm.find? id).isSome :=
  (run_invariant (P := fun n => n.Sound ∧ (n.lm.find? id).isSome)
    (fun _ event spares kept => ⟨kept.1.step event,isSome_find_step kept.1 spares kept.2⟩) ⟨sound,there⟩ spares).2

end Node

/-- If no deadline of the lease in the heap of the leader is over at a drain, the expiry proposed for it leaves the lease
    alone, on any node that has renewed it meanwhile; and its keys as well, if none is in the set of a lease that is
    expired. -/
theorem renewed_lease_outlives_old_decision (opts : OtOptions) (leaderID nodeID : String) (leader before after : List NodeEvent)
    (now : Int) (id : Int64) (ttl : Int) (env env' : Env) (index term index' term' : Nat) :
    let decided := (Node.new opts leaderID).run leader
    let n := (Node.new opts nodeID).run before
    let renewal : Log := ⟨index,term,some (.full (.lease (.keepAlive id)))⟩
    let n' := (n.step (.apply env renewal)).run after
    let f := (n'.fsm.apply env' (.expire index' term' (decided.drained now))).1
    (∀ item ∈ decided.lm.heap, item.lease = id → now ≤ item.expiry) →
    (n.fsm.apply env renewal).2.2.answer = .leaseKeepAlive ttl id →
    (n.step (.apply env renewal)).Meets (Node.Spares id) after →
    (∀ other ∈ decided.drained now, ∀ key, n'.lm.attached id key = true → n'.lm.attached other key = false) →
    (n'.lm.find? id).isSome ∧ f.lm.find? id = n'.lm.find? id ∧
      ∀ key, n'.lm.attached id key = true → f.store.seen key = n'.fsm.store.seen key := by
  intro decided n renewal n' f ahead answered spared apart
  have sound : (n.step (.apply env renewal)).Sound := ((Node.Sound.new opts nodeID).run before).step _
  have there : (n'.lm.find? id).isSome := Node.isSome_find_run sound spared (Fsm.isSome_find_of_renewed answered)
  refine ⟨there,?_⟩
  have kept : id ∉ decided.drained now := by
    intro inside
    obtain ⟨r,e,member,due⟩ := LeaseManager.due_of_drained inside
    obtain ⟨item,inHeap,core⟩ := List.mem_map.mp member
    have later := ahead item inHeap (congrArg (·.2.1) core)
    rw [show item.expiry = e from congrArg (·.2.2) core] at later
    omega
  by_cases new : n'.fsm.store.applyIndex < index'
  · obtain ⟨leases,keys⟩ := Fsm.apply_expire (sound.run after).orderly.settled env' new term' (decided.drained now)
    exact ⟨(leases id).trans (if_neg kept),fun key attached => keys key fun other inside => apart other inside key attached⟩
  · have same : f = n'.fsm := by
      change ((n'.fsm).apply env' (.expire index' term' (decided.drained now))).1 = _
      rw [Fsm.apply, Log.expire, if_pos (not_lt.mp new)]
    rw [same]
    exact ⟨rfl,fun _ _ => rfl⟩

/-- Lease 7 is drained and expired; lease 8, renewed while the proposal is in flight, stays with its key. -/
theorem renewed_lease_outlives_old_decision_of_other :
    let leader : List NodeEvent := [.apply (.plain 0) (.plain 1 (.lease (.grant 7 1))),
      .apply (.plain 0) (.plain 2 (.lease (.grant 8 10))),
      .apply (.plain 0) (.plain 3 (.kv (.put (.plain [97] [1] 8))))]
    let before := leader ++ [.tick 2000000000]
    let decided := (Node.new defaultOtOptions "a").run leader
    let n := (Node.new defaultOtOptions "a").run before
    let renewal : Log := .plain 4 (.lease (.keepAlive 8))
    let n' := (n.step (.apply (.plain 2000000000) renewal)).run []
    let f := (n'.fsm.apply (.plain 2000000000) (.expire 5 1 (decided.drained 2000000000))).1
    decided.drained 2000000000 = [7] ∧ f.lm.find? 8 = n'.lm.find? 8 ∧ f.store.seen [97] = n'.fsm.store.seen [97] := by
  intro leader before decided n renewal n' f
  have drained : decided.drained 2000000000 = [7] := by decide
  have attachments : n'.lm.attachments = [(8,[97])] := by decide
  have attached : n'.lm.attached 8 [97] = true :=
    LeaseManager.mem_attachments.mp (by rw [attachments]; exact List.mem_singleton_self _)
  have apart : ∀ other ∈ decided.drained 2000000000, ∀ key, n'.lm.attached 8 key = true → n'.lm.attached other key = false := by
    intro other inside key _
    rw [drained, List.mem_singleton] at inside
    by_contra also
    rw [Bool.not_eq_false, ← LeaseManager.mem_attachments, attachments, inside] at also
    simp at also
  have kept := renewed_lease_outlives_old_decision defaultOtOptions "a" "a" leader before [] 2000000000 8 10 (.plain 2000000000)
    (.plain 2000000000) 4 1 5 1 (by decide) (by decide) (by decide) apart
  exact ⟨drained,kept.2.1,kept.2.2 [97] attached⟩

/-- The lease is drained, then renewed for ten more seconds, then expired with its key. -/
theorem renewed_lease_is_expired :
    let n := (Node.new defaultOtOptions "a").run [.apply (.plain 0) (.plain 1 (.lease (.grant 7 10))),
      .apply (.plain 0) (.plain 2 (.kv (.put (.plain [97] [1] 7)))), .tick 11000000000]
    let renewal : Log := .plain 3 (.lease (.keepAlive 7))
    let n' := n.step (.apply (.plain 11000000000) renewal)
    let n'' := n'.step (.succeed (.plain 12000000000) 1)
    n.inFlight = some [7] ∧ (n.fsm.apply (.plain 11000000000) renewal).2.2.answer = .leaseKeepAlive 10 7 ∧
      (n'.lm.find? 7).map (·.expiry) = some 21000000000 ∧ (n'.fsm.store.seen [97]).isSome = true ∧
      (n''.lm.find? 7).isNone = true ∧ n''.fsm.store.seen [97] = none := by
  decide

/-! ### Old deadlines -/

/-- The command of the event does not grant a lease of which the heap still has an item. -/
def Node.Clear (n : Node) (event : NodeEvent) : Prop := ∀ request ∈ n.request? event, n.lm.clear request = true

instance (n : Node) (event : NodeEvent) : Decidable (n.Clear event) :=
  inferInstanceAs (Decidable (∀ request ∈ n.request? event, n.lm.clear request = true))

theorem Node.sole_step {n : Node} (sound : n.Sound) {event : NodeEvent} (clear : n.Clear event) (sole : n.lm.Sole) :
    (n.step event).lm.Sole := by
  rcases step_cases sound.orderly event with same | ⟨request,asked,ticks⟩ | ⟨now,drained⟩
  · rwa [same]
  · exact ticks.sole sound.heaped (clear request asked) sole
  · rw [drained]
    exact sole.drain sound.heaped now

/-- In a run in which no id is granted while the heap of the node still has an item of it, a drain returns no lease that
    is there before its own deadline. -/
theorem drained_leases_are_overdue (opts : OtOptions) (nodeID : String) (events : List NodeEvent)
    (clear : (Node.new opts nodeID).Meets Node.Clear events) (now : Int) :
    let n := (Node.new opts nodeID).run events
    ∀ id ∈ n.drained now, ∀ l, n.lm.find? id = some l → l.expiry < now := by
  intro n id drained l found
  have start : (Node.new opts nodeID).Sound ∧ (Node.new opts nodeID).lm.Sole :=
    ⟨.new opts nodeID,fun x inside => by cases inside⟩
  obtain ⟨sound,sole⟩ := Node.run_invariant (P := fun n => n.Sound ∧ n.lm.Sole)
    (fun _ event clear kept => ⟨kept.1.step event,Node.sole_step kept.1 clear kept.2⟩) start clear
  exact sole.overdue sound.heaped drained found

/-- The leader has drained the lease, so that its id can be granted again. -/
theorem drained_leases_are_overdue_regranted :
    let events : List NodeEvent := [.apply (.plain 0) (.plain 1 (.lease (.grant 7 1))), .tick 2000000000,
      .succeed (.plain 2000000000) 1, .apply (.plain 2000000000) (.plain 3 (.lease (.grant 7 5)))]
    let n := (Node.new defaultOtOptions "a").run events
    n.drained 8000000000 = [7] ∧ ∀ l, n.lm.find? 7 = some l → l.expiry < 8000000000 := by
  intro events n
  have drained : n.drained 8000000000 = [7] := by decide
  exact ⟨drained,drained_leases_are_overdue defaultOtOptions "a" events (by decide) 8000000000 7 (by rw [drained]; simp)⟩

/-- A follower keeps the item of the expired lease. When the id is granted again and the follower leads, the new lease is
    drained long before its deadline. -/
theorem follower_drains_regranted_lease :
    let granted : List NodeEvent := [.apply (.plain 0) (.plain 1 (.lease (.grant 7 1)))]
    let decided := ((Node.new defaultOtOptions "a").run granted).drained 2000000000
    let follower := (Node.new defaultOtOptions "b").run (granted ++
      [.apply (.plain 2000000000) (.expire 2 1 decided), .apply (.plain 2000000000) (.plain 3 (.lease (.grant 7 100)))])
    decided = [7] ∧ (follower.lm.find? 7).map (·.expiry) = some 102000000000 ∧ follower.drained 3000000000 = [7] := by
  decide

/-! ### Lost leases -/

/-- A lease of a failing proposal that is still there has an entry in the map of items, which a grant makes. -/
def Node.Restored (n : Node) : NodeEvent → Prop
  | .fail => ∀ ids ∈ n.inFlight, ∀ id ∈ ids, (n.lm.find? id).isNone = true ∨ (n.lm.heapMap.find? (leaseBucketKey id)).isSome = true
  | _ => True

instance (n : Node) : (event : NodeEvent) → Decidable (n.Restored event)
  | .fail => by unfold Node.Restored; infer_instance
  | .apply _ _ => isTrue trivial
  | .advance _ => isTrue trivial
  | .tick _ => isTrue trivial
  | .succeed _ _ => isTrue trivial

/-- Every lease has an entry in the map of items or is in flight. -/
def Node.Kept (n : Node) : Prop := n.lm.Mapped (n.inFlight.getD [])

theorem Node.kept_step {n : Node} (sound : n.Sound) {event : NodeEvent} (restored : n.Restored event) (kept : n.Kept) :
    (n.step event).Kept := by
  cases event with
  | apply env log =>
    rcases n.fsm.apply_ticks sound.orderly env log with same | ⟨request,-,-,ticks⟩
    · change (n.fsm.apply env log).1.lm.Mapped _
      rw [same]
      exact kept
    · exact ticks.mapped kept
  | advance i => exact kept
  | tick now =>
    rw [Kept] at kept
    rw [Kept,step]
    cases flying : n.inFlight with
    | some ids =>
      simp only
      rwa [flying] at kept ⊢
    | none =>
      rw [flying] at kept
      have after : (if n.drained now = [] then none else some (n.drained now)).getD [] = n.drained now := by
        split
        next none => exact none.symm
        next => rfl
      simp only
      rw [after]
      exact LeaseManager.Mapped.drain kept now
  | succeed env term =>
    rw [Kept] at kept
    rw [Kept,step]
    cases flying : n.inFlight with
    | none =>
      simp only
      rwa [flying] at kept ⊢
    | some ids =>
      rw [flying] at kept
      intro id there
      -- all that was in flight has left the lease map
      obtain ⟨leases,-⟩ := Fsm.apply_expire sound.orderly.settled env (Nat.lt_succ_self n.fsm.store.applyIndex) term ids
      obtain ⟨outside,-⟩ := LeaseManager.isSome_find_removed leases there
      have mapped : (n.fsm.apply env (.expire (n.fsm.store.applyIndex + 1) term ids)).1.lm.Mapped ids := by
        rcases n.fsm.apply_ticks sound.orderly env (.expire (n.fsm.store.applyIndex + 1) term ids) with same | ⟨request,-,-,ticks⟩
        · rw [same]
          exact kept
        · exact ticks.mapped kept
      rcases mapped id there with inside | present
      · exact absurd inside outside
      · exact Or.inr present
  | fail =>
    intro id there
    change (n.lm.find? id).isSome = true at there
    rcases kept id there with inside | present
    · cases flying : n.inFlight with
      | none =>
        rw [flying] at inside
        cases inside
      | some ids =>
        rw [flying] at inside
        rcases restored ids flying id inside with gone | present
        · rw [← Option.not_isSome,there] at gone
          cases gone
        · exact Or.inr present
    · exact Or.inr present

/-- In a run in which no proposal fails while a lease it names is there without an entry in the map of items, every lease
    is in the heap with its deadline whenever no proposal is in flight. -/
theorem leases_stay_in_heap (opts : OtOptions) (nodeID : String) (events : List NodeEvent)
    (restored : (Node.new opts nodeID).Meets Node.Restored events) :
    let n := (Node.new opts nodeID).run events
    n.inFlight = none → ∀ id l, n.lm.find? id = some l → ∃ item ∈ n.lm.heap, item.lease = id ∧ item.expiry = l.expiry := by
  intro n idle id l found
  have start : (Node.new opts nodeID).Sound ∧ (Node.new opts nodeID).Kept := ⟨.new opts nodeID,fun id there => by cases there⟩
  obtain ⟨sound,kept⟩ := Node.run_invariant (P := fun n => n.Sound ∧ n.Kept)
    (fun _ event restored kept => ⟨kept.1.step event,Node.kept_step kept.1 restored kept.2⟩) start restored
  rw [Node.Kept, idle] at kept
  exact LeaseManager.Mapped.inHeap kept sound.heaped found

/-- The proposal fails when the lease it names has been revoked. -/
theorem leases_stay_in_heap_revoked :
    let revoked : List NodeEvent := [.apply (.plain 0) (.plain 1 (.lease (.grant 7 1))),
      .apply (.plain 0) (.plain 2 (.lease (.grant 8 9))), .tick 2000000000,
      .apply (.plain 2000000000) (.plain 3 (.lease (.revoke 7)))]
    let n := (Node.new defaultOtOptions "a").run (revoked ++ [.fail])
    ((Node.new defaultOtOptions "a").run revoked).inFlight = some [7] ∧
      ∀ l, n.lm.find? 8 = some l → ∃ item ∈ n.lm.heap, item.lease = 8 ∧ item.expiry = l.expiry := by
  intro revoked n
  have flying : ((Node.new defaultOtOptions "a").run revoked).inFlight = some [7] := by decide
  have gone : (((Node.new defaultOtOptions "a").run revoked).lm.find? 7).isNone = true := by decide
  have early : (Node.new defaultOtOptions "a").Meets Node.Restored revoked := by decide
  have last : ((Node.new defaultOtOptions "a").run revoked).Meets Node.Restored [.fail] := by
    refine ⟨?_,trivial⟩
    intro ids inFlight id inside
    rw [flying, Option.mem_some] at inFlight
    rw [← inFlight, List.mem_singleton] at inside
    rw [inside]
    exact Or.inl gone
  have idle : ((Node.new defaultOtOptions "a").run (revoked ++ [.fail])).inFlight = none := by
    rw [Node.run, List.foldl_append]
    rfl
  have kept := leases_stay_in_heap defaultOtOptions "a" (revoked ++ [.fail]) (early.append last)
  exact ⟨flying,kept idle 8⟩

/-- The proposal fails: the lease stays in the map and the heap is empty, also after a renewal. -/
theorem failed_proposal_loses_lease :
    let n := (Node.new defaultOtOptions "a").run [.apply (.plain 0) (.plain 1 (.lease (.grant 7 1))),
      .tick 2000000000, .fail, .apply (.plain 2000000000) (.plain 2 (.lease (.keepAlive 7)))]
    n.inFlight = none ∧ (n.lm.find? 7).isSome = true ∧ n.lm.heap = [] := by
  decide

end Kave
