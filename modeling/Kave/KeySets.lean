import Kave.Attachment

/-! Key sets over whole logs: whether the keys in the set of a lease are keys of that lease, and whether a key put under a
    lease is in its set. -/

namespace Kave

open TreeIndex

namespace Fsm

def applyAll (f : Fsm) (entries : List (Env × Log)) : Fsm := entries.foldl (fun f e => (f.apply e.1 e.2).1) f

theorem applyAll_invariant {P : Fsm → Prop} (keeps : ∀ f env log, P f → P (f.apply env log).1) {f : Fsm} (start : P f)
    (entries : List (Env × Log)) : P (f.applyAll entries) := by
  induction entries generalizing f with
  | nil => exact start
  | cons e rest ih => exact ih (keeps f e.1 e.2 start)

theorem applyAll_current {f : Fsm} {m : KvMap} {entries : List (Env × Log)} (uncompacted : ∀ e ∈ entries, e.2.Uncompacted)
    (current : f.store.Current m) : ∃ m', (f.applyAll entries).store.Current m' := by
  induction entries generalizing f m with
  | nil => exact ⟨m,current⟩
  | cons e rest ih =>
    obtain ⟨mine,uncompacted⟩ := List.forall_mem_cons.mp uncompacted
    rcases apply_moves current e.1 mine with same | ⟨request,m',-,-,-,after⟩
    · change ∃ m', ((f.apply e.1 e.2).1.applyAll rest).store.Current m'
      rw [same]
      exact ih uncompacted current
    · exact ih uncompacted after

/-- Every command of the log that is applied meets the condition in the state it finds. -/
def Meets (cond : Fsm → Request → Prop) : Fsm → List (Env × Log) → Prop
  | _, [] => True
  | f, e :: rest => (f.store.applyIndex < e.2.index → ∀ request ∈ e.2.request?, cond f request) ∧
      Meets cond (f.apply e.1 e.2).1 rest

instance decidableMeets (cond : Fsm → Request → Prop) [∀ f request, Decidable (cond f request)] :
    (f : Fsm) → (entries : List (Env × Log)) → Decidable (Meets cond f entries)
  | _, [] => isTrue trivial
  | f, e :: rest =>
    have := decidableMeets cond (f.apply e.1 e.2).1 rest
    inferInstanceAs (Decidable ((f.store.applyIndex < e.2.index → ∀ request ∈ e.2.request?, cond f request) ∧
      Meets cond (f.apply e.1 e.2).1 rest))

/-! ### The keys in a key set -/

/-- The keys in the sets are alive and have the lease. -/
structure Owned (lm : LeaseManager) (m : KvMap) : Prop where
  nonzero : lm.find? 0 = none
  owns : ∀ id key, lm.attached id key = true → ∃ item, m.find? key = some item ∧ item.leaseID = id

/-- The command takes every key out of the sets that it deletes or moves to another lease, and puts it into no set but
    that of its lease. A put that keeps the lease of the entry names this lease or one that does not exist, a deletion of
    attached keys lists what it deletes, and the last write of an attached key in a transaction is a put under its
    lease. -/
def Detaches (f : Fsm) : Request → Prop
  | .kv (.put cmd) => cmd.ignoreLease = true → ∀ prev ∈ f.store.newWriter.get cmd.key 0,
      prev.leaseID = 0 ∨ prev.leaseID = cmd.leaseID ∨ (f.lm.find? cmd.leaseID).isNone = true
  | .kv (.delete cmd) => cmd.prevEntries = true ∨ ∀ a ∈ f.lm.attachments, rangeSelects cmd.key cmd.endKey a.2 = false
  | .kv (.txn cmd) => (∀ op ∈ Engine.branch f.store.newWriter cmd, op.runs f.store = true) →
      ∀ a ∈ f.lm.attachments, lastWrite a.2 (Engine.calls f.store.newWriter (.txn cmd)) = none ∨
        lastWrite a.2 (Engine.calls f.store.newWriter (.txn cmd)) = some (some a.1)
  | _ => True

instance (f : Fsm) : (request : Request) → Decidable (f.Detaches request)
  | .kv (.put _) => by unfold Detaches; infer_instance
  | .kv (.delete _) => by unfold Detaches; infer_instance
  | .kv (.txn _) => by unfold Detaches; infer_instance
  | .lease _ => isTrue trivial
  | .compaction _ => isTrue trivial
  | .ot _ => isTrue trivial

variable {f g : Fsm} {m m' : KvMap} {request : Request}

private theorem Owned.ne_zero {lm : LeaseManager} {id : Int64} (nonzero : lm.find? 0 = none) (there : (lm.find? id).isSome = true) :
    id ≠ 0 := by
  rintro rfl
  rw [nonzero] at there
  cases there

theorem Moves.nonzero (moves : Moves f g m request m') (nonzero : f.lm.find? 0 = none) : g.lm.find? 0 = none := by
  have gone : ∀ {lm : LeaseManager}, (lm.find? 0).isSome = (f.lm.find? 0).isSome → lm.find? 0 = none := by
    intro lm same
    rw [nonzero] at same
    exact Option.not_isSome_iff_eq_none.mp (by rw [same]; simp)
  cases moves with
  | idle same => exact gone (same.isSome_find 0)
  | put found lm =>
    rw [lm]
    exact gone (Engine.isSome_find_putLeases _ _ _ 0)
  | delete lm =>
    rw [lm]
    exact gone (LeaseManager.isSome_find_detachAll _ _ 0)
  | txn runs lm => rw [lm,nonzero]
  | grant notZero new empty lm => rw [lm,if_neg (Ne.symm notZero),nonzero]
  | remove lm keys => rw [lm,nonzero,ite_self]

theorem Moves.owned (moves : Moves f g m request m') (current : f.store.Current m) (detaches : f.Detaches request)
    (owned : Owned f.lm m) : Owned g.lm m' := by
  refine ⟨moves.nonzero owned.nonzero,fun id key attached => ?_⟩
  cases moves with
  | idle same =>
    rw [same.attached] at attached
    exact owned.owns id key attached
  | @put cmd value found lm =>
    rw [lm,Engine.attached_putLeases] at attached
    rw [KvMap.put,SortedMap.find_insert]
    rcases attached with ⟨leased,there,rfl,rfl⟩ | ⟨attached,stays⟩
    · refine ⟨_,if_pos rfl,?_⟩
      change Engine.storedLease _ cmd = cmd.leaseID
      rw [Engine.storedLease] at leased ⊢
      by_cases kept : cmd.ignoreLease = true
      · cases prev : f.store.newWriter.get cmd.key 0 with
        | none => exact absurd ⟨prev,kept⟩ found
        | some entry =>
          rw [prev,if_pos kept] at leased
          rw [if_pos kept]
          rcases detaches kept entry prev with none | same | none
          · exact absurd none leased
          · exact same
          · rw [← Option.not_isSome,there] at none
            cases none
      · rw [if_neg kept]
    · obtain ⟨item,live,rfl⟩ := owned.owns id key attached
      by_cases same : key = cmd.key
      · -- the entry that is replaced has the lease of the set, which the key stays in only if the new one has it too
        subst same
        refine ⟨_,if_pos rfl,?_⟩
        change Engine.storedLease _ cmd = item.leaseID
        rw [current.holds.get_of_live live] at stays ⊢
        have leased := Owned.ne_zero owned.nonzero (LeaseManager.isSome_of_attached attached)
        by_contra different
        exact stays ⟨leased,Ne.symm different,rfl,rfl⟩
      · exact ⟨item,by rw [if_neg same,live],rfl⟩
  | @delete cmd lm =>
    rw [lm,LeaseManager.attached_detachAll,Bool.and_eq_true,Bool.not_eq_true',List.any_eq_false] at attached
    obtain ⟨attached,unlisted⟩ := attached
    obtain ⟨item,live,rfl⟩ := owned.owns id key attached
    have leased := Owned.ne_zero owned.nonzero (LeaseManager.isSome_of_attached attached)
    have stays : rangeSelects cmd.key cmd.endKey key = false := by
      rcases detaches with lists | none
      · by_contra selected
        have member : item.entry key ∈ f.store.listed cmd :=
          current.holds.mem_listed.mpr ⟨lists,item,live,rfl,reads_of_rangeSelects (Bool.not_eq_false _ ▸ selected)⟩
        exact unlisted _ member (decide_eq_true ⟨leased,rfl,rfl⟩)
      · exact none (item.leaseID,key) (LeaseManager.mem_attachments.mpr attached)
    refine ⟨item,?_,rfl⟩
    rw [SortedMap.find_filter,live,stays]
    rfl
  | @txn cmd runs lm =>
    rw [lm] at attached
    have after := KvMap.find_applyOps (f.store.currentRev.main + 1) m (Engine.calls f.store.newWriter (.txn cmd)) key
    rcases detaches runs (id,key) (LeaseManager.mem_attachments.mpr attached) with none | put
    · rw [none] at after
      rw [after]
      exact owned.owns id key attached
    · rw [put] at after
      exact after
  | @grant new ttl l notZero fresh empty lm =>
    rw [LeaseManager.attached,lm] at attached
    by_cases same : id = new
    · rw [if_pos same,Option.any_some,empty] at attached
      cases attached
    · rw [if_neg same] at attached
      exact owned.owns id key attached
  | @remove request ids keys lm listed =>
    rw [LeaseManager.attached_of_removed lm,Bool.and_eq_true,decide_eq_true_eq] at attached
    obtain ⟨stays,attached⟩ := attached
    obtain ⟨item,live,rfl⟩ := owned.owns id key attached
    have kept : key ∉ keys := by
      intro inside
      obtain ⟨other,removed,also⟩ := (listed key).mp inside
      obtain ⟨item',live',rfl⟩ := owned.owns other key also
      rw [live] at live'
      cases live'
      exact stays removed
    exact ⟨item,by rw [SortedMap.find_foldl_erase,if_neg kept,live],rfl⟩

theorem applyAll_owned {entries : List (Env × Log)} (uncompacted : ∀ e ∈ entries, e.2.Uncompacted)
    (current : f.store.Current m) (owned : Owned f.lm m) (meets : Meets Detaches f entries) :
    ∃ m', (f.applyAll entries).store.Current m' ∧ Owned (f.applyAll entries).lm m' := by
  induction entries generalizing f m with
  | nil => exact ⟨m,current,owned⟩
  | cons e rest ih =>
    obtain ⟨here,others⟩ := meets
    obtain ⟨mine,uncompacted⟩ := List.forall_mem_cons.mp uncompacted
    rcases apply_moves current e.1 mine with same | ⟨request,m',asked,new,moves,after⟩
    · change ∃ m', ((f.apply e.1 e.2).1.applyAll rest).store.Current m' ∧ Owned ((f.apply e.1 e.2).1.applyAll rest).lm m'
      rw [same] at others ⊢
      exact ih uncompacted current owned others
    · exact ih uncompacted after (moves.owned current (here new request asked) owned) others

end Fsm

/-- In a log of which every command meets the condition, the keys in the set of a lease are always alive and have the
    lease. -/
theorem key_sets_hold_own_keys (opts : OtOptions) (nodeID : String) (entries : List (Env × Log))
    (uncompacted : ∀ e ∈ entries, e.2.Uncompacted) (meets : (Fsm.new opts nodeID).Meets Fsm.Detaches entries) :
    let f := (Fsm.new opts nodeID).applyAll entries
    ∀ id key, f.lm.attached id key = true → ∃ e, f.store.entryOf key = some e ∧ e.leaseID = id := by
  intro f id key attached
  have start : Fsm.Owned (Fsm.new opts nodeID).lm SortedMap.empty := ⟨rfl,fun id key attached => by cases attached⟩
  obtain ⟨m,current,owned⟩ := Fsm.applyAll_owned uncompacted KvStore.Current.new start meets
  obtain ⟨item,live,leased⟩ := owned.owns id key attached
  exact ⟨item.entry key,by rw [current.holds.entryOf_eq, live]; rfl,leased⟩

/-- The key moves from one lease to another, is put again by a transaction, and is renewed with its lease kept. -/
theorem key_sets_hold_own_keys_moved :
    let entries : List (Env × Log) := [(.plain 0,.plain 1 (.lease (.grant 7 10))),
      (.plain 0,.plain 2 (.lease (.grant 8 10))),
      (.plain 0,.plain 3 (.kv (.put (.plain [97] [1] 7)))),
      (.plain 0,.plain 4 (.kv (.put (.plain [97] [2] 8)))),
      (.plain 0,.plain 5 (.kv (.txn ⟨[],[.put (some (.plain [97] [3] 8))],[]⟩))),
      (.plain 0,.plain 6 (.kv (.put ⟨[97],some [4],0,false,false,true⟩)))]
    let f := (Fsm.new defaultOtOptions "a").applyAll entries
    f.lm.attached 8 [97] = true ∧ ∃ e, f.store.entryOf [97] = some e ∧ e.leaseID = 8 := by
  intro entries f
  have attached : f.lm.attached 8 [97] = true := by decide
  exact ⟨attached,key_sets_hold_own_keys defaultOtOptions "a" entries (by decide) (by decide) 8 [97] attached⟩

/-- A deletion that does not list what it deletes leaves the key in the set: put again without a lease, it is deleted
    when the lease is revoked. -/
theorem revoked_lease_deletes_foreign_key :
    let f := (Fsm.new defaultOtOptions "a").applyAll [(.plain 0,.plain 1 (.lease (.grant 7 10))),
      (.plain 0,.plain 2 (.kv (.put (.plain [97] [1] 7)))),
      (.plain 0,.plain 3 (.kv (.delete ⟨[97],none,false⟩))),
      (.plain 0,.plain 4 (.kv (.put (.plain [97] [2] 0))))]
    f.lm.attached 7 [97] = true ∧ (f.store.entryOf [97]).map (·.leaseID) = some 0 ∧
      ((f.apply (.plain 0) (.plain 5 (.lease (.revoke 7)))).1.store.entryOf [97]) = none := by
  decide

/-! ### The keys put under a lease -/

namespace Fsm

/-- What a step from `f` to `g` makes of the pairs of a lease and a key last written under it while it was there. Every
    write of a key changes its entry. -/
def rebind (f g : Fsm) (bound : Int64 → Bytes → Bool) (id : Int64) (key : Bytes) : Bool :=
  (g.lm.find? id).isSome &&
    match g.store.entryOf key with
    | none => false
    | some entry =>
      if f.store.entryOf key = some entry then bound id key else (f.lm.find? id).isSome && decide (entry.leaseID = id)

def boundAfter : Fsm → List (Env × Log) → (Int64 → Bytes → Bool) → Int64 → Bytes → Bool
  | _, [], bound => bound
  | f, e :: rest, bound => boundAfter (f.apply e.1 e.2).1 rest (f.rebind (f.apply e.1 e.2).1 bound)

/-- The put is not the last write of its key in the transaction, or its lease is not there or has the key already. -/
def registered (lm : LeaseManager) (ops : List Op) : Op → Bool
  | .put key _ id => lastWrite key ops ≠ some (some id) || (lm.find? id).isNone || lm.attached id key
  | _ => true

/-- The command attaches every key it puts under a lease, and takes no other key out of a set. A put that keeps a lease
    names it or finds the key in its set, a deletion lists only what it deletes, and a transaction puts keys only under
    leases that have them already. -/
def Attaches (f : Fsm) : Request → Prop
  | .kv (.put cmd) => cmd.ignoreLease = true → ∀ prev ∈ f.store.newWriter.get cmd.key 0,
      prev.leaseID = cmd.leaseID ∨ (f.lm.find? prev.leaseID).isNone = true ∨ f.lm.attached prev.leaseID cmd.key = true
  | .kv (.delete cmd) => ∀ e ∈ f.store.listed cmd, f.lm.attached e.leaseID e.key = true →
      rangeSelects cmd.key cmd.endKey e.key = true
  | .kv (.txn cmd) => (∀ op ∈ Engine.branch f.store.newWriter cmd, op.runs f.store = true) →
      ∀ op ∈ Engine.calls f.store.newWriter (.txn cmd), registered f.lm (Engine.calls f.store.newWriter (.txn cmd)) op = true
  | _ => True

instance (f : Fsm) : (request : Request) → Decidable (f.Attaches request)
  | .kv (.put _) => by unfold Attaches; infer_instance
  | .kv (.delete _) => by unfold Attaches; infer_instance
  | .kv (.txn _) => by unfold Attaches; infer_instance
  | .lease _ => isTrue trivial
  | .compaction _ => isTrue trivial
  | .ot _ => isTrue trivial

/-- The keys put under a lease have it and are in its set. -/
structure Registered (bound : Int64 → Bytes → Bool) (lm : LeaseManager) (m : KvMap) : Prop where
  nonzero : lm.find? 0 = none
  leased : ∀ id key, bound id key = true → (m.find? key).map (·.leaseID) = some id
  attached : ∀ id key, bound id key = true → lm.attached id key = true

variable {f g : Fsm} {m m' : KvMap} {request : Request} {bound : Int64 → Bytes → Bool}

/-- A pair after a step: the key has the lease, which was there before, and if its item is the same the pair was there. -/
theorem rebind_cases (before : f.store.Current m) (after : g.store.Current m') (registered : Registered bound f.lm m)
    {id : Int64} {key : Bytes} (holds : f.rebind g bound id key = true) :
    (g.lm.find? id).isSome = true ∧ (f.lm.find? id).isSome = true ∧
      ∃ item, m'.find? key = some item ∧ item.leaseID = id ∧ (m.find? key = some item → bound id key = true) := by
  rw [rebind,before.holds.entryOf_eq,after.holds.entryOf_eq,Bool.and_eq_true] at holds
  obtain ⟨there,holds⟩ := holds
  cases live : m'.find? key with
  | none =>
    rw [live] at holds
    cases holds
  | some item =>
    rw [live,Option.map_some] at holds
    simp only at holds
    split at holds
    next same =>
      have leased := registered.leased id key holds
      refine ⟨there,LeaseManager.isSome_of_attached (registered.attached id key holds),item,rfl,?_,fun _ => holds⟩
      obtain ⟨old,found,rfl⟩ := Option.map_eq_some_iff.mp leased
      rw [found,Option.map_some,Option.some.injEq] at same
      exact (congrArg Entry.leaseID same).symm
    next different =>
      rw [Bool.and_eq_true,decide_eq_true_eq] at holds
      refine ⟨there,holds.1,item,rfl,holds.2,fun same => ?_⟩
      rw [same] at different
      exact absurd rfl different

theorem Moves.registered (moves : Moves f g m request m') (before : f.store.Current m) (after : g.store.Current m')
    (attaches : f.Attaches request) (registered : Registered bound f.lm m) : Registered (f.rebind g bound) g.lm m' := by
  refine ⟨moves.nonzero registered.nonzero,fun id key holds => ?_,fun id key holds => ?_⟩
  · obtain ⟨-,-,item,live,rfl,-⟩ := rebind_cases before after registered holds
    rw [live]
    rfl
  · obtain ⟨there,existed,item,live,rfl,kept⟩ := rebind_cases before after registered holds
    have leased := Owned.ne_zero registered.nonzero existed
    cases moves with
    | idle same =>
      rw [same.attached]
      exact registered.attached _ _ (kept live)
    | @put cmd value found lm =>
      rw [lm,Engine.attached_putLeases]
      rw [KvMap.put,SortedMap.find_insert] at live
      by_cases same : key = cmd.key
      · rw [if_pos same] at live
        have stored : Engine.storedLease (f.store.newWriter.get cmd.key 0) cmd = item.leaseID := by
          cases live
          rfl
        by_cases named : item.leaseID = cmd.leaseID
        · exact Or.inl ⟨by rw [stored]; exact leased,by rw [← named]; exact existed,named,same⟩
        · -- the put keeps the lease of the entry it replaces
          have ignores : cmd.ignoreLease = true := by
            by_contra names
            rw [Engine.storedLease,if_neg names] at stored
            exact named stored.symm
          cases prev : f.store.newWriter.get cmd.key 0 with
          | none => exact absurd ⟨prev,ignores⟩ found
          | some entry =>
            rw [prev] at stored
            have same' : entry.leaseID = item.leaseID := by
              rw [Engine.storedLease,if_pos ignores] at stored
              exact stored
            refine Or.inr ⟨?_,fun moved => moved.2.1 ?_⟩
            · rcases attaches ignores entry prev with other | none | attached
              · exact absurd (same'.symm.trans other) named
              · rw [same',← Option.not_isSome,existed] at none
                cases none
              · rwa [same', ← same] at attached
            · rw [stored]
              exact same'
      · rw [if_neg same] at live
        exact Or.inr ⟨registered.attached _ _ (kept live),fun moved => same moved.2.2.2⟩
    | @delete cmd lm =>
      rw [SortedMap.find_filter,Option.filter_eq_some_iff] at live
      obtain ⟨live,stays⟩ := live
      have attached := registered.attached _ _ (kept live)
      rw [lm,LeaseManager.attached_detachAll,attached,Bool.true_and,Bool.not_eq_true',List.any_eq_false]
      intro e member
      rw [decide_eq_true_eq]
      rintro ⟨-,same,rfl⟩
      rw [attaches e member (by rw [← same]; exact attached)] at stays
      cases stays
    | @txn cmd runs lm =>
      rw [lm]
      have result := KvMap.find_applyOps (f.store.currentRev.main + 1) m (Engine.calls f.store.newWriter (.txn cmd)) key
      cases last : lastWrite key (Engine.calls f.store.newWriter (.txn cmd)) with
      | none =>
        rw [last] at result
        exact registered.attached _ _ (kept (result ▸ live))
      | some left =>
        rw [last] at result
        cases left with
        | none =>
          simp only at result
          rw [result] at live
          cases live
        | some id =>
          obtain ⟨item',live',rfl⟩ := result
          rw [live] at live'
          cases live'
          obtain ⟨value,member⟩ := put_mem_of_lastWrite last
          have passes := attaches runs _ member
          simpa [Fsm.registered,last,Option.isSome_iff_ne_none.mp existed] using passes
    | @grant new ttl l notZero fresh empty lm =>
      have attached := registered.attached _ _ (kept live)
      rw [LeaseManager.attached,lm]
      by_cases same : item.leaseID = new
      · rw [same,fresh] at existed
        cases existed
      · rw [if_neg same]
        exact attached
    | @remove request ids keys lm listed =>
      rw [SortedMap.find_foldl_erase] at live
      have stays : item.leaseID ∉ ids := by
        intro removed
        rw [lm,if_pos removed] at there
        cases there
      by_cases erased : key ∈ keys
      · rw [if_pos erased] at live
        cases live
      · rw [if_neg erased] at live
        rw [LeaseManager.attached_of_removed lm,registered.attached _ _ (kept live),Bool.and_true]
        exact decide_eq_true stays

theorem applyAll_registered {entries : List (Env × Log)} (uncompacted : ∀ e ∈ entries, e.2.Uncompacted)
    (current : f.store.Current m) (registered : Registered bound f.lm m) (meets : Meets Attaches f entries) :
    ∃ m', (f.applyAll entries).store.Current m' ∧ Registered (f.boundAfter entries bound) (f.applyAll entries).lm m' := by
  induction entries generalizing f m bound with
  | nil => exact ⟨m,current,registered⟩
  | cons e rest ih =>
    obtain ⟨here,others⟩ := meets
    obtain ⟨mine,uncompacted⟩ := List.forall_mem_cons.mp uncompacted
    rcases apply_moves current e.1 mine with same | ⟨request,m',asked,new,moves,after⟩
    · -- an entry that is passed over moves nothing
      have idle : Moves f (f.apply e.1 e.2).1 m (.lease (.lookup 0)) m := by
        rw [same]
        exact .idle fun _ => rfl
      have after : (f.apply e.1 e.2).1.store.Current m := by
        rw [same]
        exact current
      exact ih uncompacted after (idle.registered current after trivial registered) others
    · exact ih uncompacted after (moves.registered current after (here new request asked) registered) others

end Fsm

/-- In a log of which every command meets the condition, a key last written under a lease that was there is in its set,
    so that it dies with it. -/
theorem keys_put_under_lease_die_with_it (opts : OtOptions) (nodeID : String) (entries : List (Env × Log))
    (uncompacted : ∀ e ∈ entries, e.2.Uncompacted) (meets : (Fsm.new opts nodeID).Meets Fsm.Attaches entries) :
    let f := (Fsm.new opts nodeID).applyAll entries
    ∀ id key, (Fsm.new opts nodeID).boundAfter entries (fun _ _ => false) id key = true →
      f.lm.attached id key = true ∧
      (∀ env, (LeaseManager.revoke env f.lm f.store id).1.2.entryOf key = none) ∧
      ∀ env ids, id ∈ ids → (LeaseManager.applyExpired env f.lm f.store ids).1.2.entryOf key = none := by
  intro f id key bound
  have start : Fsm.Registered (fun _ _ => false) (Fsm.new opts nodeID).lm SortedMap.empty := by
    refine ⟨rfl,?_,?_⟩
    · intro id key holds
      cases holds
    · intro id key holds
      cases holds
  obtain ⟨m,current,registered⟩ := Fsm.applyAll_registered uncompacted KvStore.Current.new start meets
  have attached : f.lm.attached id key = true := registered.attached id key bound
  have erased : ∀ keys : List Bytes, key ∈ keys → (keys.foldl SortedMap.erase m).find? key = none := by
    intro keys inside
    rw [SortedMap.find_foldl_erase, if_pos inside]
  refine ⟨attached,fun env => ?_,fun env ids listed => ?_⟩
  · obtain ⟨l,found⟩ := Option.isSome_iff_exists.mp (LeaseManager.isSome_of_attached attached)
    rw [(current.revoke env found).holds.entryOf_eq, erased]
    · rfl
    · rw [(env.perm _).mem_iff, SortedMap.mem_keys]
      rw [LeaseManager.attached, found] at attached
      exact attached
  · rw [(current.applyExpired env f.lm ids).holds.entryOf_eq, erased]
    · rfl
    · exact LeaseManager.mem_expiredKeys.mpr ⟨id,listed,attached⟩

/-- The key is put, put again by a transaction, and renewed with its lease kept. -/
theorem keys_put_under_lease_die_with_it_renewed :
    let entries : List (Env × Log) := [(.plain 0,.plain 1 (.lease (.grant 7 10))),
      (.plain 0,.plain 2 (.kv (.put (.plain [97] [1] 7)))),
      (.plain 0,.plain 3 (.kv (.txn ⟨[],[.put (some (.plain [97] [3] 7))],[]⟩))),
      (.plain 0,.plain 4 (.kv (.put ⟨[97],some [4],0,false,false,true⟩)))]
    let f := (Fsm.new defaultOtOptions "a").applyAll entries
    f.lm.attached 7 [97] = true ∧ (LeaseManager.revoke (.plain 0) f.lm f.store 7).1.2.entryOf [97] = none := by
  intro entries f
  have dies := keys_put_under_lease_die_with_it defaultOtOptions "a" entries (by decide) (by decide) 7 [97]
    (by decide)
  exact ⟨dies.1,dies.2.1 (.plain 0)⟩

/-- A transaction puts the key under the lease and does not attach it: the key survives the lease. -/
theorem key_put_by_txn_survives_lease :
    let entries : List (Env × Log) := [(.plain 0,.plain 1 (.lease (.grant 7 10))),
      (.plain 0,.plain 2 (.kv (.txn ⟨[],[.put (some (.plain [97] [1] 7))],[]⟩)))]
    let f := (Fsm.new defaultOtOptions "a").applyAll entries
    (Fsm.new defaultOtOptions "a").boundAfter entries (fun _ _ => false) 7 [97] = true ∧ f.lm.attached 7 [97] = false ∧
      ((f.apply (.plain 0) (.plain 3 (.lease (.revoke 7)))).1.store.entryOf [97]).map (·.leaseID) = some 7 := by
  decide

end Kave
