import Kave.Abort

/-! The records that the removal of a lease leaves. The keys are deleted in the order in which the key set is iterated, and
    the position of a deletion is part of the key of its record. -/

namespace Kave

open TreeIndex

/-- Key sets iterated against the key order. -/
def Env.reversed (now : Int) : Env := ⟨now,0,List.reverse,List.reverse_perm⟩

def KvStore.alive (s : KvStore) (key : Bytes) : Bool := (s.kvIndex.unsafeGet key s.currentRev.main).toOption.isSome

/-! ### The deletions of a transaction -/

/-- The keys that are alive when the transaction comes to them. -/
def liveOnce (alive : Bytes → Bool) : List Bytes → List Bytes
  | [] => []
  | key :: rest => if alive key then key :: liveOnce (fun k => alive k && k ≠ key) rest else liveOnce alive rest

theorem opsWrites_deleteKeys (rev : Int) (keys : List Bytes) (m : KvMap) :
    KvMap.opsWrites rev (keys.map .deleteKey) m = (liveOnce (fun k => (m.find? k).isSome) keys).map .delete := by
  induction keys generalizing m with
  | nil => rfl
  | cons key rest ih =>
    have one : ∀ k, rangeSelects key none k = true ↔ k = key := by simp [rangeSelects]
    rw [List.map_cons,KvMap.opsWrites,KvMap.opWrites,SortedMap.keys,SortedMap.entries_filter_key _ one,ih,liveOnce]
    cases found : m.find? key with
    | none => simp [KvMap.writes]
    | some item =>
      have erased : (fun k => ((m.erase key).find? k).isSome) = fun k => (m.find? k).isSome && decide (k ≠ key) := by
        funext k
        by_cases same : k = key <;> simp [same]
      change Write.delete key :: (liveOnce (fun k => ((m.erase key).find? k).isSome) rest).map .delete = _
      rw [erased,Option.isSome_some,if_pos rfl,List.map_cons]

theorem liveOnce_append (alive : Bytes → Bool) (a b : List Bytes) :
    liveOnce alive (a ++ b) = liveOnce alive a ++ liveOnce (fun k => alive k && decide (k ∉ a)) b := by
  induction a generalizing alive with
  | nil => simp [liveOnce]
  | cons key rest ih =>
    rw [List.cons_append,liveOnce,liveOnce]
    by_cases here : alive key = true
    · have same : (fun k => (alive k && decide (k ≠ key)) && decide (k ∉ rest)) =
          fun k => alive k && decide (k ∉ key :: rest) := by
        funext k
        simp [Bool.and_assoc]
      rw [if_pos here,if_pos here,ih,same,List.cons_append]
    · have same : (fun k => alive k && decide (k ∉ rest)) = fun k => alive k && decide (k ∉ key :: rest) := by
        funext k
        by_cases equal : k = key
        · simp [equal,here]
        · simp [equal]
      rw [if_neg here,if_neg here,ih,same]

theorem liveOnce_of_nodup {keys : List Bytes} (distinct : keys.Nodup) (alive : Bytes → Bool) :
    liveOnce alive keys = keys.filter alive := by
  induction keys generalizing alive with
  | nil => rfl
  | cons key rest ih =>
    obtain ⟨notIn,distinctRest⟩ := List.nodup_cons.mp distinct
    rw [liveOnce,List.filter_cons]
    split
    · rw [ih distinctRest]
      refine congrArg _ (List.filter_congr fun k inside => ?_)
      have different : k ≠ key := fun same => notIn (same ▸ inside)
      simp [different]
    · exact ih distinctRest alive

/-- The bucket with the records of deletions from position `n` on. -/
def stampDeletes (next : Int) : Nat → List Bytes → KvBucket → KvBucket
  | _, [], kv => kv
  | n, key :: rest, kv => stampDeletes next (n + 1) rest (kv.insert ⟨⟨next,n⟩,true⟩ (Writer.tombstoneEntry next key).stored)

theorem Chain.stampDeletes {next : Int} {keys : List Bytes} {n : Nat} {a b : Content}
    (chain : Chain next n a (keys.map .delete) b) : b.kv = Kave.stampDeletes next n keys a.kv := by
  induction keys generalizing n a with
  | nil =>
    cases chain
    rfl
  | cons key rest ih =>
    cases chain with
    | cons step rest =>
      cases step with
      | delete alive wrote => exact ih rest

private theorem find_stampDeletes (next : Int) (keys : List Bytes) {m n : Nat} (less : m < n) (kv : KvBucket) :
    (stampDeletes next n keys kv).find? ⟨⟨next,m⟩,true⟩ = kv.find? ⟨⟨next,m⟩,true⟩ := by
  induction keys generalizing n kv with
  | nil => rfl
  | cons key rest ih =>
    have different : (⟨⟨next,m⟩,true⟩ : KvBucketKey) ≠ ⟨⟨next,n⟩,true⟩ := by
      intro same
      simp only [KvBucketKey.mk.injEq,Revision.mk.injEq,Nat.cast_inj,true_and,and_true] at same
      omega
    rw [stampDeletes,ih (by omega),SortedMap.find_insert,if_neg different]

theorem stampDeletes_inj {next : Int} {keys keys' : List Bytes} (lengths : keys.length = keys'.length) {n : Nat} {kv : KvBucket}
    (same : stampDeletes next n keys kv = stampDeletes next n keys' kv) : keys = keys' := by
  induction keys generalizing keys' n kv with
  | nil => exact (List.length_eq_zero_iff.mp lengths.symm).symm
  | cons key rest ih =>
    cases keys' with
    | nil => simp at lengths
    | cons key' rest' =>
      have record := congrArg (fun kv => kv.find? ⟨⟨next,n⟩,true⟩) same
      simp only [stampDeletes,find_stampDeletes next _ (Nat.lt_succ_self n),SortedMap.find_insert,if_true,
        Option.some.injEq] at record
      obtain rfl : key = key' := congrArg Entry.key record
      rw [ih (by simpa using lengths) same]

theorem KvStore.Settled.kv_deleteKeys {s : KvStore} (settled : s.Settled) (keys : List Bytes) :
    (s.txn (keys.map .deleteKey)).backend.buckets.kv =
      stampDeletes (s.currentRev.main + 1) 0 (liveOnce s.alive keys) s.backend.buckets.kv := by
  obtain ⟨m,domain⟩ := s.content.exists_domain (s.currentRev.main + 1)
  have committed := settled.txn domain (keys.map .deleteKey)
  have chain := committed.chain
  rw [opsWrites_deleteKeys] at chain
  have alive : (fun k => (m.find? k).isSome) = s.alive := by
    funext k
    have now : s.kvIndex.look k s.currentRev.main = s.kvIndex.look k (s.currentRev.main + 1) := settled.fresh.look_start k
    rw [← domain k,KvStore.alive,unsafeGet_toOption,now]
    rfl
  rw [alive] at chain
  exact chain.stampDeletes

/-! ### The keys of the leases -/

namespace LeaseManager

/-- The keys `ApplyExpired` collects. -/
def expiredKeys (env : Env) : List Int64 → LeaseManager → List Bytes
  | [], _ => []
  | id :: rest, lm =>
    match lm.find? id with
    | none => expiredKeys env rest lm
    | some l => env.order l.keySet.keys ++ expiredKeys env rest (lm.remove id)

theorem collectExpired_keys (env : Env) (ids : List Int64) (lm : LeaseManager) (keys : List Bytes) (count : Nat) :
    (collectExpired env ids lm keys count).2.1 = keys ++ expiredKeys env ids lm := by
  induction ids generalizing lm keys count with
  | nil => simp [collectExpired,expiredKeys]
  | cons id rest ih =>
    rw [collectExpired,expiredKeys]
    cases lm.find? id with
    | none => exact ih lm keys count
    | some l => simp only [ih,List.append_assoc]

/-- Of each listed lease at most one key is alive that is not of a lease listed before. -/
def OneEach (alive : Bytes → Bool) : List Int64 → LeaseManager → Prop
  | [], _ => True
  | id :: rest, lm =>
    match lm.find? id with
    | none => OneEach alive rest lm
    | some l => (l.keySet.keys.filter alive).length ≤ 1 ∧
        OneEach (fun k => alive k && (l.keySet.find? k).isNone) rest (lm.remove id)

private theorem liveOnce_expiredKeys (env : Env) (alive : Bytes → Bool) (l : Lease) (rest : List Bytes) :
    liveOnce alive (env.order l.keySet.keys ++ rest) =
      (env.order l.keySet.keys).filter alive ++ liveOnce (fun k => alive k && (l.keySet.find? k).isNone) rest := by
  have distinct : (env.order l.keySet.keys).Nodup := (env.perm _).nodup_iff.mpr (SortedMap.keys_sorted _).nodup
  have others : (fun k => alive k && decide (k ∉ env.order l.keySet.keys)) =
      fun k => alive k && (l.keySet.find? k).isNone := by
    funext k
    simp only [(env.perm _).mem_iff,SortedMap.mem_keys]
    cases l.keySet.find? k <;> simp
  rw [liveOnce_append,liveOnce_of_nodup distinct,others]

theorem length_liveOnce (env env' : Env) (ids : List Int64) (alive : Bytes → Bool) (lm : LeaseManager) :
    (liveOnce alive (expiredKeys env ids lm)).length = (liveOnce alive (expiredKeys env' ids lm)).length := by
  induction ids generalizing alive lm with
  | nil => rfl
  | cons id rest ih =>
    rw [expiredKeys,expiredKeys]
    cases lm.find? id with
    | none => exact ih alive lm
    | some l =>
      have both : ((env.order l.keySet.keys).filter alive).Perm ((env'.order l.keySet.keys).filter alive) :=
        ((env.perm _).trans (env'.perm _).symm).filter alive
      simp only [liveOnce_expiredKeys,List.length_append,both.length_eq,ih]

private theorem length_le_one_of_reverse {l : List Bytes} (distinct : l.Nodup) (same : l = l.reverse) : l.length ≤ 1 := by
  match l with
  | [] | [_] => simp
  | a :: b :: rest =>
    have last : (a :: b :: rest).getLast? = some a := by
      rw [List.getLast?_eq_head?_reverse,← same]
      rfl
    have inside : a ∈ b :: rest := List.mem_of_getLast? (by rwa [List.getLast?_cons_cons] at last)
    exact absurd inside (List.nodup_cons.mp distinct).1

/-- The deletions do not depend on the order of iteration exactly if each lease has at most one key to delete. -/
theorem liveOnce_order_iff (ids : List Int64) (alive : Bytes → Bool) (lm : LeaseManager) :
    (∀ env env' : Env, liveOnce alive (expiredKeys env ids lm) = liveOnce alive (expiredKeys env' ids lm)) ↔
      OneEach alive ids lm := by
  induction ids generalizing alive lm with
  | nil => simp [expiredKeys,OneEach]
  | cons id rest ih =>
    simp only [expiredKeys,OneEach]
    cases lm.find? id with
    | none => exact ih alive lm
    | some l =>
      simp only [liveOnce_expiredKeys]
      rw [← ih]
      have perm : ∀ env env' : Env,
          ((env.order l.keySet.keys).filter alive).Perm ((env'.order l.keySet.keys).filter alive) :=
        fun env env' => ((env.perm _).trans (env'.perm _).symm).filter alive
      constructor
      · intro same
        constructor
        · have segments := (List.append_inj (same (.plain 0) (.reversed 0)) (perm _ _).length_eq).1
          change l.keySet.keys.filter alive = l.keySet.keys.reverse.filter alive at segments
          rw [List.filter_reverse] at segments
          exact length_le_one_of_reverse ((SortedMap.keys_sorted _).nodup.filter _) segments
        · intro env env'
          exact (List.append_inj (same env env') (perm env env').length_eq).2
      · rintro ⟨one,others⟩ env env'
        have segments : (env.order l.keySet.keys).filter alive = (env'.order l.keySet.keys).filter alive := by
          have short : ((env.order l.keySet.keys).filter alive).length ≤ 1 := by
            rwa [((env.perm l.keySet.keys).filter alive).length_eq]
          match split : (env.order l.keySet.keys).filter alive with
          | [] =>
            have other := perm env env'
            rw [split] at other
            exact other.nil_eq
          | [a] =>
            have other := perm env env'
            rw [split] at other
            exact List.singleton_perm.mp other
          | _ :: _ :: _ => simp [split] at short
        rw [segments,others env env']

theorem kv_removeFromBackend (s : KvStore) (ids : List Int64) :
    (removeFromBackend s ids).backend.buckets.kv = s.backend.buckets.kv :=
  congrArg Content.kv (KvStore.SameKv.removeFromBackend s ids).content

end LeaseManager

/-- Removing a lease leaves the same records for every order of iteration exactly if no listed lease has two keys that are
    alive and not of a lease listed before. -/
theorem lease_removal_order_iff (opts : OtOptions) (nodeID : String) (events : List ReplicaEvent) (lm : LeaseManager) :
    let s := ((Replica.new opts nodeID).run events).fsm.store
    (∀ id, (∀ env env' : Env, (LeaseManager.revoke env lm s id).1.2.backend.buckets.kv =
        (LeaseManager.revoke env' lm s id).1.2.backend.buckets.kv) ↔ LeaseManager.OneEach s.alive [id] lm) ∧
    ∀ ids, (∀ env env' : Env, (LeaseManager.applyExpired env lm s ids).1.2.backend.buckets.kv =
        (LeaseManager.applyExpired env' lm s ids).1.2.backend.buckets.kv) ↔ LeaseManager.OneEach s.alive ids lm := by
  intro s
  have settled : s.Settled := (Replica.run_orderly opts nodeID events).settled
  -- both commands leave the records of the deletions of the collected keys
  have records : ∀ ids, (∀ env env' : Env,
      stampDeletes (s.currentRev.main + 1) 0 (liveOnce s.alive (LeaseManager.expiredKeys env ids lm)) s.backend.buckets.kv =
        stampDeletes (s.currentRev.main + 1) 0 (liveOnce s.alive (LeaseManager.expiredKeys env' ids lm)) s.backend.buckets.kv) ↔
      LeaseManager.OneEach s.alive ids lm := by
    intro ids
    rw [← LeaseManager.liveOnce_order_iff]
    constructor
    · intro same env env'
      exact stampDeletes_inj (LeaseManager.length_liveOnce env env' ids s.alive lm) (same env env')
    · intro same env env'
      rw [same env env']
  constructor
  · intro id
    rw [← records]
    have left : ∀ env : Env, (LeaseManager.revoke env lm s id).1.2.backend.buckets.kv = stampDeletes (s.currentRev.main + 1) 0
        (liveOnce s.alive (LeaseManager.expiredKeys env [id] lm)) s.backend.buckets.kv := by
      intro env
      rw [LeaseManager.revoke_eq settled, LeaseManager.expiredKeys]
      cases lm.find? id with
      | none => rfl
      | some lease =>
        simp only [LeaseManager.expiredKeys, List.append_nil]
        rw [LeaseManager.kv_removeFromBackend]
        by_cases none : env.order lease.keySet.keys = []
        · rw [if_pos none, none]
          rfl
        · rw [if_neg none]
          exact settled.kv_deleteKeys _
    simp only [left]
  · intro ids
    rw [← records]
    have left : ∀ env : Env, (LeaseManager.applyExpired env lm s ids).1.2.backend.buckets.kv =
        stampDeletes (s.currentRev.main + 1) 0 (liveOnce s.alive (LeaseManager.expiredKeys env ids lm)) s.backend.buckets.kv := by
      intro env
      rw [LeaseManager.applyExpired_eq settled]
      rw [LeaseManager.kv_removeFromBackend, LeaseManager.collectExpired_keys, List.nil_append]
      exact settled.kv_deleteKeys _
    simp only [left]

/-- Two keys under one lease: the records of its revocation depend on which key comes first. -/
theorem lease_removal_depends_on_order :
    let f := ((Replica.new defaultOtOptions "a").run [.apply (.plain 0) (.plain 1 (.lease (.grant 7 10))),
      .apply (.plain 0) (.plain 2 (.kv (.put (.plain [97] [1] 7)))),
      .apply (.plain 0) (.plain 3 (.kv (.put (.plain [98] [1] 7))))]).fsm
    let one := (LeaseManager.revoke (.plain 0) f.lm f.store 7).1.2.backend.buckets.kv
    let other := (LeaseManager.revoke (.reversed 0) f.lm f.store 7).1.2.backend.buckets.kv
    (one.find? ⟨⟨3,0⟩,true⟩).map (·.key) = some [97] ∧ (other.find? ⟨⟨3,0⟩,true⟩).map (·.key) = some [98] := by
  decide

end Kave
