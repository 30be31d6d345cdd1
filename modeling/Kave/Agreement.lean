import Kave.Attachment

/-! Two stores that answer alike from some revision on. Every command has the same result on both, whatever is different
    below that revision. -/

namespace Kave

open TreeIndex

/-! ### What a write shows -/

/-- A put of the transaction `next` as the transaction itself sees it: its record is not in the bucket yet. -/
def seenPut (next : Int) (before : Option (Int × Int × Int × Option Entry)) : Option (Int × Int × Int × Option Entry) :=
  some ((before.map (·.1)).getD next,next,(before.map (·.2.2.1)).getD 0 + 1,none)

theorem WriteStep.shown_put {next : Int} {n : Nat} {a b : Content} {key : Bytes} {value : Option Bytes} {leaseID : Int64}
    (step : WriteStep next n a (.put key value leaseID) b) {kv : KvBucket} (missing : kv.find? ⟨⟨next,n⟩,false⟩ = none)
    (k : Bytes) (r : Int) :
    shown kv (b.index.look k r) =
      if k = key ∧ next ≤ r then seenPut next (shown kv (a.index.look key next)) else shown kv (a.index.look k r) := by
  cases step with
  | @put _ _ _ ti wrote =>
    by_cases same : k = key
    · subst same
      rw [wrote.look]
      by_cases past : r < next
      · rw [if_pos past,if_neg fun both => not_le.mpr past both.2]
      · simp only [if_neg past,Bool.false_eq_true,if_false,true_and,if_pos (not_lt.mp past)]
        cases answer : a.index.look k next with
        | none => simp [shown,seenPut,KeyIndex.extend,missing]
        | some found =>
          obtain ⟨created,mod,version⟩ := found
          simp [shown,seenPut,KeyIndex.extend,missing]
    · rw [wrote.look_other same,if_neg fun both => same both.1]

theorem Chain.shown_deletes {next : Int} {keys : List Bytes} {n : Nat} {a b : Content}
    (chain : Chain next n a (keys.map .delete) b) (kv : KvBucket) (k : Bytes) (r : Int) :
    shown kv (b.index.look k r) = if k ∈ keys ∧ next ≤ r then none else shown kv (a.index.look k r) := by
  induction keys generalizing n a with
  | nil =>
    cases chain
    simp
  | cons key rest ih =>
    cases chain with
    | cons step chain =>
      rw [ih chain]
      cases step with
      | @delete _ ti alive wrote =>
        by_cases same : k = key
        · subst same
          rw [wrote.look]
          by_cases past : r < next
          · simp [past,not_le.mpr past]
          · simp [past,not_lt.mp past,shown]
        · rw [wrote.look_other same]
          simp [same]

theorem putEntry_congr {kv kv' : KvBucket} {found found' : Option (Revision × Revision × Int)}
    (same : shown kv found = shown kv' found') (next : Int) (key : Bytes) (value : Option Bytes) (leaseID : Int64) :
    Writer.putEntry next found key value leaseID = Writer.putEntry next found' key value leaseID := by
  have created : found.map (·.1.main) = found'.map (·.1.main) := by
    have image := congrArg (Option.map (·.1)) same
    rwa [shown, shown, Option.map_map, Option.map_map] at image
  have version : found.map (·.2.2) = found'.map (·.2.2) := by
    have image := congrArg (Option.map (·.2.2.1)) same
    rwa [shown, shown, Option.map_map, Option.map_map] at image
  rw [Writer.putEntry,Writer.putEntry,created,version]

theorem isSome_seenAt (s : KvStore) (key : Bytes) (r : Int) : (s.seenAt key r).isSome = (s.kvIndex.look key r).isSome :=
  Option.isSome_map

theorem fetchRange_seenAt {s s' : KvStore} {r : Int} (same : ∀ key, s.seenAt key r = s'.seenAt key r) (key : Bytes)
    (endKey : Option Bytes) (limit : Int) :
    fetchRange s.kvIndex s.backend.buckets r key endKey limit = fetchRange s'.kvIndex s'.backend.buckets r key endKey limit := by
  rw [fetchRange_eq,fetchRange_eq,recordsAt_congr fun key => ?_]
  have image := congrArg (Option.map (·.2.2.2)) (same key)
  rwa [KvStore.seenAt, KvStore.seenAt, shown, shown, Option.map_map, Option.map_map] at image

/-! ### Stores and transactions that answer alike -/

/-- The stores are at the same revision and answer alike from `lo` on. -/
structure KvStore.Twins (lo : Int) (s s' : KvStore) : Prop where
  orderly : s.Orderly
  orderly' : s'.Orderly
  current : s'.currentRev.main = s.currentRev.main
  reach : lo ≤ s.currentRev.main
  kept : s.compactedMainRev ≤ lo
  kept' : s'.compactedMainRev ≤ lo
  seen : ∀ key r, lo ≤ r → s.seenAt key r = s'.seenAt key r

/-- Transactions on the stores with the same changes so far. -/
structure Writer.Twins (lo : Int) (s s' : KvStore) (w w' : Writer) : Prop where
  opened : w.Opened s
  opened' : w'.Opened s'
  changes : w.changes = w'.changes
  seen : ∀ key r, lo ≤ r → w.store.seenAt key r = w'.store.seenAt key r

/-- The revisions at which the stores give the same answer: the newest, those from `lo` on, and those that both refuse. -/
def KvStore.Alike (lo : Int) (s s' : KvStore) (rev : Int) : Prop :=
  rev ≤ 0 ∨ lo ≤ rev ∨ rev < s.compactedMainRev ∧ rev < s'.compactedMainRev

theorem KvStore.Orderly.unwritten {s : KvStore} (orderly : s.Orderly) (n : Nat) :
    s.backend.buckets.kv.find? ⟨⟨s.currentRev.main + 1,n⟩,false⟩ = none := by
  cases found : s.backend.buckets.kv.find? ⟨⟨s.currentRev.main + 1,n⟩,false⟩ with
  | none => rfl
  | some entry =>
    have less := (orderly.stamped.early _ (by rw [found]; rfl)).2.2
    rcases Revision.lt_iff.mp less with below | ⟨-,below⟩
    · exact absurd below (lt_irrefl _)
    · simp only at below
      omega

section

variable {lo : Int} {s s' : KvStore}

theorem KvStore.Twins.newWriter (twins : s.Twins lo s') : Writer.Twins lo s s' s.newWriter s'.newWriter :=
  ⟨.new twins.orderly.settled,.new twins.orderly'.settled,rfl,twins.seen⟩

theorem Writer.Extends.seenAt {w w' : Writer} {more : List Entry} (extends_ : w.Extends w' more) (key : Bytes) (rev : Int) :
    w'.store.seenAt key rev = shown w.store.backend.buckets.kv (w'.content.index.look key rev) := by
  rw [KvStore.seenAt,extends_.store]
  rfl

namespace Writer.Twins

variable {w w' : Writer}

section

variable (pair : Writer.Twins lo s s' w w')

include pair

theorem startMain (twins : s.Twins lo s') : w'.startRev.main = w.startRev.main := by
  rw [pair.opened.startRev,pair.opened'.startRev,twins.current]

theorem range (twins : s.Twins lo s') (key : Bytes) (endKey : Option Bytes) {rev : Int}
    (alike : s.Alike lo s' rev) (limit : Int) : w.range key endKey rev limit = w'.range key endKey rev limit := by
  have nonneg := twins.orderly.settled.nonneg
  have reach := twins.reach
  have kept := twins.kept
  have kept' := twins.kept'
  have current : w.store.currentRev = s.currentRev := by rw [pair.opened.store]
  have current' : w'.store.currentRev = s'.currentRev := by rw [pair.opened'.store]
  have compacted : w.store.compactedMainRev = s.compactedMainRev := by rw [pair.opened.store]
  have compacted' : w'.store.compactedMainRev = s'.compactedMainRev := by rw [pair.opened'.store]
  rw [Writer.range,Writer.range,current,current',compacted,compacted',pair.startMain twins,pair.opened.startRev,twins.current]
  by_cases now : rev ≤ 0
  · -- the newest revision is that of the transaction itself
    have fetch := fetchRange_seenAt (r := s.currentRev.main + 1) fun key => pair.seen key (s.currentRev.main + 1) (by omega)
    have positive : ¬ s.currentRev.main + 1 ≤ 0 := by omega
    have above : ¬ s.currentRev.main + 1 < s.compactedMainRev := by omega
    have above' : ¬ s.currentRev.main + 1 < s'.compactedMainRev := by omega
    simp only [if_pos now,doRange,lt_irrefl,if_false,if_neg positive,if_neg above,if_neg above',fetch]
  · simp only [if_neg now,doRange]
    by_cases future : rev > s.currentRev.main
    · rw [if_pos future,if_pos future]
    · rw [if_neg future,if_neg future]
      rcases alike with newest | low | ⟨below,below'⟩
      · exact absurd newest now
      · have above : ¬ rev < s.compactedMainRev := by omega
        have above' : ¬ rev < s'.compactedMainRev := by omega
        rw [if_neg above,if_neg above',fetchRange_seenAt fun key => pair.seen key rev low]
      · rw [if_pos below,if_pos below']

theorem get (twins : s.Twins lo s') (key : Bytes) : w.get key 0 = w'.get key 0 := by
  rw [Writer.get,Writer.get,pair.changes,pair.range twins key none (Or.inl le_rfl)]

theorem put (twins : s.Twins lo s') (key : Bytes) (value : Option Bytes) (leaseID : Int64) :
    Writer.Twins lo s s' (w.put key value leaseID).1 (w'.put key value leaseID).1 ∧
      (w.put key value leaseID).2 = (w'.put key value leaseID).2 := by
  obtain ⟨w₁,run,extends_,step⟩ := w.put_spec pair.opened.fresh key value leaseID
  obtain ⟨w₁',run',extends',step'⟩ := w'.put_spec pair.opened'.fresh key value leaseID
  have opened := pair.opened.put key value leaseID
  have opened' := pair.opened'.put key value leaseID
  have next := pair.startMain twins
  have reach := twins.reach
  have start : w.startRev.main = s.currentRev.main := by rw [pair.opened.startRev]
  have kv : w.store.backend.buckets.kv = s.backend.buckets.kv := by rw [pair.opened.store]
  have kv' : w'.store.backend.buckets.kv = s'.backend.buckets.kv := by rw [pair.opened'.store]
  have before := pair.seen key (w.startRev.main + 1) (by omega)
  rw [run] at opened ⊢
  rw [run'] at opened' ⊢
  refine ⟨⟨opened,opened',?_,fun k r low => ?_⟩,rfl⟩
  · rw [extends_.changes,extends'.changes,pair.changes,next]
    exact congrArg (fun e => w'.changes ++ [e]) (putEntry_congr before _ key value leaseID)
  · rw [extends_.seenAt,extends'.seenAt,step.shown_put (by rw [kv,start]; exact twins.orderly.unwritten _),
      step'.shown_put (by rw [kv',next,start,← twins.current]; exact twins.orderly'.unwritten _),next]
    split
    · exact congrArg (seenPut _) before
    · exact pair.seen k r low

theorem deleteRange (twins : s.Twins lo s') (key : Bytes) (endKey : Option Bytes) :
    Writer.Twins lo s s' (w.deleteRange key endKey).1 (w'.deleteRange key endKey).1 ∧
      (w.deleteRange key endKey).2 = (w'.deleteRange key endKey).2 := by
  have next := pair.startMain twins
  have reach := twins.reach
  have start : w.startRev.main = s.currentRev.main := by rw [pair.opened.startRev]
  obtain ⟨m,domain⟩ := w.content.exists_domain (w.startRev.main + 1)
  have domain' : w'.content.Domain (w'.startRev.main + 1) m := by
    intro k
    have same := congrArg Option.isSome (pair.seen k (w.startRev.main + 1) (by omega))
    rw [isSome_seenAt,isSome_seenAt] at same
    rw [next,← domain k]
    exact same.symm
  obtain ⟨w₁,run,extends_,chain⟩ := w.deleteRange_spec pair.opened.fresh domain key endKey
  obtain ⟨w₁',run',extends',chain'⟩ := w'.deleteRange_spec pair.opened'.fresh domain' key endKey
  have opened := pair.opened.deleteRange key endKey
  have opened' := pair.opened'.deleteRange key endKey
  rw [run] at opened ⊢
  rw [run'] at opened' ⊢
  refine ⟨⟨opened,opened',?_,fun k r low => ?_⟩,rfl⟩
  · rw [extends_.changes,extends'.changes,pair.changes,next]
  · rw [extends_.seenAt,extends'.seenAt,chain.shown_deletes,chain'.shown_deletes,next]
    split
    · rfl
    · exact pair.seen k r low

end

end Writer.Twins

theorem KvStore.Twins.writersAgree (twins : s.Twins lo s') : WritersAgree (s.Alike lo s') (Writer.Twins lo s s') where
  now := Or.inl le_rfl
  get pair key := pair.get twins key
  range pair key endKey _ limit alike := pair.range twins key endKey alike limit
  put pair key value leaseID := pair.put twins key value leaseID
  deleteRange pair key endKey := pair.deleteRange twins key endKey
  startMain pair := (pair.startMain twins).symm
  changes pair := pair.changes

theorem LeaseManager.SameKeySets.attachersAgree : AttachersAgree LeaseManager.SameKeySets where
  attachKey same id key id' := by
    change (LeaseManager.find? (LeaseManager.attachKey _ id key) id').map _ = (LeaseManager.find? (LeaseManager.attachKey _ id key) id').map _
    rw [LeaseManager.find_attachKey,LeaseManager.find_attachKey]
    split
    · have image := congrArg (Option.map fun keySet => keySet.insert key ()) (same id)
      rwa [Option.map_map, Option.map_map] at image ⊢
    · exact same id'
  detachKey same id key id' := by
    change (LeaseManager.find? (LeaseManager.detachKey _ id key) id').map _ = (LeaseManager.find? (LeaseManager.detachKey _ id key) id').map _
    rw [LeaseManager.find_detachKey,LeaseManager.find_detachKey]
    split
    · have image := congrArg (Option.map fun keySet => keySet.erase key) (same id)
      rwa [Option.map_map, Option.map_map] at image ⊢
    · exact same id'

theorem KvStore.Twins.applyWrite (twins : s.Twins lo s') {S : LeaseManager → LeaseManager → Prop} (attachers : AttachersAgree S)
    {lm lm' : LeaseManager} (related : S lm lm') {cmd : KvRequest} (asks : Engine.Asks (s.Alike lo s') s.newWriter cmd) :
    (Engine.applyWrite s lm cmd).2 = (Engine.applyWrite s' lm' cmd).2 ∧
      S (Engine.applyWrite s lm cmd).1.2 (Engine.applyWrite s' lm' cmd).1.2 ∧
      Engine.calls s.newWriter cmd = Engine.calls s'.newWriter cmd := by
  have writers := twins.writersAgree
  have pair := twins.newWriter
  obtain ⟨after,attached,same⟩ := Engine.applyRequest_agrees writers attachers pair related asks
  have calls : Engine.calls s.newWriter cmd = Engine.calls s'.newWriter cmd := by
    cases cmd with
    | put cmd => rw [Engine.calls,Engine.calls,writers.get pair]
    | delete cmd => rfl
    | txn cmd => rw [Engine.calls,Engine.calls,Engine.branch,Engine.branch,Engine.evalCondition_eq writers pair]
  rw [← and_assoc]
  refine ⟨?_,calls⟩
  unfold Engine.applyWrite
  generalize Engine.applyRequest s.newWriter lm cmd = run at after attached same ⊢
  generalize Engine.applyRequest s'.newWriter lm' cmd = run' at after attached same ⊢
  obtain ⟨⟨w,a⟩,result⟩ := run
  obtain ⟨⟨w',a'⟩,result'⟩ := run'
  obtain rfl : result = result' := same
  cases result with
  | error e => exact ⟨rfl,attached⟩
  | ok result =>
    simp only
    rw [Engine.headerRevision_eq writers after]
    exact ⟨rfl,attached⟩

end

theorem Engine.OpsAsk.both {W W' : Type} [TxWriter W] [TxWriter W'] {R : W → W' → Prop} {ok ok₁ ok₂ : Int → Prop}
    (writers : WritersAgree ok R) (both : ∀ rev, ok₁ rev → ok₂ rev → ok rev) {ops : List TxnOp} {w : W} {w' : W'}
    (related : R w w') (asks : OpsAsk ok₁ ops w) (asks' : OpsAsk ok₂ ops w') : OpsAsk ok ops w := by
  induction ops generalizing w w' with
  | nil => trivial
  | cons op rest ih =>
    rw [OpsAsk] at asks asks' ⊢
    cases checked : op.check with
    | error e => trivial
    | ok op =>
      rw [checked] at asks asks'
      obtain ⟨mine,others⟩ := asks
      obtain ⟨mine',others'⟩ := asks'
      have passes : OpAsks ok op := by
        cases op with
        | put request | delete request => trivial
        | range request => exact both _ mine mine'
      obtain ⟨after,same⟩ := applyTxnOp_agrees writers related passes
      refine ⟨passes,?_⟩
      generalize applyTxnOp w op = run at after same others ⊢
      generalize applyTxnOp w' op = run' at after same others'
      obtain ⟨w₁,result⟩ := run
      obtain ⟨w₁',result'⟩ := run'
      obtain rfl : result = result' := same
      cases result with
      | error e => trivial
      | ok result => exact ih after others others'

theorem Engine.OpsAsk.transfer {W W' : Type} [TxWriter W] [TxWriter W'] {R : W → W' → Prop} {ok ok₁ ok₂ : Int → Prop}
    (writers : WritersAgree ok R) (pass : ∀ rev, ok₁ rev → ok rev ∧ ok₂ rev) {ops : List TxnOp} {w : W} {w' : W'}
    (related : R w w') (asks : OpsAsk ok₁ ops w) : OpsAsk ok₂ ops w' := by
  induction ops generalizing w w' with
  | nil => trivial
  | cons op rest ih =>
    rw [OpsAsk] at asks ⊢
    cases checked : op.check with
    | error e => trivial
    | ok op =>
      rw [checked] at asks
      obtain ⟨mine,others⟩ := asks
      have passes : OpAsks ok op ∧ OpAsks ok₂ op := by
        cases op with
        | put request | delete request => exact ⟨trivial,trivial⟩
        | range request => exact pass _ mine
      obtain ⟨after,same⟩ := applyTxnOp_agrees writers related passes.1
      refine ⟨passes.2,?_⟩
      generalize applyTxnOp w op = run at after same others
      generalize applyTxnOp w' op = run' at after same ⊢
      obtain ⟨w₁,result⟩ := run
      obtain ⟨w₁',result'⟩ := run'
      obtain rfl : result = result' := same
      cases result with
      | error e => trivial
      | ok result => exact ih after others

theorem KvStore.Twins.asks {lo : Int} {s s' : KvStore} (twins : s.Twins lo s') {ok ok' : Int → Prop}
    (both : ∀ rev, ok rev → ok' rev → s.Alike lo s' rev) {cmd : KvRequest} (asks : Engine.Asks ok s.newWriter cmd)
    (asks' : Engine.Asks ok' s'.newWriter cmd) : Engine.Asks (s.Alike lo s') s.newWriter cmd := by
  cases cmd with
  | put cmd | delete cmd => trivial
  | txn cmd =>
    rw [Engine.Asks,← Engine.evalCondition_eq twins.writersAgree twins.newWriter] at asks'
    exact Engine.OpsAsk.both twins.writersAgree both twins.newWriter asks asks'

/-! ### Leases -/

def LeaseRequest.removes : LeaseRequest → List Int64
  | .revoke id => [id]
  | .expire ids => ids
  | _ => []

/-- What a command makes of the key set of a lease. -/
def LeaseRequest.keySetAfter (cmd : LeaseRequest) (id : Int64) (before : Option (SortedMap Bytes Unit)) :
    Option (SortedMap Bytes Unit) :=
  match cmd with
  | .grant new ttl => if id = new ∧ new ≠ 0 ∧ 0 < ttl then some (before.getD SortedMap.empty) else before
  | cmd => if id ∈ cmd.removes then none else before

theorem Fsm.applyLease_keySets {f : Fsm} (settled : f.store.Settled) (env : Env) (cmd : LeaseRequest) (id : Int64) :
    ((f.applyLease env cmd).1.lm.find? id).map (·.keySet) = cmd.keySetAfter id ((f.lm.find? id).map (·.keySet)) := by
  cases cmd with
  | grant new ttl =>
    change ((LeaseManager.grant env f.lm f.store new ttl).1.1.find? id).map _ = if _ then _ else _
    unfold LeaseManager.grant
    by_cases zero : new = 0
    · rw [if_pos zero,if_neg fun all => all.2.1 zero]
    · rw [if_neg zero]
      by_cases short : ttl ≤ 0
      · rw [if_pos short,if_neg fun all => not_lt.mpr short all.2.2]
      · rw [if_neg short,LeaseManager.addLease]
        cases found : f.lm.find? new with
        | some l =>
          by_cases same : id = new
          · rw [if_pos ⟨same,zero,not_le.mp short⟩,same,found]
            rfl
          · rw [if_neg fun all => same all.1]
        | none =>
          simp only [LeaseManager.find_pushToHeap,LeaseManager.find_save,Lease.new]
          by_cases same : id = new
          · rw [if_pos same,if_pos ⟨same,zero,not_le.mp short⟩,same,found]
            rfl
          · rw [if_neg same,if_neg fun all => same all.1]
  | revoke gone =>
    change ((LeaseManager.revoke env f.lm f.store gone).1.1.find? id).map _ = if id ∈ [gone] then none else _
    rw [LeaseManager.revoke_eq settled]
    cases found : f.lm.find? gone with
    | none =>
      by_cases same : id = gone
      · simp [same,found]
      · simp [same]
    | some l =>
      have named : l.id = gone := LeaseManager.id_of_find found
      simp only [LeaseManager.find_removeFromHeap,LeaseManager.find_remove,LeaseManager.find_save,List.mem_singleton]
      by_cases same : id = gone <;> simp [same,named]
  | keepAlive renewed => exact sameKeySets_keepAlive f.lm env f.store renewed id
  | lookup asked => rfl
  | checkpoint checkpoints => exact sameKeySets_checkpoint checkpoints f.lm f.store id
  | expire ids =>
    change ((LeaseManager.applyExpired env f.lm f.store ids).1.1.find? id).map _ = if id ∈ ids then none else _
    rw [LeaseManager.applyExpired_eq settled]
    change ((LeaseManager.collectExpired env ids f.lm [] 0).1.find? id).map _ = _
    rw [LeaseManager.find_collectExpired]
    split <;> rfl

theorem KvStore.SameKv.txn_nil (s : KvStore) : (s.txn []).SameKv s := by
  refine ⟨rfl,rfl,rfl,?_,rfl,rfl⟩
  change s.keyCount = s.keyCount + (0 - 0)
  omega

theorem Fsm.applyLease_store {f : Fsm} (settled : f.store.Settled) (env : Env) (cmd : LeaseRequest) :
    ∃ keys : List Bytes, (∀ key, key ∈ keys ↔ ∃ id ∈ cmd.removes, f.lm.attached id key = true) ∧
      (f.store.txn (keys.map .deleteKey)).SameKv (f.applyLease env cmd).1.store := by
  have nothing : KvStore.SameKv (f.store.txn []) f.store := .txn_nil _
  cases cmd with
  | grant id ttl =>
    exact ⟨[],by simp [LeaseRequest.removes],LeaseManager.grant_store KvStore.SameKv.persist_trans nothing env f.lm id ttl⟩
  | revoke id =>
    change ∃ keys : List Bytes, _ ∧ KvStore.SameKv _ (LeaseManager.revoke env f.lm f.store id).1.2
    rw [LeaseManager.revoke_eq settled]
    cases found : f.lm.find? id with
    | none => exact ⟨[],by simp [LeaseRequest.removes,LeaseManager.attached,found],nothing⟩
    | some l =>
      refine ⟨env.order l.keySet.keys,fun key => ?_,KvStore.SameKv.trans ?_ (.removeFromBackend _ _)⟩
      · rw [(env.perm _).mem_iff,SortedMap.mem_keys]
        simp [LeaseRequest.removes,LeaseManager.attached,found]
      · by_cases none : env.order l.keySet.keys = []
        · rw [if_pos none,none]
          exact nothing
        · rw [if_neg none]
          exact .refl _
  | keepAlive id =>
    exact ⟨[],by simp [LeaseRequest.removes],LeaseManager.keepAlive_store KvStore.SameKv.persist_trans nothing env f.lm id⟩
  | lookup id => exact ⟨[],by simp [LeaseRequest.removes],nothing⟩
  | checkpoint checkpoints =>
    exact ⟨[],by simp [LeaseRequest.removes],
      LeaseManager.applyCheckpoint_store KvStore.SameKv.persist_trans nothing checkpoints f.lm⟩
  | expire ids =>
    refine ⟨LeaseManager.expiredKeys env ids f.lm,fun key => LeaseManager.mem_expiredKeys,?_⟩
    change KvStore.SameKv _ (LeaseManager.applyExpired env f.lm f.store ids).1.2
    simp only [LeaseManager.applyExpired_eq settled,LeaseManager.collectExpired_keys,List.nil_append]
    exact .removeFromBackend _ _

/-- Which live keys are deleted matters to the history, not their order or how often they are listed. -/
theorem History.txn_deleteKeys_congr (h : History) {keys keys' : List Bytes}
    (same : ∀ key, (h.last.find? key).isSome = true → (key ∈ keys ↔ key ∈ keys')) :
    h.txn (keys.map .deleteKey) = h.txn (keys'.map .deleteKey) := by
  have erased : keys.foldl SortedMap.erase h.last = keys'.foldl SortedMap.erase h.last := by
    refine SortedMap.ext_find fun k => ?_
    rw [SortedMap.find_foldl_erase,SortedMap.find_foldl_erase]
    cases live : h.last.find? k with
    | none => simp
    | some item => simp [same k (by simp [live])]
  have changed : (keys.any fun key => (h.last.find? key).isSome) = keys'.any fun key => (h.last.find? key).isSome := by
    rw [Bool.eq_iff_iff,List.any_eq_true,List.any_eq_true]
    exact exists_congr fun key => and_congr_left (same key)
  rw [History.txn,History.txn,KvMap.applyOps_deleteKeys_eq,KvMap.applyOps_deleteKeys_eq,erased,changed]

end Kave
