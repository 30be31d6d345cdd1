import Kave.History

/-! What a write transaction does to the index and the records: a chain of single writes, each with the next
    position inside the transaction. Every property of a transaction follows from the property of one write. -/

namespace Kave

open TreeIndex

/-- The index and the records the store answers from. -/
structure Content where
  index : TreeIndex
  kv : KvBucket

def KvStore.content (s : KvStore) : Content := ⟨s.kvIndex,s.backend.buckets.kv⟩

/-- The content with the writes collected so far. -/
def Writer.content (w : Writer) : Content := ⟨w.store.kvIndex,(w.store.backend.buckets.applyBatch w.writeTx).kv⟩

/-- One write of transaction `next` at position `n`. -/
inductive WriteStep (next : Int) (n : Nat) (a : Content) : Write → Content → Prop
  | put {key : Bytes} {value : Option Bytes} {leaseID : Int64} {ti : TreeIndex}
      (wrote : a.index.Wrote ti key ⟨⟨next,n⟩,false⟩) :
      WriteStep next n a (.put key value leaseID)
        ⟨ti,a.kv.insert ⟨⟨next,n⟩,false⟩ (Writer.putEntry next (a.index.look key next) key value leaseID).stored⟩
  | delete {key : Bytes} {ti : TreeIndex} (alive : (a.index.look key next).isSome)
      (wrote : a.index.Wrote ti key ⟨⟨next,n⟩,true⟩) :
      WriteStep next n a (.delete key) ⟨ti,a.kv.insert ⟨⟨next,n⟩,true⟩ (Writer.tombstoneEntry next key).stored⟩

/-- The writes of transaction `next` from position `n` on. -/
inductive Chain (next : Int) : Nat → Content → List Write → Content → Prop
  | nil (n : Nat) (c : Content) : Chain next n c [] c
  | cons {n : Nat} {a b c : Content} {w : Write} {ws : List Write} (step : WriteStep next n a w b)
      (rest : Chain next (n + 1) b ws c) : Chain next n a (w :: ws) c

variable {a b : Content} {n : Nat} {ws : List Write} {w : Writer} {m : KvMap} {s : KvStore}

theorem WriteStep.wrote {next : Int} {w : Write} (step : WriteStep next n a w b) :
    ∃ key bk entry, bk.rev = ⟨next,n⟩ ∧ a.index.Wrote b.index key bk ∧ b.kv = a.kv.insert bk entry ∧
      entry.key = key := by
  cases step with
  | put wrote => exact ⟨_,_,_,rfl,wrote,rfl,rfl⟩
  | delete alive wrote => exact ⟨_,_,_,rfl,wrote,rfl,rfl⟩

theorem Chain.append {next : Int} {a b c : Content} {ws more : List Write} (first : Chain next n a ws b)
    (second : Chain next (n + ws.length) b more c) : Chain next n a (ws ++ more) c := by
  induction first with
  | nil => exact second
  | @cons n a b c w ws step rest ih =>
    refine .cons step (ih ?_)
    rw [show n + 1 + ws.length = n + (w :: ws).length by simp; omega]
    exact second

theorem Chain.invariant {next : Int} {P : Nat → Content → Prop}
    (keeps : ∀ n a w b, P n a → WriteStep next n a w b → P (n + 1) b)
    (chain : Chain next n a ws b) (start : P n a) : P (n + ws.length) b := by
  induction chain with
  | nil => exact start
  | @cons n a b c w ws step rest ih =>
    have final := ih (keeps n a w b start step)
    rwa [show n + 1 + ws.length = n + (w :: ws).length by simp; omega] at final

/-- Everything in the index was written before `rev`. -/
structure Content.Before (c : Content) (rev : Revision) : Prop where
  valid : c.index.Valid
  early : ∀ key, ∀ bk ∈ c.index.records key, 0 < bk.rev.main ∧ 0 ≤ bk.rev.sub ∧ bk.rev < rev

theorem WriteStep.before {next : Int} {w : Write} (positive : 0 < next)
    (before : a.Before ⟨next,n⟩) (step : WriteStep next n a w b) : b.Before ⟨next,(n + 1 : Nat)⟩ := by
  obtain ⟨key,bk,entry,rev,wrote,-,-⟩ := step.wrote
  have advance : (⟨next,n⟩ : Revision) < ⟨next,(n + 1 : Nat)⟩ := Revision.lt_iff.mpr (Or.inr ⟨rfl,by simp only; omega⟩)
  refine ⟨wrote.valid,fun k b member => ?_⟩
  rcases wrote.mem_records.mp member with old | ⟨-,new⟩
  · obtain ⟨main,sub,less⟩ := before.early k b old
    exact ⟨main,sub,less.trans advance⟩
  · rw [new,rev]
    exact ⟨positive,by simp,advance⟩

theorem Chain.before {next : Int} (positive : 0 < next)
    (chain : Chain next n a ws b) (before : a.Before ⟨next,n⟩) : b.Before ⟨next,(n + ws.length : Nat)⟩ :=
  chain.invariant (P := fun n c => c.Before ⟨next,n⟩) (fun _ _ _ _ kept step => step.before positive kept) before

/-! ### The writer makes such a chain -/

/-- `w'` continues `w` with `more` changes: only the index, the batch and the counters of the writer moved. -/
structure Writer.Extends (w w' : Writer) (more : List Entry) : Prop where
  store : w'.store = { w.store with kvIndex := w'.store.kvIndex }
  startRev : w'.startRev = w.startRev
  changes : w'.changes = w.changes ++ more
  buckets : w.store.backend.buckets.applyBatch w'.writeTx =
    { w.store.backend.buckets.applyBatch w.writeTx with kv := w'.content.kv }

theorem Writer.Extends.refl (w : Writer) : w.Extends w [] := ⟨rfl,rfl,by simp,rfl⟩

theorem Writer.Extends.trans {w w' w'' : Writer} {more last : List Entry} (first : w.Extends w' more)
    (second : w'.Extends w'' last) : w.Extends w'' (more ++ last) where
  store := by rw [second.store,first.store]
  startRev := second.startRev.trans first.startRev
  changes := by rw [second.changes,first.changes,List.append_assoc]
  buckets := by
    have same : w'.store.backend = w.store.backend := by rw [first.store]
    have buckets := second.buckets
    rw [same,first.buckets] at buckets
    exact buckets

/-- The transaction has room for its next write. -/
structure Writer.Fresh (w : Writer) : Prop where
  nonneg : 0 ≤ w.startRev.main
  before : w.content.Before ⟨w.startRev.main + 1,w.changes.length⟩

theorem Writer.Fresh.next {w w' : Writer} {more : List Entry} (fresh : w.Fresh)
    (extends_ : w.Extends w' more) (same : ws.length = more.length)
    (chain : Chain (w.startRev.main + 1) w.changes.length w.content ws w'.content) : w'.Fresh where
  nonneg := by rw [extends_.startRev]; exact fresh.nonneg
  before := by
    have positive : 0 < w.startRev.main + 1 := by have := fresh.nonneg; omega
    have final := chain.before positive fresh.before
    rwa [extends_.startRev, extends_.changes, List.length_append, ← same]

theorem Writer.put_spec (fresh : w.Fresh) (key : Bytes) (value : Option Bytes) (leaseID : Int64) :
    ∃ w', w.put key value leaseID = (w',none) ∧
      w.Extends w' [putEntry (w.startRev.main + 1) (w.content.index.look key (w.startRev.main + 1)) key value leaseID] ∧
      WriteStep (w.startRev.main + 1) w.changes.length w.content (.put key value leaseID) w'.content := by
  have positive : Revision.zero < ⟨w.startRev.main + 1,w.changes.length⟩ :=
    Revision.lt_of_main_lt (by have := fresh.nonneg; simp only [Revision.zero]; omega)
  obtain ⟨ti,run,wrote⟩ := put_wrote fresh.before.valid positive fun bk member => (fresh.before.early key bk member).2.2
  change w.store.kvIndex.put key _ = _ at run
  have answer : (w.store.kvIndex.unsafeGet key (w.startRev.main + 1)).toOption
      = w.content.index.look key (w.startRev.main + 1) := unsafeGet_toOption _ _ _
  refine ⟨(w.put key value leaseID).1,?_,⟨?_,?_,?_,?_⟩,?_⟩
  · simp only [Writer.put,run]
  · simp only [Writer.put,run]
  · simp only [Writer.put,run]
  · simp only [Writer.put,run,answer]
  · simp [Writer.put,run,Writer.content,Buckets.apply]
  · have step := @WriteStep.put _ _ _ _ value leaseID _ wrote
    simpa [Writer.put,run,Writer.content,Buckets.apply,answer,KvBucketKey.encodeRevisionAsBucketKey] using step

theorem Writer.deleteKey_spec (fresh : w.Fresh) {key : Bytes}
    (alive : (w.content.index.look key (w.startRev.main + 1)).isSome) :
    ∃ w', w.deleteKey key = (w',none) ∧ w.Extends w' [tombstoneEntry (w.startRev.main + 1) key] ∧
      WriteStep (w.startRev.main + 1) w.changes.length w.content (.delete key) w'.content := by
  obtain ⟨ti,run,wrote⟩ := @tombstone_wrote _ key ⟨w.startRev.main + 1,w.changes.length⟩ fresh.before.valid
    (fun bk member => (fresh.before.early key bk member).2.2) alive
  change w.store.kvIndex.tombstone key _ = _ at run
  refine ⟨(w.deleteKey key).1,?_,⟨?_,?_,?_,?_⟩,?_⟩
  · simp only [Writer.deleteKey,KvBucketKey.newKvBucketKey,run]
  · simp only [Writer.deleteKey,KvBucketKey.newKvBucketKey,run]
  · simp only [Writer.deleteKey,KvBucketKey.newKvBucketKey,run]
  · simp only [Writer.deleteKey,KvBucketKey.newKvBucketKey,run]
  · simp [Writer.deleteKey,KvBucketKey.newKvBucketKey,run,Writer.content,Buckets.apply]
  · have step := WriteStep.delete alive wrote
    simpa [Writer.deleteKey,KvBucketKey.newKvBucketKey,run,Writer.content,Buckets.apply] using step

theorem Writer.deleteKeys_spec {keys : List Bytes} (distinct : keys.Nodup) (fresh : w.Fresh)
    (alive : ∀ key ∈ keys, (w.content.index.look key (w.startRev.main + 1)).isSome) :
    ∃ w', deleteKeys keys w = (w',none) ∧ w.Extends w' (keys.map (tombstoneEntry (w.startRev.main + 1))) ∧
      Chain (w.startRev.main + 1) w.changes.length w.content (keys.map .delete) w'.content := by
  induction keys generalizing w with
  | nil => exact ⟨w,rfl,.refl w,.nil _ _⟩
  | cons key rest ih =>
    obtain ⟨notIn,distinctRest⟩ := List.nodup_cons.mp distinct
    obtain ⟨w₁,run₁,extends₁,step⟩ := w.deleteKey_spec fresh (alive key (by simp))
    have single : Chain (w.startRev.main + 1) w.changes.length w.content [.delete key] w₁.content :=
      .cons step (.nil _ _)
    have fresh₁ := fresh.next extends₁ rfl single
    have alive₁ : ∀ k ∈ rest, (w₁.content.index.look k (w₁.startRev.main + 1)).isSome := by
      intro k inside
      have different : k ≠ key := fun same => notIn (same ▸ inside)
      cases content : w₁.content with
      | mk index kv =>
        rw [content] at step
        cases step with
        | delete _ wrote => rw [wrote.look_other different,extends₁.startRev]; exact alive k (by simp [inside])
    obtain ⟨w₂,run₂,extends₂,chain⟩ := ih distinctRest fresh₁ alive₁
    refine ⟨w₂,by simp only [deleteKeys,run₁,run₂],?_,?_⟩
    · have both := extends₁.trans extends₂
      simpa [extends₁.startRev] using both
    · rw [extends₁.startRev,extends₁.changes,List.length_append] at chain
      exact .cons step chain

/-- The keys alive in the newest state of the transaction are the keys of `m`. -/
def Content.Domain (c : Content) (next : Int) (m : KvMap) : Prop :=
  ∀ key, (c.index.look key next).isSome = (m.find? key).isSome

theorem WriteStep.domain {next : Int} {w : Write} (step : WriteStep next n a w b)
    (domain : a.Domain next m) : b.Domain next (KvMap.write next m w) := by
  intro k
  cases step with
  | @put key value leaseID ti wrote =>
    by_cases same : k = key
    · subst same
      simp [wrote.look,KvMap.write,KvMap.put]
    · simpa [wrote.look_other same,KvMap.write,KvMap.put,same] using domain k
  | @delete key ti alive wrote =>
    by_cases same : k = key
    · subst same
      simp [wrote.look,KvMap.write]
    · simpa [wrote.look_other same,KvMap.write,same] using domain k

theorem Chain.domain {next : Int} (chain : Chain next n a ws b)
    (domain : a.Domain next m) : b.Domain next (KvMap.writes next m ws) := by
  induction chain generalizing m with
  | nil => exact domain
  | cons step rest ih => exact ih (step.domain domain)

theorem Writer.Fresh.look_start (fresh : w.Fresh) (key : Bytes) :
    w.content.index.look key (if w.changes.length > 0 then w.startRev.main + 1 else w.startRev.main) =
      w.content.index.look key (w.startRev.main + 1) := by
  split
  · rfl
  next none =>
    refine (fresh.before.valid.look_now (fun bk member => ?_) (by omega)).symm
    obtain ⟨-,sub,less⟩ := fresh.before.early key bk member
    rcases Revision.lt_iff.mp less with below | ⟨-,below⟩
    · exact Int.lt_add_one_iff.mp below
    · simp only at below
      omega

theorem Writer.Fresh.listed (fresh : w.Fresh)
    (domain : w.content.Domain (w.startRev.main + 1) m) (key : Bytes) (endKey : Option Bytes) :
    (w.store.kvIndex.range key endKey (if w.changes.length > 0 then w.startRev.main + 1 else w.startRev.main)).map (·.1) =
      (m.filter fun k _ => rangeSelects key endKey k).keys := by
  have valid : w.store.kvIndex.Valid := fresh.before.valid
  rw [valid.range_eq,List.map_map]
  refine SortedMap.keys_eq fun k => ?_
  have answer := fresh.look_start k
  change w.store.kvIndex.look k _ = _ at answer
  rw [SortedMap.isSome_find_filter,SortedMap.isSome_find_filter,find_live,answer,domain k]

theorem Writer.deleteRange_spec (fresh : w.Fresh)
    (domain : w.content.Domain (w.startRev.main + 1) m) (key : Bytes) (endKey : Option Bytes) :
    let keys := (m.filter fun k _ => rangeSelects key endKey k).keys
    ∃ w', w.deleteRange key endKey = (w',none) ∧
      w.Extends w' (keys.map (tombstoneEntry (w.startRev.main + 1))) ∧
      Chain (w.startRev.main + 1) w.changes.length w.content (keys.map .delete) w'.content := by
  intro keys
  rw [deleteRange,fresh.listed domain]
  refine deleteKeys_spec (SortedMap.keys_sorted _).nodup fresh fun k inside => ?_
  have member := SortedMap.mem_keys.mp inside
  rw [SortedMap.isSome_find_filter,Bool.and_eq_true] at member
  rw [domain k]
  exact member.1

theorem Writer.runOp_spec (fresh : w.Fresh) (domain : w.content.Domain (w.startRev.main + 1) m)
    (op : Op) :
    ∃ w' more, w.runOp op = (w',none) ∧ w.Extends w' more ∧ (KvMap.opWrites m op).length = more.length ∧
      Chain (w.startRev.main + 1) w.changes.length w.content (KvMap.opWrites m op) w'.content := by
  cases op with
  | put key value leaseID =>
    obtain ⟨w',run,extends_,step⟩ := w.put_spec fresh key value leaseID
    exact ⟨w',_,run,extends_,rfl,.cons step (.nil _ _)⟩
  | deleteKey key =>
    obtain ⟨w',run,extends_,chain⟩ := w.deleteRange_spec fresh domain key none
    exact ⟨w',_,run,extends_,by simp [KvMap.opWrites],chain⟩
  | deleteRange key endKey =>
    obtain ⟨w',run,extends_,chain⟩ := w.deleteRange_spec fresh domain key endKey
    exact ⟨w',_,run,extends_,by simp [KvMap.opWrites],chain⟩

/-- In a well-formed store no call of a transaction fails, and the transaction makes exactly the writes of its
    calls. -/
theorem Writer.runOps_spec (ops : List Op) (fresh : w.Fresh)
    (domain : w.content.Domain (w.startRev.main + 1) m) :
    ∃ w' more, runOps ops w = (w',none) ∧ w.Extends w' more ∧
      (KvMap.opsWrites (w.startRev.main + 1) ops m).length = more.length ∧
      Chain (w.startRev.main + 1) w.changes.length w.content (KvMap.opsWrites (w.startRev.main + 1) ops m) w'.content := by
  induction ops generalizing w m with
  | nil => exact ⟨w,[],rfl,.refl w,rfl,.nil _ _⟩
  | cons op rest ih =>
    obtain ⟨w₁,more₁,run₁,extends₁,count₁,chain₁⟩ := w.runOp_spec fresh domain op
    have domain₁ := chain₁.domain domain
    rw [← extends₁.startRev] at domain₁
    obtain ⟨w₂,more₂,run₂,extends₂,count₂,chain₂⟩ := ih (fresh.next extends₁ count₁ chain₁) domain₁
    rw [extends₁.startRev] at count₂ chain₂
    refine ⟨w₂,_,by simp only [runOps,run₁,run₂],extends₁.trans extends₂,?_,?_⟩
    · simp [KvMap.opsWrites,count₁,count₂]
    · refine chain₁.append ?_
      rw [extends₁.changes,List.length_append,← count₁] at chain₂
      exact chain₂

/-! ### Committed transactions -/

/-- What a committed transaction with the writes `ws` leaves. -/
structure Committed (s s' : KvStore) (ws : List Write) : Prop where
  chain : Chain (s.currentRev.main + 1) 0 s.content ws s'.content
  current : s'.currentRev.main = if ws = [] then s.currentRev.main else s.currentRev.main + 1
  compacted : s'.compactedMainRev = s.compactedMainRev
  applyIndex : s'.applyIndex = s.applyIndex
  raftTerm : s'.raftTerm = s.raftTerm
  scheduled : s'.backend.buckets.metadata.scheduledCompactedRev = s.backend.buckets.metadata.scheduledCompactedRev
  finished : s'.backend.buckets.metadata.finishedCompactedRev = s.backend.buckets.metadata.finishedCompactedRev
  lease : s'.backend.buckets.lease = s.backend.buckets.lease
  ot : s'.backend.buckets.ot = s.backend.buckets.ot

/-- The store is between transactions, and its index knows of nothing after the current one. -/
structure KvStore.Settled (s : KvStore) : Prop where
  nonneg : 0 ≤ s.currentRev.main
  before : s.content.Before ⟨s.currentRev.main + 1,0⟩

theorem KvStore.Settled.fresh (settled : s.Settled) : s.newWriter.Fresh := ⟨settled.nonneg,settled.before⟩

theorem Writer.endTx_content (w : Writer) : w.endTx.content = w.content := by
  simp only [KvStore.content,Writer.content,Writer.endTx,Backend.commit_buckets,Buckets.applyBatch_append]
  by_cases none : w.changes = [] <;> by_cases applied : w.store.applyIndex > 0 <;> simp [none,applied,Buckets.apply]

theorem Writer.endTx_spec {more : List Entry}
    (extends_ : s.newWriter.Extends w more) (count : ws.length = more.length)
    (chain : Chain (s.currentRev.main + 1) 0 s.content ws w.content) : Committed s w.endTx ws := by
  have store := extends_.store
  have changes : w.changes = more := by simpa [KvStore.newWriter] using extends_.changes
  have empty : w.changes = [] ↔ ws = [] := by rw [changes,← List.length_eq_zero_iff,← count,List.length_eq_zero_iff]
  have buckets := extends_.buckets
  simp only [KvStore.newWriter] at store buckets
  have backend : w.store.backend = s.backend := by rw [store]
  have batch : ∀ metaOps, w.store.backend.buckets.applyBatch (w.writeTx ++ metaOps) =
      ({ s.backend.buckets with kv := w.content.kv }).applyBatch metaOps := by
    intro metaOps
    rw [Buckets.applyBatch_append,backend,buckets]
    rfl
  constructor
  · rw [w.endTx_content]; exact chain
  · have current : w.store.currentRev = s.currentRev := by rw [store]
    by_cases none : ws = []
    · simp [Writer.endTx,empty.mpr none,none,current]
    · simp [Writer.endTx,mt empty.mp none,none,current]
  · simp only [Writer.endTx]; rw [store]
  · simp only [Writer.endTx]; rw [store]
  · simp only [Writer.endTx]; rw [store]
  all_goals
    simp only [Writer.endTx,Backend.commit_buckets,batch]
    by_cases none : w.changes = [] <;> by_cases applied : w.store.applyIndex > 0 <;> simp [none,applied,Buckets.apply]

theorem KvStore.Settled.txn (settled : s.Settled)
    (domain : s.content.Domain (s.currentRev.main + 1) m) (ops : List Op) :
    Committed s (s.txn ops) (KvMap.opsWrites (s.currentRev.main + 1) ops m) := by
  obtain ⟨w,more,run,extends_,count,chain⟩ := Writer.runOps_spec ops settled.fresh domain
  rw [KvStore.txn,run]
  exact Writer.endTx_spec extends_ count chain

theorem Committed.settled {s s' : KvStore} (settled : s.Settled) (committed : Committed s s' ws) :
    s'.Settled := by
  have positive : 0 < s.currentRev.main + 1 := by have := settled.nonneg; omega
  have final := committed.chain.before positive settled.before
  by_cases none : ws = []
  · have current := committed.current
    simp only [none,if_true] at current
    subst none
    exact ⟨by rw [current]; exact settled.nonneg,by rw [current]; simpa using final⟩
  · have current := committed.current
    simp only [none,if_false] at current
    refine ⟨by rw [current]; exact positive.le,final.valid,fun key bk member => ?_⟩
    obtain ⟨main,sub,less⟩ := final.early key bk member
    refine ⟨main,sub,less.trans (Revision.lt_of_main_lt ?_)⟩
    rw [current]
    exact Int.lt_succ _

end Kave
