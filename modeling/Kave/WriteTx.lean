import Kave.BatchWrites

/-! A write transaction of the backend, from `Lock` to `Unlock`, over either byte store. Three layers have a state of their own: a
    bolt file has at most one open write transaction, a batch is open or closed, and the backend has its lock and the batch that is
    under way. The protocol of the callers is `Lock`, the writes, `Commit`, after an error `Rollback`, and `Unlock`. -/

namespace Kave

/-- What a commit depends on besides the batch: the orders in which the maps are iterated, and which calls of bolt fail. -/
structure CommitEnv (B : Type) [LinearOrder B] where
  deletes : ∀ wc : WriteCollector B, Iteration wc.deletes
  puts : ∀ wc : WriteCollector B, Iteration wc.puts
  fails : BatchCall B → Bool
  commitFails : Bool

inductive CommitError
  | storage (e : StorageError)
  /-- an error of `Put` or `Delete` in a bolt bucket -/
  | bucket
  /-- an error of the commit of a bolt transaction -/
  | commit
deriving DecidableEq, Repr

/-- What a write transaction uses of `ByteStore` and `Batch`. There may be no new batch for the time being. -/
structure ByteStore (B S Bat : Type) [LinearOrder B] where
  newBatch : S → Option (S × Bat)
  call : Bat → BatchCall B → Bat × Option StorageError
  commit : CommitEnv B → S → Bat → S × Bat × Except CommitError CommitInfo
  abort : S → Bat → S × Bat

/-- The backend with its lock, its store and the batch of the write transaction, which may be nil. -/
structure TxBackend (S Bat : Type) where
  rwlock : Bool
  store : S
  batch : Option Bat

/-- What can go wrong in a step other than an error. -/
inductive TxFault
  /-- The step waits and nothing will end the waiting. -/
  | blocked
  /-- A method of a nil batch is called, which panics. -/
  | nilBatch
deriving DecidableEq, Repr

/-! ### The steps of a transaction -/

section
variable {B S Bat : Type} [LinearOrder B] (store : ByteStore B S Bat)

namespace TxBackend

def lock (b : TxBackend S Bat) : TxBackend S Bat × Option TxFault :=
  if b.rwlock then (b,some .blocked)
  else
    match store.newBatch b.store with
    -- the lock of the backend is held while the new batch is waited for
    | none => ({ b with rwlock := true },some .blocked)
    | some (s,batch) => (⟨true,s,some batch⟩,none)

def unlock (b : TxBackend S Bat) : TxBackend S Bat := { b with rwlock := false }

/-- `UnsafePut` and `UnsafeDelete`, with the error that they return -/
def write (b : TxBackend S Bat) (c : BatchCall B) : TxBackend S Bat × Option TxFault × Option StorageError :=
  match b.batch with
  | none => (b,some .nilBatch,none)
  | some batch => ({ b with batch := some (store.call batch c).1 },none,(store.call batch c).2)

/-- The writes of a transaction; one that the batch refuses leaves it as it is. -/
def writeAll (calls : List (BatchCall B)) (b : TxBackend S Bat) : TxBackend S Bat × Option TxFault :=
  loopAll (fun c b => ((write store b c).1,(write store b c).2.1)) calls b

/-- `Commit`; the deferred function takes the batch away in any case. -/
def commit (env : CommitEnv B) (b : TxBackend S Bat) : TxBackend S Bat × Except TxFault (Except CommitError CommitInfo) :=
  match b.batch with
  | none => (b,.error .nilBatch)
  | some batch =>
    let (s,_,result) := store.commit env b.store batch
    (⟨b.rwlock,s,none⟩,.ok result)

def rollback (b : TxBackend S Bat) : TxBackend S Bat × Option TxFault :=
  match b.batch with
  | none => (b,some .nilBatch)
  | some batch => (⟨b.rwlock,(store.abort b.store batch).1,none⟩,none)

end TxBackend

/-- How a transaction ends: the backend after it, the fault it has met, and what `Commit` has returned. -/
structure TxEnd (S Bat : Type) where
  backend : TxBackend S Bat
  fault : Option TxFault
  result : Option (Except CommitError CommitInfo)

/-- A transaction as the callers run it. `Unlock` is deferred, so that a panic unlocks the backend as well. -/
def transact (env : CommitEnv B) (calls : List (BatchCall B)) (b : TxBackend S Bat) : TxEnd S Bat :=
  match b.lock store with
  | (b,some fault) => ⟨b,some fault,none⟩
  | (b,none) =>
    match b.writeAll store calls with
    | (b,some fault) => ⟨b.unlock,some fault,none⟩
    | (b,none) =>
      match b.commit store env with
      | (b,.error fault) => ⟨b.unlock,some fault,none⟩
      | (b,.ok (.ok info)) => ⟨b.unlock,none,some (.ok info)⟩
      | (b,.ok (.error e)) => ⟨(b.rollback store).1.unlock,(b.rollback store).2,some (.error e)⟩

theorem transact_eq (env : CommitEnv B) (calls : List (BatchCall B)) {b : TxBackend S Bat} (free : b.rwlock = false) {s : S} {batch : Bat}
    (begins : store.newBatch b.store = some (s,batch)) :
    let ended := store.commit env s (calls.foldl (fun batch c => (store.call batch c).1) batch)
    transact store env calls b = ⟨⟨false,ended.1,none⟩,if ended.2.2.isOk then none else some .nilBatch,some ended.2.2⟩ := by
  intro ended
  have written : ∀ (calls : List (BatchCall B)) (batch : Bat), TxBackend.writeAll store calls ⟨true,s,some batch⟩ =
      (⟨true,s,some (calls.foldl (fun batch c => (store.call batch c).1) batch)⟩,none) := by
    intro calls
    induction calls with
    | nil => exact fun _ => rfl
    | cons c rest ih => exact fun batch => ih _
  have locked : b.lock store = (⟨true,s,some batch⟩,none) := by
    rw [TxBackend.lock,if_neg (by simp [free]),begins]
  have committed : TxBackend.commit store env ⟨true,s,some (calls.foldl (fun batch c => (store.call batch c).1) batch)⟩ =
      (⟨true,ended.1,none⟩,.ok ended.2.2) := rfl
  rw [transact,locked]
  simp only [written,committed]
  cases ended.2.2 with
  | ok info => rfl
  | error e => rfl

end

/-! ### The stores -/

section
variable {B : Type} [LinearOrder B]

/-- The store in memory. -/
def inmemStore : ByteStore B (InmemStore B) (InmemBatch B) where
  newBatch s := some (s,Batch.new s)
  call := Batch.call
  commit env _ b :=
    let ended := b.commit (env.deletes b.wc) (env.puts b.wc)
    (ended.1.inner,ended.1,ended.2.mapError .storage)
  abort s b := (s,if b.closed then b else { b with closed := true, wc := WriteCollector.new })

/-- A bolt file, and whether a write transaction is open. -/
structure Bolt (B : Type) [LinearOrder B] where
  store : BoltStore B
  writer : Bool

namespace Bolt

/-- A body of the loops of a commit, with the call of bolt at its end. -/
def calling {W : Type} (body : B → Bytes → W → Progress BoltStore.Files → Progress BoltStore.Files × Option StorageError)
    (fails : B → Bytes → W → Bool) (bucket : B) (key : Bytes) (w : W) (p : Progress BoltStore.Files) :
    Progress BoltStore.Files × Option CommitError :=
  match body bucket key w p with
  | (p,some e) => (p,some (.storage e))
  | (p,none) => (p,if fails bucket key w then some .bucket else none)

/-- The test of a bucket before the loop over its keys. -/
def enter (bucketMap : SortedMap B Bytes) (bucket : B) (p : Progress BoltStore.Files) : Option CommitError :=
  (DurableBatch.enter bucketMap bucket p).map .storage

/-- The loops of `Commit` over the deletes and over the puts. -/
def loops (env : CommitEnv B) (b : DurableBatch B) : Progress BoltStore.Files × Option CommitError :=
  let commitDelete := calling (DurableBatch.commitDelete b.inner.bucketMap) fun bucket key _ => env.fails (.delete bucket key)
  let commitPut := calling (DurableBatch.commitPut b.inner.bucketMap) fun bucket key value => env.fails (.put bucket key value)
  match (env.deletes b.wc).run (enter b.inner.bucketMap) commitDelete ⟨b.inner.db,0,⟨0,0⟩⟩ with
  | (p,some e) => (p,some e)
  | (p,none) => (env.puts b.wc).run (enter b.inner.bucketMap) commitPut p

/-- `Commit` of a durable batch. An error of the loops is returned without an end of the transaction; the commit of the transaction
    ends it, and rolls it back if it fails. -/
def commit (env : CommitEnv B) (db : Bolt B) (b : DurableBatch B) : Bolt B × DurableBatch B × Except CommitError CommitInfo :=
  if b.closed then (db,b,.error (.storage .batchClosed))
  else
    match loops env b with
    | (_,some e) => (db,{ b with closed := true },.error e)
    | (p,none) =>
      if env.commitFails then ({ db with writer := false },{ b with closed := true },.error .commit)
      else
        let store := { b.inner with db := p.contents, sz := b.inner.sz + p.totalDelta }
        (⟨store,false⟩,⟨store,true,b.wc⟩,.ok p.info)

end Bolt

/-- The store in a bolt file. -/
def boltStore : ByteStore B (Bolt B) (DurableBatch B) where
  newBatch db := if db.writer then none else some ({ db with writer := true },Batch.new db.store)
  call := Batch.call
  commit := Bolt.commit
  abort db b := if b.closed then (db,b) else ({ db with writer := false },{ b with closed := true, wc := WriteCollector.new })

/-! ### Commits -/

theorem loopAll_error {α σ E : Type} {body : α → σ → σ × Option E} {l : List α} {s s' : σ} {e : E} (failed : loopAll body l s = (s',some e)) :
    ∃ a s₁ s₂, body a s₁ = (s₂,some e) := by
  induction l generalizing s with
  | nil => cases failed
  | cons a rest ih =>
    rw [loopAll] at failed
    rcases first : body a s with ⟨s₁,_ | e'⟩
    · rw [first] at failed
      exact ih failed
    · rw [first] at failed
      cases failed
      exact ⟨a,s,_,first⟩

theorem loopAll_mapError {α σ E E' : Type} (f : E → E') {body : α → σ → σ × Option E} {body' : α → σ → σ × Option E'}
    (same : ∀ a s, body' a s = ((body a s).1,(body a s).2.map f)) (l : List α) (s : σ) :
    loopAll body' l s = ((loopAll body l s).1,(loopAll body l s).2.map f) := by
  induction l generalizing s with
  | nil => rfl
  | cons a rest ih =>
    rw [loopAll,loopAll,same]
    rcases body a s with ⟨s',_ | e⟩
    · exact ih s'
    · rfl

section
variable {W σ E E' : Type} {m : SortedMap B (SortedMap Bytes W)}

theorem Iteration.run_error {order : Iteration m} {enter : B → σ → Option E} {body : B → Bytes → W → σ → σ × Option E} {s s' : σ} {e : E}
    (failed : order.run enter body s = (s',some e)) :
    (∃ bucket s₁, enter bucket s₁ = some e) ∨ ∃ bucket key w s₁ s₂, body bucket key w s₁ = (s₂,some e) := by
  obtain ⟨item,s₁,s₂,failed⟩ := loopAll_error failed
  cases entered : enter item.1 s₁ with
  | some e' =>
    simp only [entered,Prod.mk.injEq,Option.some.injEq] at failed
    exact .inl ⟨item.1,s₁,by rw [entered,failed.2]⟩
  | none =>
    simp only [entered] at failed
    obtain ⟨p,s₃,s₄,failed⟩ := loopAll_error failed
    exact .inr ⟨item.1,p.1,p.2,s₃,s₄,failed⟩

theorem Iteration.run_mapError (f : E → E') (order : Iteration m) (enter : B → σ → Option E) {enter' : B → σ → Option E'}
    (enters : ∀ bucket s, enter' bucket s = (enter bucket s).map f)
    {body : B → Bytes → W → σ → σ × Option E} {body' : B → Bytes → W → σ → σ × Option E'}
    (same : ∀ bucket key w s, body' bucket key w s = ((body bucket key w s).1,(body bucket key w s).2.map f)) (s : σ) :
    order.run enter' body' s = ((order.run enter body s).1,(order.run enter body s).2.map f) := by
  refine loopAll_mapError f (fun item s => ?_) order.items s
  simp only [enters]
  cases enter item.1 s with
  | some e => rfl
  | none => exact loopAll_mapError f (fun p s => same item.1 p.1 p.2 s) item.2 s

end

namespace Bolt

variable {e : CommitError} {b : DurableBatch B}

omit [LinearOrder B] in
theorem calling_ne_commit {W : Type} {body : B → Bytes → W → Progress BoltStore.Files → Progress BoltStore.Files × Option StorageError}
    {fails : B → Bytes → W → Bool} {bucket : B} {key : Bytes} {w : W} {p p' : Progress BoltStore.Files}
    (failed : calling body fails bucket key w p = (p',some e)) : e ≠ .commit := by
  rw [calling] at failed
  generalize body bucket key w p = ended at failed
  rcases ended with ⟨p₁,_ | e₁⟩
  · by_cases fault : fails bucket key w = true
    · simp only [fault,if_true,Prod.mk.injEq,Option.some.injEq] at failed
      simp [← failed.2]
    · simp [fault] at failed
  · simp only [Prod.mk.injEq,Option.some.injEq] at failed
    simp [← failed.2]

theorem run_ne_commit {W : Type} {m : SortedMap B (SortedMap Bytes W)} {order : Iteration m} {bucketMap : SortedMap B Bytes}
    {body : B → Bytes → W → Progress BoltStore.Files → Progress BoltStore.Files × Option StorageError} {fails : B → Bytes → W → Bool}
    {p p' : Progress BoltStore.Files} (failed : order.run (enter bucketMap) (calling body fails) p = (p',some e)) :
    e ≠ .commit := by
  rcases order.run_error failed with ⟨bucket,p₁,entered⟩ | ⟨bucket,key,w,p₁,p₂,called⟩
  · obtain ⟨e₁,-,rfl⟩ := Option.map_eq_some_iff.mp entered
    exact CommitError.noConfusion
  · exact calling_ne_commit called

theorem loops_ne_commit {env : CommitEnv B} {p : Progress BoltStore.Files}
    (failed : loops env b = (p,some e)) : e ≠ .commit := by
  rw [loops] at failed
  split at failed
  next first =>
    cases failed
    exact run_ne_commit first
  next => exact run_ne_commit failed

/-- Where a commit leaves the write transaction: it is open if and only if the commit has failed before that of the transaction. -/
theorem commit_writer (env : CommitEnv B) (db : Bolt B) (begun : db.writer = true) (opened : b.closed = false) :
    (∀ info, (commit env db b).2.2 = .ok info → (commit env db b).1.writer = false) ∧
      ∀ e, (commit env db b).2.2 = .error e → ((commit env db b).1.writer = false ↔ e = .commit) := by
  rw [commit,if_neg (by simp [opened])]
  rcases ran : loops env b with ⟨p,_ | e⟩
  · by_cases fails : env.commitFails = true
    · simp [fails,eq_comm]
    · simp [fails]
  · -- the file is as it was, with the transaction open
    have other := loops_ne_commit ran
    simp only [reduceCtorEq,false_implies,implies_true,Except.error.injEq,true_and]
    rintro e rfl
    simp [begun,other]

/-- If no call of bolt fails, the loops are those of the commit of a batch over a file that is only a map. -/
theorem loops_faultless {env : CommitEnv B} (fine : ∀ c, env.fails c = false) (opened : b.closed = false)
    {info : CommitInfo} (ok : (DurableBatch.commit b (env.deletes b.wc) (env.puts b.wc)).2 = .ok info) :
    ∃ p, loops env b = (p,none) ∧ p.info = info := by
  have called : ∀ {W : Type} (body : B → Bytes → W → Progress BoltStore.Files → Progress BoltStore.Files × Option StorageError)
      (fails : B → Bytes → W → Bool), (∀ bucket key w, fails bucket key w = false) → ∀ bucket key w p,
      calling body fails bucket key w p = ((body bucket key w p).1,(body bucket key w p).2.map .storage) := by
    intro W body fails never bucket key w p
    rw [calling,never]
    rcases body bucket key w p with ⟨p',_ | e⟩ <;> rfl
  have entered : ∀ bucket p, enter b.inner.bucketMap bucket p = (DurableBatch.enter b.inner.bucketMap bucket p).map .storage :=
    fun _ _ => rfl
  have first := (env.deletes b.wc).run_mapError CommitError.storage (DurableBatch.enter b.inner.bucketMap) entered
    (called (DurableBatch.commitDelete b.inner.bucketMap) (fun bucket key _ => env.fails (.delete bucket key)) fun _ _ _ => fine _)
    ⟨b.inner.db,0,⟨0,0⟩⟩
  have second := (env.puts b.wc).run_mapError CommitError.storage (DurableBatch.enter b.inner.bucketMap) entered
    (called (DurableBatch.commitPut b.inner.bucketMap) (fun bucket key value => env.fails (.put bucket key value)) fun _ _ _ => fine _)
  rw [DurableBatch.commit,if_neg (by simp [opened])] at ok
  rw [loops]
  simp only [first]
  generalize (env.deletes b.wc).run (DurableBatch.enter b.inner.bucketMap) (DurableBatch.commitDelete b.inner.bucketMap)
    ⟨b.inner.db,0,⟨0,0⟩⟩ = deleted at ok ⊢
  rcases deleted with ⟨p,_ | e⟩
  · simp only [Option.map_none,second] at ok ⊢
    generalize (env.puts b.wc).run (DurableBatch.enter b.inner.bucketMap) (DurableBatch.commitPut b.inner.bucketMap) p = put at ok ⊢
    rcases put with ⟨p',_ | e⟩
    · exact ⟨p',rfl,Except.ok.inj ok⟩
    · simp at ok
  · simp at ok

end Bolt

/-! ### The protocol -/

/-- Maps that are iterated in the order of their keys, and no failing call of bolt. -/
def CommitEnv.plain : CommitEnv B := ⟨fun _ => .sorted _,fun _ => .sorted _,fun _ => false,false⟩

/-- A transaction whose writes have keys and are of buckets that are in the file is committed, if no call of bolt fails. -/
def Usable (b : TxBackend (Bolt B) (DurableBatch B)) : Prop :=
  ∀ (env : CommitEnv B) (calls : List (BatchCall B)), (∀ c, env.fails c = false) → env.commitFails = false →
    (∀ c ∈ calls, c.key ≠ [] ∧ BoltStore.Has b.store.store.bucketMap b.store.store.db c.bucket) →
    ∃ info, (transact boltStore env calls b).result = some (.ok info) ∧ (transact boltStore env calls b).fault = none

theorem usable_iff {b : TxBackend (Bolt B) (DurableBatch B)} (free : b.rwlock = false) : Usable b ↔ b.store.writer = false := by
  constructor
  · intro usable
    obtain ⟨info,ok,-⟩ := usable .plain [] (fun _ => rfl) rfl fun c member => absurd member List.not_mem_nil
    by_contra busy
    have waits : transact boltStore .plain [] b = ⟨{ b with rwlock := true },some .blocked,none⟩ := by
      rw [transact,TxBackend.lock,if_neg (by simp [free])]
      simp only [boltStore,Bool.not_eq_false] at busy ⊢
      simp only [busy,if_true]
    rw [waits] at ok
    cases ok
  · intro idle env calls fine commits known
    have begins : boltStore.newBatch b.store = some ({ b.store with writer := true },Batch.new b.store.store) := by
      simp only [boltStore,idle,Bool.false_eq_true,if_false]
    have named : ∀ c ∈ calls, c.key ≠ [] := fun c member => (known c member).1
    rw [transact_eq boltStore env calls free begins]
    have batch : calls.foldl (fun batch c => (boltStore.call batch c).1) (Batch.new b.store.store : DurableBatch B) =
        ⟨b.store.store,false,calls.foldl WriteCollector.record WriteCollector.new⟩ := Batch.calls_eq named _ rfl
    simp only [batch]
    obtain ⟨keyed,keyed'⟩ := WriteCollector.keys_named named
    have buckets := WriteCollector.buckets_called (P := BoltStore.Has b.store.store.bucketMap b.store.store.db) fun c member => (known c member).2
    obtain ⟨info,ok,-⟩ := DurableBatch.commit_spec (b := ⟨b.store.store,false,calls.foldl WriteCollector.record WriteCollector.new⟩) rfl
      (fun bucket => (buckets bucket).2) (fun bucket => (buckets bucket).1) keyed keyed' (env.deletes _) (env.puts _)
    obtain ⟨p,ran,is⟩ := Bolt.loops_faultless fine rfl ok
    have committed : ((boltStore.commit env { b.store with writer := true }
        ⟨b.store.store,false,calls.foldl WriteCollector.record WriteCollector.new⟩).2.2 : Except CommitError CommitInfo) = .ok info := by
      simp only [boltStore,Bolt.commit,Bool.false_eq_true,if_false,ran,commits,is]
    rw [committed]
    exact ⟨info,rfl,rfl⟩

/-- A transaction that is run by the callers' protocol ends without the use of a discarded batch, with its bolt transaction finished and
    the backend ready for the next, if and only if `Commit` returns no error. After an error `Rollback` panics, and the bolt transaction
    is finished and the backend ready if and only if it is the commit of the bolt transaction that has failed. In memory `Rollback`
    panics after an error as well. -/
theorem failed_commit_is_recovered_iff (env : CommitEnv B) (calls : List (BatchCall B)) :
    (∀ b : TxBackend (Bolt B) (DurableBatch B), b.rwlock = false → b.store.writer = false →
      let ended := transact boltStore env calls b
      (ended.fault = none ∧ ended.backend.store.writer = false ∧ Usable ended.backend ↔ ∃ info, ended.result = some (.ok info)) ∧
        ∀ e, ended.result = some (.error e) → ended.fault = some .nilBatch ∧
          (ended.backend.store.writer = false ↔ e = .commit) ∧ (Usable ended.backend ↔ e = .commit)) ∧
    ∀ b : TxBackend (InmemStore B) (InmemBatch B), b.rwlock = false →
      let ended := transact inmemStore env calls b
      (ended.fault = none ↔ ∃ info, ended.result = some (.ok info)) ∧ ∀ e, ended.result = some (.error e) → ended.fault = some .nilBatch := by
  constructor
  · intro b free idle ended
    have begins : boltStore.newBatch b.store = some ({ b.store with writer := true },Batch.new b.store.store) := by
      simp only [boltStore, idle, Bool.false_eq_true, if_false]
    obtain ⟨named,-,batch⟩ := Batch.calls_filter calls b.store.store
    have is := transact_eq boltStore env calls free begins
    have batch : calls.foldl (fun batch c => (boltStore.call batch c).1) (Batch.new b.store.store : DurableBatch B) =
        ⟨b.store.store,false,named.foldl WriteCollector.record WriteCollector.new⟩ := batch
    simp only [batch] at is
    obtain ⟨closes,remains⟩ := Bolt.commit_writer env { b.store with writer := true } rfl
      (b := ⟨b.store.store,false,named.foldl WriteCollector.record WriteCollector.new⟩) rfl
    have usable : Usable ended.backend ↔ ended.backend.store.writer = false := usable_iff (congrArg (fun e => e.backend.rwlock) is)
    rw [usable]
    change ended = ⟨⟨false,(Bolt.commit env _ _).1,none⟩,if (Bolt.commit env _ _).2.2.isOk then none else some .nilBatch,
      some (Bolt.commit env _ _).2.2⟩ at is
    rw [is]
    cases result : (Bolt.commit env { b.store with writer := true }
      ⟨b.store.store,false,named.foldl WriteCollector.record WriteCollector.new⟩).2.2 with
    | ok info => simp [Except.isOk, Except.toBool, closes info result]
    | error e =>
      have writer := remains e result
      simp [Except.isOk, Except.toBool, writer]
  · intro b free ended
    have is := transact_eq inmemStore env calls free rfl
    change ended = _ at is
    rw [is]
    cases (inmemStore.commit env b.store (calls.foldl (fun batch c => (inmemStore.call batch c).1) (Batch.new b.store))).2.2 with
    | ok info => simp [Except.isOk, Except.toBool]
    | error e => simp [Except.isOk, Except.toBool]

end

/-- A put that is committed. -/
theorem failed_commit_is_recovered_put :
    let b : TxBackend (Bolt Nat) (DurableBatch Nat) := ⟨false,⟨BoltStore.oneBucket SortedMap.empty 0,false⟩,none⟩
    let ended := transact boltStore .plain [.put 0 [97] (some [1])] b
    ended.result = some (.ok ⟨1,0⟩) ∧ ended.fault = none ∧ ended.backend.store.writer = false ∧ Usable ended.backend := by
  intro b ended
  have ok : ended.result = some (.ok ⟨1,0⟩) := rfl
  exact ⟨ok,((failed_commit_is_recovered_iff .plain [.put 0 [97] (some [1])]).1 b rfl rfl).1.mpr ⟨_,ok⟩⟩

/-- A put into a bucket that is not there: `Rollback` panics, and the next `Lock` waits for the bolt transaction that nobody ends. -/
theorem failed_commit_blocks_backend :
    let b : TxBackend (Bolt Nat) (DurableBatch Nat) := ⟨false,⟨BoltStore.oneBucket SortedMap.empty 0,false⟩,none⟩
    let ended := transact boltStore .plain [.put 1 [97] (some [1])] b
    ended.result = some (.error (.storage .bucketNotFound)) ∧ ended.fault = some .nilBatch ∧ ended.backend.store.writer = true ∧
      (transact boltStore .plain [] ended.backend).fault = some .blocked :=
  ⟨rfl,rfl,rfl,rfl⟩

end Kave
