import Kave.BatchCommit

/-! What a commit does write by write. The loops over the collected deletes and puts are one loop over a list of writes, each to
    a place of its own. From what one write does to the contents and to the sum of the differences follows what is left of a
    commit that fails, and what the size says after one that does not. -/

namespace Kave

section
variable {B W σ E : Type} [LinearOrder B]

section
variable {α : Type} {body : α → σ → σ × Option E} {l : List α} {s s' : σ}

theorem loopAll_append_of_some {e : E} (ran : loopAll body l s = (s',some e)) (l' : List α) : loopAll body (l ++ l') s = (s',some e) := by
  induction l generalizing s with
  | nil => cases ran
  | cons a rest ih =>
    rw [loopAll] at ran
    rw [List.cons_append,loopAll]
    generalize body a s = first at ran ⊢
    rcases first with ⟨s₁,_ | e⟩
    · exact ih ran
    · exact ran

theorem loopAll_append_of_none (ran : loopAll body l s = (s',none)) (l' : List α) : loopAll body (l ++ l') s = loopAll body l' s' := by
  induction l generalizing s with
  | nil =>
    cases ran
    rfl
  | cons a rest ih =>
    rw [loopAll] at ran
    rw [List.cons_append,loopAll]
    generalize body a s = first at ran ⊢
    rcases first with ⟨s₁,_ | e⟩
    · exact ih ran
    · cases ran

end

theorem loopAll_map {α β : Type} (g : α → β) (body : β → σ → σ × Option E) (l : List α) (s : σ) :
    loopAll body (l.map g) s = loopAll (fun a => body (g a)) l s := by
  induction l generalizing s with
  | nil => rfl
  | cons a rest ih =>
    rw [List.map_cons,loopAll,loopAll]
    simp only [ih]

namespace Iteration

variable {m : SortedMap B (SortedMap Bytes W)}

theorem run_eq_loopAll (order : Iteration m) (body : B → Bytes → W → σ → σ × Option E) (s : σ) :
    order.run (fun _ _ => none) body s = loopAll (fun p => body p.1 p.2.1 p.2.2) order.pairs s := by
  rw [run,pairs]
  induction order.items generalizing s with
  | nil => rfl
  | cons item rest ih =>
    rw [loopAll,List.flatMap_cons]
    have flat := loopAll_map (fun p : Bytes × W => (item.1,p)) (fun p => body p.1 p.2.1 p.2.2) item.2 s
    rcases inner : loopAll (fun p s => body item.1 p.1 p.2 s) item.2 s with ⟨s₁,_ | e⟩
    · rw [loopAll_append_of_none (flat.trans inner)]
      simp only [inner]
      exact ih s₁
    · rw [loopAll_append_of_some (flat.trans inner)]
      simp only [inner]

theorem run_ok {order : Iteration m} {enter : B → σ → Option E} {body : B → Bytes → W → σ → σ × Option E} {s s' : σ}
    (ran : order.run enter body s = (s',none)) : loopAll (fun p => body p.1 p.2.1 p.2.2) order.pairs s = (s',none) := by
  rw [run] at ran
  rw [pairs]
  generalize order.items = items at ran ⊢
  induction items generalizing s with
  | nil => exact ran
  | cons item rest ih =>
    rw [loopAll] at ran
    rw [List.flatMap_cons]
    have flat := loopAll_map (fun p : Bytes × W => (item.1,p)) (fun p => body p.1 p.2.1 p.2.2) item.2 s
    cases entered : enter item.1 s with
    | some e => simp [entered] at ran
    | none =>
      simp only [entered] at ran
      rcases inner : loopAll (fun p s => body item.1 p.1 p.2 s) item.2 s with ⟨s₁,_ | e⟩
      · rw [loopAll_append_of_none (flat.trans inner)]
        rw [inner] at ran
        exact ih ran
      · simp [inner] at ran

theorem pairs_apart (order : Iteration m) : order.pairs.Pairwise fun p q => ¬(p.1 = q.1 ∧ p.2.1 = q.2.1) := by
  rw [pairs,List.pairwise_flatMap]
  constructor
  · intro item member
    obtain ⟨inner,-,perm⟩ := order.keys item member
    have keys : (item.2.map Prod.fst).Nodup := (perm.map _).nodup_iff.mpr inner.keys_sorted.nodup
    exact List.pairwise_map.mpr ((List.pairwise_map.mp keys).imp fun different same => different same.2)
  · have buckets : (order.items.map Prod.fst).Nodup := order.buckets.nodup_iff.mpr m.keys_sorted.nodup
    refine (List.pairwise_map.mp buckets).imp fun different p inside q inside' same => different ?_
    obtain ⟨_,-,rfl⟩ := List.mem_map.mp inside
    obtain ⟨_,-,rfl⟩ := List.mem_map.mp inside'
    exact same.1

theorem pairs_perm (order order' : Iteration m) : order.pairs.Perm order'.pairs := by
  have nodup : ∀ order : Iteration m, order.pairs.Nodup := by
    intro order
    refine order.pairs_apart.imp fun apart same => apart ?_
    rw [same]
    exact ⟨rfl,rfl⟩
  exact (List.perm_ext_iff_of_nodup (nodup order) (nodup order')).mpr fun p => order.mem_pairs.trans order'.mem_pairs.symm

end Iteration

/-! ### The writes of a batch -/

/-- Two calls are of different places. -/
def BatchCall.Apart (c c' : BatchCall B) : Prop := ¬(c.bucket = c'.bucket ∧ c.key = c'.key)

namespace WriteCollector

variable {V : Type}

/-- The writes of a commit: the deletes and then the puts, as they are iterated. -/
def writes {wc : WriteCollector B} (deletes : Iteration wc.deletes) (puts : Iteration wc.puts) : List (BatchCall B) :=
  (deletes.pairs.map fun p => .delete p.1 p.2.1) ++ puts.pairs.map fun p => .put p.1 p.2.1 p.2.2

/-- No place is both to be put and to be deleted. -/
def Disjoint (wc : WriteCollector B) : Prop := ∀ bucket key, wc.deletes.at? bucket key = none ∨ wc.puts.at? bucket key = none

theorem Disjoint.record {wc : WriteCollector B} (disjoint : wc.Disjoint) (call : BatchCall B) : (wc.record call).Disjoint := by
  intro bucket key
  have old := disjoint bucket key
  cases call with
  | put bucket' key' value =>
    rw [WriteCollector.record,recordPut,at_assign,at_undo]
    by_cases here : bucket = bucket' ∧ key = key'
    · exact .inl (if_pos here)
    · rwa [if_neg here, if_neg here]
  | delete bucket' key' =>
    rw [WriteCollector.record,recordDelete,at_assign,at_undo]
    by_cases here : bucket = bucket' ∧ key = key'
    · exact .inr (if_pos here)
    · rwa [if_neg here, if_neg here]

theorem disjoint_calls (calls : List (BatchCall B)) : (calls.foldl WriteCollector.record new).Disjoint := by
  have general : ∀ wc : WriteCollector B, wc.Disjoint → (calls.foldl WriteCollector.record wc).Disjoint := by
    induction calls with
    | nil => exact fun _ disjoint => disjoint
    | cons call rest ih => exact fun wc disjoint => ih _ (disjoint.record call)
  exact general new fun _ _ => .inl rfl

theorem Disjoint.apart {wc : WriteCollector B} (disjoint : wc.Disjoint) (deletes : Iteration wc.deletes) (puts : Iteration wc.puts) :
    (writes deletes puts).Pairwise BatchCall.Apart := by
  refine List.pairwise_append.mpr ⟨List.pairwise_map.mpr deletes.pairs_apart,List.pairwise_map.mpr puts.pairs_apart,?_⟩
  intro c member c' member' same
  obtain ⟨p,inside,rfl⟩ := List.mem_map.mp member
  obtain ⟨p',inside',rfl⟩ := List.mem_map.mp member'
  have deleted := deletes.mem_pairs.mp inside
  have put := puts.mem_pairs.mp inside'
  simp only [BatchCall.bucket,BatchCall.key] at same
  rw [← same.1,← same.2] at put
  rcases disjoint p.1 p.2.1 with none | none
  · rw [none] at deleted
    cases deleted
  · rw [none] at put
    cases put

theorem onContents_other (store : Option Bytes → V) (contents : B → Bytes → Option V) {c : BatchCall B} {bucket : B} {key : Bytes}
    (other : ¬(c.bucket = bucket ∧ c.key = key)) : onContents store contents c bucket key = contents bucket key := by
  cases c with
  | put bucket' key' value => exact if_neg fun same => other ⟨same.1.symm,same.2.symm⟩
  | delete bucket' key' => exact if_neg fun same => other ⟨same.1.symm,same.2.symm⟩

theorem foldl_onContents_other (store : Option Bytes → V) {l : List (BatchCall B)} (contents : B → Bytes → Option V) {bucket : B} {key : Bytes}
    (others : ∀ c ∈ l, ¬(c.bucket = bucket ∧ c.key = key)) : l.foldl (onContents store) contents bucket key = contents bucket key := by
  induction l generalizing contents with
  | nil => rfl
  | cons c rest ih =>
    rw [List.foldl_cons,ih _ fun c member => others c (List.mem_cons_of_mem _ member),
      onContents_other store contents (others c List.mem_cons_self)]

theorem foldl_onContents_eq_iff (store : Option Bytes → V) {l : List (BatchCall B)} (apart : l.Pairwise BatchCall.Apart)
    (contents : B → Bytes → Option V) :
    l.foldl (onContents store) contents = contents ↔ ∀ c ∈ l, onContents store contents c = contents := by
  induction l generalizing contents with
  | nil => simp
  | cons c rest ih =>
    obtain ⟨different,later⟩ := List.pairwise_cons.mp apart
    rw [List.foldl_cons,List.forall_mem_cons]
    constructor
    · intro unchanged
      have idle : onContents store contents c = contents := by
        funext bucket key
        by_cases here : c.bucket = bucket ∧ c.key = key
        · have after := congrFun (congrFun unchanged bucket) key
          rwa [foldl_onContents_other] at after
          rintro c' member ⟨rfl,rfl⟩
          exact different c' member here
        · exact onContents_other store contents here
      rw [idle] at unchanged
      exact ⟨idle,(ih later contents).mp unchanged⟩
    · rintro ⟨idle,others⟩
      rw [idle]
      exact (ih later contents).mpr others

end WriteCollector

theorem Batch.calls_filter {S : Type} (calls : List (BatchCall B)) (s : S) :
    ∃ named : List (BatchCall B), (∀ call ∈ named, call.key ≠ []) ∧
      calls.foldl (fun b call => (b.call call).1) (Batch.new s : Batch B S) = ⟨s,false,named.foldl WriteCollector.record WriteCollector.new⟩ := by
  have general : ∀ b : Batch B S, b.closed = false → calls.foldl (fun b call => (b.call call).1) b =
      (calls.filter fun call => call.key ≠ []).foldl (fun b call => (b.call call).1) b := by
    induction calls with
    | nil => exact fun _ _ => rfl
    | cons call rest ih =>
      intro b opened
      have remains : (b.call call).1.closed = false := by
        rw [Batch.call,if_neg (by simp [opened])]
        split <;> exact opened
      rw [List.foldl_cons,ih _ remains]
      by_cases named : call.key = []
      · have refused : (b.call call).1 = b := by rw [Batch.call,if_neg (by simp [opened]),if_pos named]
        rw [refused,List.filter_cons_of_neg (by simpa using named)]
      · rw [List.filter_cons_of_pos (by simpa using named),List.foldl_cons]
  have named : ∀ call ∈ calls.filter fun call => call.key ≠ [], call.key ≠ [] := fun call member =>
    of_decide_eq_true (List.mem_filter.mp member).2
  exact ⟨_,named,(general _ rfl).trans (Batch.calls_eq named _ rfl)⟩

/-! ### Commits that fail -/

/-- A write that leaves the contents as they are. -/
def BatchCall.Idle (contents : B → Bytes → Option (Option Bytes)) : BatchCall B → Prop
  | .put bucket key value => contents bucket key = some value
  | .delete bucket key => contents bucket key = none

instance (contents : B → Bytes → Option (Option Bytes)) (c : BatchCall B) : Decidable (c.Idle contents) := by
  cases c <;> exact inferInstanceAs (Decidable (_ = _))

theorem BatchCall.idle_iff (contents : B → Bytes → Option (Option Bytes)) (c : BatchCall B) :
    WriteCollector.onContents id contents c = contents ↔ c.Idle contents := by
  constructor
  · intro same
    have here := congrFun (congrFun same c.bucket) c.key
    cases c with
    | put bucket key value => exact here.symm.trans (if_pos ⟨rfl,rfl⟩)
    | delete bucket key => exact here.symm.trans (if_pos ⟨rfl,rfl⟩)
  · intro idle
    funext bucket key
    by_cases here : c.bucket = bucket ∧ c.key = key
    · obtain ⟨rfl,rfl⟩ := here
      cases c with
      | put bucket key value => exact (if_pos ⟨rfl,rfl⟩).trans idle.symm
      | delete bucket key => exact (if_pos ⟨rfl,rfl⟩).trans idle.symm
    · exact WriteCollector.onContents_other id contents here

namespace InmemBatch

/-- The body of the loop over the writes. -/
def commitWrite : BatchCall B → Progress (InmemStore.Trees B) → Progress (InmemStore.Trees B) × Option StorageError
  | .put bucket key value => commitPut bucket key value
  | .delete bucket key => commitDelete bucket key ()

variable {p : Progress (InmemStore.Trees B)}

theorem commit_eq {b : InmemBatch B} (opened : b.closed = false) {deletes : Iteration b.wc.deletes} {puts : Iteration b.wc.puts}
    {failure : Option StorageError}
    (loop : loopAll commitWrite (WriteCollector.writes deletes puts) ⟨b.inner.buckets,0,⟨0,0⟩⟩ = (p,failure)) :
    b.commit deletes puts = failure.elim ({ b with inner := ⟨p.contents,b.inner.sz + p.totalDelta⟩, closed := true },.ok p.info)
      fun e => ({ b with inner := { b.inner with buckets := p.contents }, closed := true },.error e) := by
  have first := loopAll_map (fun p : B × Bytes × Unit => .delete p.1 p.2.1) commitWrite deletes.pairs ⟨b.inner.buckets,0,⟨0,0⟩⟩
  have deleted := deletes.run_eq_loopAll commitDelete ⟨b.inner.buckets,0,⟨0,0⟩⟩
  have second := loopAll_map (fun p : B × Bytes × Option Bytes => .put p.1 p.2.1 p.2.2) commitWrite puts.pairs
  rw [commit,if_neg (by simp [opened])]
  rcases ran : deletes.run (fun _ _ => none) commitDelete ⟨b.inner.buckets,0,⟨0,0⟩⟩ with ⟨p₁,_ | e⟩
  · rw [WriteCollector.writes,loopAll_append_of_none (first.trans (deleted.symm.trans ran)),second] at loop
    have put := (puts.run_eq_loopAll commitPut p₁).trans loop
    simp only [put]
    cases failure <;> rfl
  · rw [WriteCollector.writes,loopAll_append_of_some (first.trans (deleted.symm.trans ran))] at loop
    cases loop
    rfl

theorem commitWrite_known {c : BatchCall B} (there : (p.contents.find? c.bucket).isSome)
    (named : c.key ≠ []) : ∃ p', commitWrite c p = (p',none) ∧
      InmemStore.Wrote p.contents p'.contents (WriteCollector.onContents id p.contents.at? c) := by
  cases c with
  | put bucket key value => exact commitPut_spec there named value
  | delete bucket key => exact commitDelete_spec there key

theorem commitWrite_unknown {c : BatchCall B} (absent : p.contents.find? c.bucket = none)
    (named : c.key ≠ []) : commitWrite c p = (p,some .bucketNotFound) := by
  cases c with
  | put bucket key value =>
    simp only [BatchCall.bucket,BatchCall.key] at absent named
    rw [commitWrite,commitPut,InmemStore.unsafePut,if_neg named,absent]
  | delete bucket key =>
    simp only [BatchCall.bucket] at absent
    rw [commitWrite,commitDelete,InmemStore.unsafeDelete,absent]

theorem loopAll_commitWrite {l : List (BatchCall B)} (named : ∀ c ∈ l, c.key ≠ []) (known : B → Bool)
    (buckets : ∀ bucket, (p.contents.find? bucket).isSome = known bucket) :
    (∀ bucket, ((loopAll commitWrite l p).1.contents.find? bucket).isSome = known bucket) ∧
      (loopAll commitWrite l p).1.contents.at? = (l.takeWhile fun c => known c.bucket).foldl (WriteCollector.onContents id) p.contents.at? := by
  induction l generalizing p with
  | nil => exact ⟨buckets,rfl⟩
  | cons c rest ih =>
    rw [loopAll]
    by_cases there : known c.bucket = true
    · obtain ⟨p',ran,same,keys⟩ := commitWrite_known (by rw [buckets,there]) (named c List.mem_cons_self)
      have keys : p'.contents.at? = WriteCollector.onContents id p.contents.at? c := funext fun bucket => funext (keys bucket)
      rw [ran,List.takeWhile_cons_of_pos (by simpa using there),List.foldl_cons,← keys]
      exact ih (fun c member => named c (List.mem_cons_of_mem _ member)) fun bucket => (same bucket).trans (buckets bucket)
    · have absent : p.contents.find? c.bucket = none := by
        have none := buckets c.bucket
        rwa [Bool.eq_false_iff.mpr there, Option.isSome_eq_false_iff, Option.isNone_iff_eq_none] at none
      rw [commitWrite_unknown absent (named c List.mem_cons_self),List.takeWhile_cons_of_neg (by simpa using there)]
      exact ⟨buckets,rfl⟩

end InmemBatch

theorem WriteCollector.writes_named {calls : List (BatchCall B)} (named : ∀ call ∈ calls, call.key ≠ [])
    (deletes : Iteration (calls.foldl record new).deletes) (puts : Iteration (calls.foldl record new).puts) :
    ∀ c ∈ writes deletes puts, c.key ≠ [] := by
  obtain ⟨keyed,keyed'⟩ := keys_named named
  intro c member
  rcases List.mem_append.mp member with inside | inside
  · obtain ⟨p,met,rfl⟩ := List.mem_map.mp inside
    exact keyed p.1 p.2.1 (deletes.mem_pairs.mp met)
  · obtain ⟨p,met,rfl⟩ := List.mem_map.mp inside
    exact keyed' p.1 p.2.1 p.2.2 (puts.mem_pairs.mp met)

/-- A commit that fails leaves the store in memory as it was if and only if the batch was closed, or no write that comes before the
    first to a bucket that is not there changes anything; it always leaves the bolt file as it was. -/
theorem failed_commit_changes_nothing_iff (calls : List (BatchCall B)) (closed : Bool) :
    (∀ s : InmemStore B,
      let batch : InmemBatch B := { calls.foldl (fun b call => (b.call call).1) (Batch.new s) with closed := closed }
      ∀ (deletes : Iteration batch.wc.deletes) (puts : Iteration batch.wc.puts) (e : StorageError),
        (batch.commit deletes puts).2 = .error e →
        ((batch.commit deletes puts).1.inner.buckets = s.buckets ↔ closed = true ∨
          ∀ c ∈ (WriteCollector.writes deletes puts).takeWhile (fun c => (s.buckets.find? c.bucket).isSome), c.Idle s.buckets.at?)) ∧
    ∀ s : BoltStore B,
      let batch : DurableBatch B := { calls.foldl (fun b call => (b.call call).1) (Batch.new s) with closed := closed }
      ∀ (deletes : Iteration batch.wc.deletes) (puts : Iteration batch.wc.puts) (e : StorageError),
        (batch.commit deletes puts).2 = .error e → (batch.commit deletes puts).1.inner.db = s.db := by
  constructor
  · intro s batch deletes puts e failed
    obtain ⟨named,keyed,is⟩ := Batch.calls_filter calls s
    have is : batch = ⟨s,closed,named.foldl WriteCollector.record WriteCollector.new⟩ := by
      change ({ calls.foldl (fun b call => (b.call call).1) (Batch.new s) with closed := closed } : Batch B (InmemStore B)) = _
      rw [is]
    clear_value batch
    subst is
    cases closed with
    | true => simp [InmemBatch.commit]
    | false =>
      simp only [Bool.false_eq_true, false_or]
      have start : ∀ bucket, ((⟨s.buckets,0,⟨0,0⟩⟩ : Progress (InmemStore.Trees B)).contents.find? bucket).isSome =
          (s.buckets.find? bucket).isSome := fun _ => rfl
      obtain ⟨buckets,keys⟩ := InmemBatch.loopAll_commitWrite (WriteCollector.writes_named keyed deletes puts) _ start
      have apart := (WriteCollector.disjoint_calls named).apart deletes puts
      have idle := WriteCollector.foldl_onContents_eq_iff id
        (apart.sublist (List.takeWhile_sublist fun c => (s.buckets.find? c.bucket).isSome)) s.buckets.at?
      simp only [BatchCall.idle_iff] at idle
      rw [← idle, ← keys]
      rcases loop : loopAll InmemBatch.commitWrite (WriteCollector.writes deletes puts) ⟨s.buckets,0,⟨0,0⟩⟩ with ⟨p,_ | e'⟩
      all_goals rw [InmemBatch.commit_eq rfl loop] at failed ⊢
      · cases failed
      · rw [loop] at buckets
        refine ⟨fun same => congrArg SortedMap.at? same,fun same => SortedMap.ext_at buckets fun bucket key => ?_⟩
        exact congrFun (congrFun same bucket) key
  · intro s batch deletes puts e failed
    obtain ⟨named,-,is⟩ := Batch.calls_filter calls s
    have same : batch.inner = s := by
      change (calls.foldl (fun b call => (b.call call).1) (Batch.new s) : Batch B (BoltStore B)).inner = s
      rw [is]
    rw [← same]
    rw [DurableBatch.commit] at failed ⊢
    by_cases shut : batch.closed = true
    · rw [if_pos shut]
    · rw [if_neg shut] at failed ⊢
      rcases first : deletes.run (DurableBatch.enter batch.inner.bucketMap) (DurableBatch.commitDelete batch.inner.bucketMap)
        ⟨batch.inner.db,0,⟨0,0⟩⟩ with ⟨p,_ | e'⟩
      · simp only [first] at failed ⊢
        rcases second : puts.run (DurableBatch.enter batch.inner.bucketMap) (DurableBatch.commitPut batch.inner.bucketMap) p with ⟨p',_ | e'⟩
        · simp [second] at failed
        · rfl
      · rfl

end

/-- The value that is there is put again, and a key into a bucket that is not. -/
theorem failed_commit_changes_nothing_same_value :
    let s : InmemStore Nat := ⟨SortedMap.empty.insert 0 (SortedMap.empty.insert [97] (some [1])),1⟩
    let calls : List (BatchCall Nat) := [.put 0 [97] (some [1]),.put 1 [98] none]
    let batch : InmemBatch Nat := calls.foldl (fun b call => (b.call call).1) (Batch.new s)
    (batch.commit (.sorted _) (.sorted _)).2 = .error .bucketNotFound ∧
      (batch.commit (.sorted _) (.sorted _)).1.inner.buckets = s.buckets := by
  intro s calls batch
  exact ⟨rfl,((failed_commit_changes_nothing_iff calls false).1 s (.sorted _) (.sorted _) .bucketNotFound rfl).mpr (.inr (by decide))⟩

/-- A new value and a key into a bucket that is not there: the commit fails and the new value is stored. -/
theorem failed_commit_stores_value :
    let s : InmemStore Nat := ⟨SortedMap.empty.insert 0 (SortedMap.empty.insert [97] (some [1])),1⟩
    let calls : List (BatchCall Nat) := [.put 0 [97] (some [2]),.put 1 [98] none]
    let batch : InmemBatch Nat := calls.foldl (fun b call => (b.call call).1) (Batch.new s)
    (batch.commit (.sorted _) (.sorted _)).2 = .error .bucketNotFound ∧
      s.buckets.at? 0 [97] = some (some [1]) ∧ (batch.commit (.sorted _) (.sorted _)).1.inner.buckets.at? 0 [97] = some (some [2]) :=
  ⟨rfl,rfl,rfl⟩

/-! ### The size -/

section
variable {B σ E V : Type} [LinearOrder B]

/-- The length of the value that a put replaces less that of the new value; a commit adds it to the size instead of subtracting it. -/
def BatchCall.drift (measure : V → Option Nat) (contents : B → Bytes → Option V) : BatchCall B → Int
  | .put bucket key value =>
    match (contents bucket key).bind measure with
    | some old => old - (value.getD []).length
    | none => 0
  | .delete _ _ => 0

omit [LinearOrder B] in
theorem BatchCall.drift_congr {measure : V → Option Nat} {contents contents' : B → Bytes → Option V} {c : BatchCall B}
    (same : contents c.bucket c.key = contents' c.bucket c.key) : c.drift measure contents = c.drift measure contents' := by
  cases c with
  | put bucket key value =>
    simp only [BatchCall.bucket,BatchCall.key] at same
    rw [drift,drift,same]
  | delete bucket key => rfl

theorem loopAll_gap {body : BatchCall B → σ → σ × Option E} {view : σ → B → Bytes → Option V} {gap : σ → Int} {measure : V → Option Nat}
    {store : Option Bytes → V} (step : ∀ c s s', body c s = (s',none) →
      view s' = WriteCollector.onContents store (view s) c ∧ gap s' = gap s + 2 * c.drift measure (view s))
    {l : List (BatchCall B)} (apart : l.Pairwise BatchCall.Apart) {s s' : σ} (ran : loopAll body l s = (s',none)) :
    gap s' = gap s + 2 * (l.map (BatchCall.drift measure (view s))).sum := by
  induction l generalizing s with
  | nil =>
    cases ran
    simp
  | cons c rest ih =>
    obtain ⟨different,later⟩ := List.pairwise_cons.mp apart
    rw [loopAll] at ran
    rcases first : body c s with ⟨s'',_ | e⟩
    · rw [first] at ran
      obtain ⟨wrote,accounted⟩ := step c s s'' first
      have same : rest.map (BatchCall.drift measure (view s'')) = rest.map (BatchCall.drift measure (view s)) := by
        refine List.map_congr_left fun c' member => BatchCall.drift_congr ?_
        rw [wrote,WriteCollector.onContents_other store (view s) (different c' member)]
      rw [ih later ran,accounted,same,List.map_cons,List.sum_cons]
      ring
    · simp [first] at ran

theorem WriteCollector.drift_writes {wc : WriteCollector B} (measure : V → Option Nat) (contents : B → Bytes → Option V)
    (deletes : Iteration wc.deletes) (puts : Iteration wc.puts) :
    ((writes deletes puts).map (BatchCall.drift measure contents)).sum =
      ((writes (.sorted wc.deletes) (.sorted wc.puts)).map (BatchCall.drift measure contents)).sum := by
  have perm : (writes deletes puts).Perm (writes (.sorted wc.deletes) (.sorted wc.puts)) :=
    ((deletes.pairs_perm _).map _).append ((puts.pairs_perm _).map _)
  exact (perm.map _).sum_eq

end

section
variable {B : Type} [LinearOrder B]

/-! In memory -/

namespace InmemStore

def total (trees : Trees B) : Int := trees.weigh (SortedMap.weigh fun value => (value.getD []).length)

theorem total_insert (trees : Trees B) {bucket : B} {tree : SortedMap Bytes (Option Bytes)} (found : trees.find? bucket = some tree)
    (tree' : SortedMap Bytes (Option Bytes)) : total (trees.insert bucket tree') =
      total trees + tree'.weigh (fun value => (value.getD []).length) - tree.weigh fun value => (value.getD []).length := by
  rw [total,SortedMap.weigh_insert,found]
  rfl

/-- The length that a commit takes an old value to have; to it a nil value is none. -/
def oldLength (value : Option Bytes) : Option Nat := value.map List.length

end InmemStore

namespace InmemBatch

/-- The sum of the differences of a commit, against the values that are stored. -/
def gap (p : Progress (InmemStore.Trees B)) : Int := p.totalDelta - InmemStore.total p.contents

theorem commitPut_gap {bucket : B} {key : Bytes} {value : Option Bytes} {p p' : Progress (InmemStore.Trees B)}
    (ran : commitPut bucket key value p = (p',none)) :
    p'.contents.at? = WriteCollector.onContents id p.contents.at? (.put bucket key value) ∧
      gap p' = gap p + 2 * (BatchCall.put bucket key value).drift InmemStore.oldLength p.contents.at? := by
  rw [commitPut,InmemStore.unsafePut] at ran
  by_cases named : key = []
  · simp [named] at ran
  cases found : p.contents.find? bucket with
  | none => simp [named,found] at ran
  | some tree =>
    have there : (p.contents.find? bucket).isSome := by rw [found]; rfl
    obtain ⟨p'',again,-,keys⟩ := commitPut_spec there named value
    rw [commitPut,InmemStore.unsafePut] at again
    cases ran.symm.trans again
    refine ⟨funext fun bucket => funext (keys bucket),?_⟩
    have grown := tree.weigh_insert (fun value : Option Bytes => ((value.getD []).length : Int)) key value
    simp only [named,found,if_false] at ran
    rw [BatchCall.drift,SortedMap.at_of_find found]
    rcases old : tree.find? key with _ | _ | bytes
    all_goals
      simp only [old,Option.join_none,Option.join_some] at ran
      cases ran
      simp only [gap,InmemStore.total_insert p.contents found,grown,old,InmemStore.oldLength,Option.map_none,Option.map_some,
        Option.getD_none,Option.getD_some,Option.bind_none,Option.bind_some,List.length_nil]
      push_cast
      ring

theorem commitDelete_gap {bucket : B} {key : Bytes} {p p' : Progress (InmemStore.Trees B)}
    (ran : commitDelete bucket key () p = (p',none)) :
    p'.contents.at? = WriteCollector.onContents id p.contents.at? (.delete bucket key) ∧ gap p' = gap p := by
  rw [commitDelete,InmemStore.unsafeDelete] at ran
  cases found : p.contents.find? bucket with
  | none => simp [found] at ran
  | some tree =>
    have there : (p.contents.find? bucket).isSome := by rw [found]; rfl
    obtain ⟨p'',again,-,keys⟩ := commitDelete_spec there key
    rw [commitDelete,InmemStore.unsafeDelete] at again
    cases ran.symm.trans again
    refine ⟨funext fun bucket => funext (keys bucket),?_⟩
    have left := tree.weigh_erase (fun value : Option Bytes => ((value.getD []).length : Int)) key
    simp only [found] at ran
    rcases old : tree.find? key with _ | _ | bytes
    all_goals
      simp only [old,Option.join_none,Option.join_some] at ran
      cases ran
      simp only [gap,InmemStore.total_insert p.contents found,left,old,Option.map_none,Option.map_some,Option.getD_none,
        Option.getD_some,List.length_nil]
      push_cast
      ring

theorem commitWrite_gap (c : BatchCall B) (p p' : Progress (InmemStore.Trees B)) (ran : commitWrite c p = (p',none)) :
    p'.contents.at? = WriteCollector.onContents id p.contents.at? c ∧
      gap p' = gap p + 2 * c.drift InmemStore.oldLength p.contents.at? := by
  cases c with
  | put bucket key value => exact commitPut_gap ran
  | delete bucket key =>
    obtain ⟨wrote,same⟩ := commitDelete_gap ran
    exact ⟨wrote,by rw [same,BatchCall.drift,mul_zero,add_zero]⟩

theorem commit_ok {b : InmemBatch B} {deletes : Iteration b.wc.deletes} {puts : Iteration b.wc.puts} {info : CommitInfo}
    (ok : (b.commit deletes puts).2 = .ok info) : ∃ p, loopAll commitWrite (WriteCollector.writes deletes puts) ⟨b.inner.buckets,0,⟨0,0⟩⟩ = (p,none) ∧
      (b.commit deletes puts).1.inner = ⟨p.contents,b.inner.sz + p.totalDelta⟩ := by
  cases shut : b.closed with
  | true => simp [commit,shut] at ok
  | false =>
    rcases loop : loopAll commitWrite (WriteCollector.writes deletes puts) ⟨b.inner.buckets,0,⟨0,0⟩⟩ with ⟨p,_ | e⟩
    all_goals rw [commit_eq shut loop] at ok ⊢
    · exact ⟨p,rfl,rfl⟩
    · cases ok

end InmemBatch

/-! In a bolt file -/

namespace BoltStore

/-- The total length of the values in the buckets of the store. -/
def total (bucketMap : SortedMap B Bytes) (files : Files) : Int :=
  bucketMap.weigh fun name => ((files.find? name).map (SortedMap.weigh fun value => (value.length : Int))).getD 0

/-- The length that a commit takes an old value to have. -/
def oldLength (value : Bytes) : Option Nat := some value.length

theorem lookup_ok {bucketMap : SortedMap B Bytes} {files : Files} {bucket : B} {name : Bytes} {inner : SortedMap Bytes Bytes}
    (looked : lookup bucketMap files bucket = .ok (name,inner)) :
    bucketMap.find? bucket = some name ∧ files.find? name = some inner := by
  rw [lookup] at looked
  cases is : bucketMap.find? bucket with
  | none => simp [is] at looked
  | some name' =>
    cases found : files.find? name' with
    | none => simp [is,found] at looked
    | some inner' =>
      simp only [is,found,Except.ok.injEq,Prod.mk.injEq] at looked
      obtain ⟨rfl,rfl⟩ := looked
      exact ⟨rfl,found⟩

theorem view_eq {bucketMap : SortedMap B Bytes} {files : Files} {bucket : B} {name : Bytes} {inner : SortedMap Bytes Bytes}
    (is : bucketMap.find? bucket = some name) (found : files.find? name = some inner) (key : Bytes) :
    view bucketMap files bucket key = inner.find? key := by
  rw [view,is,Option.bind_some,SortedMap.at_of_find found]

section
variable {bucketMap : SortedMap B Bytes}
    (named : ∀ b b' name, bucketMap.find? b = some name → bucketMap.find? b' = some name → b = b')
include named

theorem total_insert {files : Files} {bucket : B} {name : Bytes} (is : bucketMap.find? bucket = some name) {inner : SortedMap Bytes Bytes}
    (found : files.find? name = some inner) (inner' : SortedMap Bytes Bytes) : total bucketMap (files.insert name inner') =
      total bucketMap files + inner'.weigh (fun value => (value.length : Int)) - inner.weigh fun value => (value.length : Int) := by
  have others : ∀ b name', (bucketMap.erase bucket).find? b = some name' → (files.insert name inner').find? name' = files.find? name' := by
    intro b name' is'
    rw [SortedMap.find_erase] at is'
    split at is'
    next => cases is'
    next different =>
      rw [SortedMap.find_insert,if_neg]
      rintro rfl
      exact different (named _ _ _ is' is)
  rw [total,total,bucketMap.weigh_erase _ bucket,SortedMap.weigh_congr fun b name' is' => by rw [others b name' is'],
    bucketMap.weigh_erase (fun name => ((files.find? name).map _).getD 0) bucket,is]
  simp only [Option.map_some,Option.getD_some,SortedMap.find_insert,if_true,found]
  ring

end

end BoltStore

namespace DurableBatch

/-- The body of the loop over the writes. -/
def commitWrite (bucketMap : SortedMap B Bytes) : BatchCall B → Progress BoltStore.Files → Progress BoltStore.Files × Option StorageError
  | .put bucket key value => commitPut bucketMap bucket key value
  | .delete bucket key => commitDelete bucketMap bucket key ()

/-- The sum of the differences of a commit, against the values that are stored. -/
def gap (bucketMap : SortedMap B Bytes) (p : Progress BoltStore.Files) : Int := p.totalDelta - BoltStore.total bucketMap p.contents

section
variable {bucketMap : SortedMap B Bytes}
    (named : ∀ b b' name, bucketMap.find? b = some name → bucketMap.find? b' = some name → b = b')
include named

theorem commitPut_gap {bucket : B} {key : Bytes} {value : Option Bytes} {p p' : Progress BoltStore.Files}
    (ran : commitPut bucketMap bucket key value p = (p',none)) :
    BoltStore.view bucketMap p'.contents =
        WriteCollector.onContents BoltStore.stored (BoltStore.view bucketMap p.contents) (.put bucket key value) ∧
      gap bucketMap p' =
        gap bucketMap p + 2 * (BatchCall.put bucket key value).drift BoltStore.oldLength (BoltStore.view bucketMap p.contents) := by
  cases looked : BoltStore.lookup bucketMap p.contents bucket with
  | error e => simp [commitPut,looked] at ran
  | ok result =>
    obtain ⟨name,inner⟩ := result
    by_cases empty : key = []
    · simp [commitPut,looked,empty] at ran
    obtain ⟨is,found⟩ := BoltStore.lookup_ok looked
    obtain ⟨p'',again,wrote⟩ := commitPut_spec named ⟨name,is,by rw [found]; rfl⟩ empty value
    cases ran.symm.trans again
    refine ⟨funext fun bucket => funext (wrote.keys bucket),?_⟩
    have grown := inner.weigh_insert (fun value : Bytes => (value.length : Int)) key (value.getD [])
    simp only [commitPut,looked,empty,if_false] at ran
    rw [BatchCall.drift,BoltStore.view_eq is found]
    cases old : inner.find? key with
    | none =>
      simp only [old] at ran
      cases ran
      simp only [gap,BoltStore.total_insert named is found,grown,old,Option.map_none,Option.getD_none,Option.bind_none]
      ring
    | some bytes =>
      simp only [old] at ran
      cases ran
      simp only [gap,BoltStore.total_insert named is found,grown,old,BoltStore.oldLength,Option.map_some,Option.getD_some,
        Option.bind_some]
      ring

theorem commitDelete_gap {bucket : B} {key : Bytes} {p p' : Progress BoltStore.Files}
    (ran : commitDelete bucketMap bucket key () p = (p',none)) :
    BoltStore.view bucketMap p'.contents =
        WriteCollector.onContents BoltStore.stored (BoltStore.view bucketMap p.contents) (.delete bucket key) ∧
      gap bucketMap p' = gap bucketMap p := by
  cases looked : BoltStore.lookup bucketMap p.contents bucket with
  | error e => simp [commitDelete,looked] at ran
  | ok result =>
    obtain ⟨name,inner⟩ := result
    by_cases empty : key = []
    · simp [commitDelete,looked,empty] at ran
    obtain ⟨is,found⟩ := BoltStore.lookup_ok looked
    obtain ⟨p'',again,wrote⟩ := commitDelete_spec named ⟨name,is,by rw [found]; rfl⟩ empty
    cases ran.symm.trans again
    refine ⟨funext fun bucket => funext (wrote.keys bucket),?_⟩
    have left := inner.weigh_erase (fun value : Bytes => (value.length : Int)) key
    simp only [commitDelete,looked,empty,if_false] at ran
    cases old : inner.find? key with
    | none =>
      simp only [old] at ran
      cases ran
      simp only [gap,BoltStore.total_insert named is found,left,old,Option.map_none,Option.getD_none]
      ring
    | some bytes =>
      simp only [old] at ran
      cases ran
      simp only [gap,BoltStore.total_insert named is found,left,old,Option.map_some,Option.getD_some]
      ring

theorem commitWrite_gap (c : BatchCall B) (p p' : Progress BoltStore.Files) (ran : commitWrite bucketMap c p = (p',none)) :
    BoltStore.view bucketMap p'.contents = WriteCollector.onContents BoltStore.stored (BoltStore.view bucketMap p.contents) c ∧
      gap bucketMap p' = gap bucketMap p + 2 * c.drift BoltStore.oldLength (BoltStore.view bucketMap p.contents) := by
  cases c with
  | put bucket key value => exact commitPut_gap named ran
  | delete bucket key =>
    obtain ⟨wrote,same⟩ := commitDelete_gap named ran
    exact ⟨wrote,by rw [same,BatchCall.drift,mul_zero,add_zero]⟩

end

theorem commit_ok {b : DurableBatch B} {deletes : Iteration b.wc.deletes} {puts : Iteration b.wc.puts} {info : CommitInfo}
    (ok : (b.commit deletes puts).2 = .ok info) :
    ∃ p, loopAll (commitWrite b.inner.bucketMap) (WriteCollector.writes deletes puts) ⟨b.inner.db,0,⟨0,0⟩⟩ = (p,none) ∧
      (b.commit deletes puts).1.inner = { b.inner with db := p.contents, sz := b.inner.sz + p.totalDelta } := by
  cases shut : b.closed with
  | true => simp [commit,shut] at ok
  | false =>
    rw [commit,if_neg (by simp [shut])] at ok ⊢
    rcases first : deletes.run (enter b.inner.bucketMap) (commitDelete b.inner.bucketMap) ⟨b.inner.db,0,⟨0,0⟩⟩ with ⟨p,_ | e⟩
    · simp only [first] at ok ⊢
      rcases second : puts.run (enter b.inner.bucketMap) (commitPut b.inner.bucketMap) p with ⟨p',_ | e⟩
      · refine ⟨p',?_,rfl⟩
        have deleted : loopAll (commitWrite b.inner.bucketMap) (deletes.pairs.map fun p => .delete p.1 p.2.1) ⟨b.inner.db,0,⟨0,0⟩⟩ =
            (p,none) := by
          rw [loopAll_map]
          exact Iteration.run_ok first
        have put : loopAll (commitWrite b.inner.bucketMap) (puts.pairs.map fun p => .put p.1 p.2.1 p.2.2) p = (p',none) := by
          rw [loopAll_map]
          exact Iteration.run_ok second
        rw [WriteCollector.writes,loopAll_append_of_none deleted]
        exact put
      · simp [second] at ok
    · simp [first] at ok

end DurableBatch

end

/-! Runs of commits -/

section
variable {B S : Type} [LinearOrder B]

/-- Batches that are committed one after another, with the sum of their drifts. -/
inductive CommitRun (commits : S → List (BatchCall B) → S → Prop) (drift : S → List (BatchCall B) → Int) : S → Int → S → Prop
  | start (s : S) : CommitRun commits drift s 0 s
  | commit {s s' s'' : S} {d : Int} {calls : List (BatchCall B)} (run : CommitRun commits drift s d s') (ok : commits s' calls s'') :
    CommitRun commits drift s (d + drift s' calls) s''

omit [LinearOrder B] in
theorem CommitRun.gap_eq {commits : S → List (BatchCall B) → S → Prop} {drift : S → List (BatchCall B) → Int} (gap : S → Int)
    (step : ∀ s calls s', commits s calls s' → gap s' = gap s + 2 * drift s calls) {s s' : S} {d : Int}
    (run : CommitRun commits drift s d s') : gap s' = gap s + 2 * d := by
  induction run with
  | start => simp
  | commit run ok ih =>
    rw [step _ _ _ ok,ih]
    ring

/-- A batch of the calls is committed without an error. -/
def InmemStore.CommitsTo (s : InmemStore B) (calls : List (BatchCall B)) (s' : InmemStore B) : Prop :=
  let batch : InmemBatch B := calls.foldl (fun b call => (b.call call).1) (Batch.new s)
  ∃ (deletes : Iteration batch.wc.deletes) (puts : Iteration batch.wc.puts) (info : CommitInfo),
    (batch.commit deletes puts).2 = .ok info ∧ (batch.commit deletes puts).1.inner = s'

/-- The sum over the values that a batch of the calls replaces, of the old length less the new one. A nil value counts as none. -/
def InmemStore.drift (s : InmemStore B) (calls : List (BatchCall B)) : Int :=
  let wc := (calls.foldl (fun b call => (b.call call).1) (Batch.new s)).wc
  ((WriteCollector.writes (.sorted wc.deletes) (.sorted wc.puts)).map (BatchCall.drift InmemStore.oldLength s.buckets.at?)).sum

/-- A batch of the calls is committed without an error. -/
def BoltStore.CommitsTo (s : BoltStore B) (calls : List (BatchCall B)) (s' : BoltStore B) : Prop :=
  let batch : DurableBatch B := calls.foldl (fun b call => (b.call call).1) (Batch.new s)
  ∃ (deletes : Iteration batch.wc.deletes) (puts : Iteration batch.wc.puts) (info : CommitInfo),
    (batch.commit deletes puts).2 = .ok info ∧ (batch.commit deletes puts).1.inner = s'

/-- The sum over the values that a batch of the calls replaces, of the old length less the new one. -/
def BoltStore.drift (s : BoltStore B) (calls : List (BatchCall B)) : Int :=
  let wc := (calls.foldl (fun b call => (b.call call).1) (Batch.new s)).wc
  ((WriteCollector.writes (.sorted wc.deletes) (.sorted wc.puts)).map
    (BatchCall.drift BoltStore.oldLength (BoltStore.view s.bucketMap s.db))).sum

theorem InmemStore.CommitsTo.size {s s' : InmemStore B} {calls : List (BatchCall B)} (ok : s.CommitsTo calls s') :
    s'.sz - total s'.buckets = s.sz - total s.buckets + 2 * s.drift calls := by
  obtain ⟨named,-,is⟩ := Batch.calls_filter calls s
  rw [CommitsTo] at ok
  rw [drift]
  generalize (calls.foldl (fun b call => (b.call call).1) (Batch.new s) : Batch B (InmemStore B)) = batch at is ok ⊢
  subst is
  obtain ⟨deletes,puts,info,ok,rfl⟩ := ok
  obtain ⟨p,loop,ended⟩ := InmemBatch.commit_ok ok
  have accounted := loopAll_gap InmemBatch.commitWrite_gap ((WriteCollector.disjoint_calls named).apart deletes puts) loop
  rw [WriteCollector.drift_writes,InmemBatch.gap,InmemBatch.gap] at accounted
  rw [ended]
  simp only at accounted ⊢
  linarith

theorem BoltStore.CommitsTo.size {s s' : BoltStore B} {calls : List (BatchCall B)} (ok : s.CommitsTo calls s') :
    s'.sz - total s'.bucketMap s'.db = s.sz - total s.bucketMap s.db + 2 * s.drift calls := by
  obtain ⟨named,-,is⟩ := Batch.calls_filter calls s
  rw [CommitsTo] at ok
  rw [drift]
  generalize (calls.foldl (fun b call => (b.call call).1) (Batch.new s) : Batch B (BoltStore B)) = batch at is ok ⊢
  subst is
  obtain ⟨deletes,puts,info,ok,rfl⟩ := ok
  obtain ⟨p,loop,ended⟩ := DurableBatch.commit_ok ok
  have accounted := loopAll_gap (DurableBatch.commitWrite_gap s.named) ((WriteCollector.disjoint_calls named).apart deletes puts) loop
  rw [WriteCollector.drift_writes,DurableBatch.gap,DurableBatch.gap] at accounted
  rw [ended]
  simp only at accounted ⊢
  linarith

theorem InmemStore.total_of_empty {trees : Trees B} (empty : ∀ bucket key, trees.at? bucket key = none) : total trees = 0 := by
  have none : ∀ bucket tree, trees.find? bucket = some tree → tree.weigh (fun value : Option Bytes => ((value.getD []).length : Int)) = 0 := by
    intro bucket tree found
    have nothing : tree = SortedMap.empty := SortedMap.ext_find fun key => by
      rw [← SortedMap.at_of_find found,empty,SortedMap.find_empty]
    rw [nothing]
    rfl
  rw [total,SortedMap.weigh_congr none,SortedMap.weigh]
  simp

theorem BoltStore.total_of_empty {bucketMap : SortedMap B Bytes} {files : Files} (empty : ∀ bucket key, view bucketMap files bucket key = none) :
    total bucketMap files = 0 := by
  have none : ∀ bucket name, bucketMap.find? bucket = some name →
      ((files.find? name).map (SortedMap.weigh fun value => (value.length : Int))).getD 0 = 0 := by
    intro bucket name is
    cases found : files.find? name with
    | none => rfl
    | some inner =>
      have nothing : inner = SortedMap.empty := SortedMap.ext_find fun key => by
        rw [← view_eq is found,empty,SortedMap.find_empty]
      rw [nothing]
      rfl
  rw [total,SortedMap.weigh_congr none,SortedMap.weigh]
  simp

/-- After batches that are committed from an empty store on, the size is the total length of the stored values if and only if the
    values that were replaced were together as long as those that replaced them. -/
theorem size_gauge_is_exact_iff (d : Int) :
    (∀ s s' : InmemStore B, s.sz = 0 → (∀ bucket key, s.buckets.at? bucket key = none) →
      CommitRun InmemStore.CommitsTo InmemStore.drift s d s' → (s'.sz = InmemStore.total s'.buckets ↔ d = 0)) ∧
    ∀ s s' : BoltStore B, s.sz = 0 → (∀ bucket key, BoltStore.view s.bucketMap s.db bucket key = none) →
      CommitRun BoltStore.CommitsTo BoltStore.drift s d s' → (s'.sz = BoltStore.total s'.bucketMap s'.db ↔ d = 0) := by
  constructor
  · intro s s' zero empty run
    have gap := run.gap_eq (fun s => s.sz - InmemStore.total s.buckets) fun _ _ _ ok => ok.size
    simp only [zero, InmemStore.total_of_empty empty] at gap
    omega
  · intro s s' zero empty run
    have gap := run.gap_eq (fun s => s.sz - BoltStore.total s.bucketMap s.db) fun _ _ _ ok => ok.size
    simp only [zero, BoltStore.total_of_empty empty] at gap
    omega

end

/-- A value that is replaced by one of the same length. -/
theorem size_gauge_is_exact_same_length :
    let s : InmemStore Nat := ⟨SortedMap.empty.insert 0 SortedMap.empty,0⟩
    let s' : InmemStore Nat := ⟨SortedMap.empty.insert 0 (SortedMap.empty.insert [97] (some [2])),1⟩
    CommitRun InmemStore.CommitsTo InmemStore.drift s 0 s' ∧ s'.sz = InmemStore.total s'.buckets := by
  intro s s'
  have empty : ∀ bucket key, s.buckets.at? bucket key = none := by
    intro bucket key
    rw [SortedMap.at_insert]
    split <;> rfl
  let between : InmemStore Nat := ⟨SortedMap.empty.insert 0 (SortedMap.empty.insert [97] (some [1])),1⟩
  have first : s.CommitsTo [.put 0 [97] (some [1])] between := ⟨.sorted _,.sorted _,_,rfl,rfl⟩
  have second : between.CommitsTo [.put 0 [97] (some [2])] s' := ⟨.sorted _,.sorted _,_,rfl,rfl⟩
  have run : CommitRun InmemStore.CommitsTo InmemStore.drift s 0 s' := .commit (.commit (.start s) first) second
  exact ⟨run,((size_gauge_is_exact_iff 0).1 s s' rfl empty run).mpr rfl⟩

/-- A value of one byte that is replaced by one of three. -/
theorem size_gauge_below_zero :
    let s : InmemStore Nat := ⟨SortedMap.empty.insert 0 SortedMap.empty,0⟩
    let t := BoltStore.oneBucket SortedMap.empty 0
    (∃ s', CommitRun InmemStore.CommitsTo InmemStore.drift s (-2) s' ∧ s'.sz = -1 ∧ InmemStore.total s'.buckets = 3) ∧
      ∃ t', CommitRun BoltStore.CommitsTo BoltStore.drift t (-2) t' ∧ t'.sz = -1 ∧ BoltStore.total t'.bucketMap t'.db = 3 := by
  intro s t
  constructor
  · let one : InmemStore Nat := ⟨SortedMap.empty.insert 0 (SortedMap.empty.insert [97] (some [1])),1⟩
    let three : InmemStore Nat := ⟨SortedMap.empty.insert 0 (SortedMap.empty.insert [97] (some [1,2,3])),-1⟩
    have first : s.CommitsTo [.put 0 [97] (some [1])] one := ⟨.sorted _,.sorted _,_,rfl,rfl⟩
    have second : one.CommitsTo [.put 0 [97] (some [1,2,3])] three := ⟨.sorted _,.sorted _,_,rfl,rfl⟩
    exact ⟨three,.commit (.commit (.start s) first) second,rfl,rfl⟩
  · let one := BoltStore.oneBucket (SortedMap.empty.insert [97] [1]) 1
    let three := BoltStore.oneBucket (SortedMap.empty.insert [97] [1,2,3]) (-1)
    have first : t.CommitsTo [.put 0 [97] (some [1])] one := ⟨.sorted _,.sorted _,_,rfl,rfl⟩
    have second : one.CommitsTo [.put 0 [97] (some [1,2,3])] three := ⟨.sorted _,.sorted _,_,rfl,rfl⟩
    exact ⟨three,.commit (.commit (.start t) first) second,rfl,rfl⟩

end Kave
