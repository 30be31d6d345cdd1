import Kave.Schedules

/-! The operations of one transaction. They are resolved in an index that already has the changes of the operations
    before them, while the records come from the committed store alone, and the deletions are counted by the changes of
    the whole transaction. -/

namespace Kave

open TreeIndex

/-! ### The operations one after the other -/

namespace Engine

variable {W : Type} [TxWriter W]

theorem applyTxnOps_snoc {before : List TxnOp} {op : TxnOp} {checked : CheckedOp} {w w₁ w₂ : W} {earlier : List TxnOpResult}
    {result : TxnOpResult} (reached : applyTxnOps before w = (w₁,.ok earlier)) (check : op.check = .ok checked)
    (ran : applyTxnOp w₁ checked = (w₂,.ok result)) : applyTxnOps (before ++ [op]) w = (w₂,.ok (earlier ++ [result])) := by
  induction before generalizing w earlier with
  | nil =>
    cases reached
    simp [applyTxnOps,check,ran]
  | cons head rest ih =>
    obtain ⟨checked',w',first,later,check',ran',others,rfl⟩ := applyTxnOps_cons reached
    have more := ih others
    simp [applyTxnOps,check',ran',more]

theorem applyTxnOps_split {before after : List TxnOp} {op : TxnOp} {w w' : W} {results : List TxnOpResult}
    (run : applyTxnOps (before ++ op :: after) w = (w',.ok results)) :
    ∃ w₁ earlier checked w₂ result, applyTxnOps before w = (w₁,.ok earlier) ∧ op.check = .ok checked ∧
      applyTxnOp w₁ checked = (w₂,.ok result) ∧ results[before.length]? = some result := by
  induction before generalizing w results with
  | nil =>
    obtain ⟨checked,w₁,result,later,check,first,-,rfl⟩ := applyTxnOps_cons run
    exact ⟨w,[],checked,w₁,result,rfl,check,first,rfl⟩
  | cons head rest ih =>
    obtain ⟨checked,w₁,result,later,check,first,others,rfl⟩ := applyTxnOps_cons run
    obtain ⟨w₂,earlier,checked',w₃,result',reached,check',ran,here⟩ := ih others
    refine ⟨w₂,result :: earlier,checked',w₃,result',?_,check',ran,by simpa using here⟩
    simp only [applyTxnOps,check,first,reached]

end Engine

/-- The end of the range that a read operation asks for. -/
def RangeRequest.stop (r : RangeRequest) : Option Bytes := if r.isPrefix then prefixEnd r.key else r.endKey

theorem TxnOp.checked_range {r : RangeRequest} {checked : CheckedOp} (passes : TxnOp.check (.range (some r)) = .ok checked) :
    checked = .range r := by
  obtain ⟨r',same,-⟩ | ⟨r',same,-⟩ | ⟨r',same,is⟩ := TxnOp.check_cases passes
  all_goals cases same
  exact is

theorem TxnOp.checked_delete {r : DeleteRequest} {checked : CheckedOp} (passes : TxnOp.check (.delete (some r)) = .ok checked) :
    checked = .delete r := by
  obtain ⟨r',same,-⟩ | ⟨r',same,is⟩ | ⟨r',same,-⟩ := TxnOp.check_cases passes
  all_goals cases same
  exact is

namespace Engine

variable {w w' : Writer} {result : TxnOpResult}

theorem applyTxnOp_range {r : RangeRequest} (ran : applyTxnOp w (.range r) = (w',.ok result)) :
    ∃ got, w.range r.key r.stop r.revision r.limit = .ok got ∧ result = .range ⟨got.entries,got.count⟩ := by
  cases read : w.range r.key r.stop r.revision r.limit with
  | error e =>
    have same : TxWriter.range w r.key (if r.isPrefix then prefixEnd r.key else r.endKey) r.revision r.limit = .error e := read
    simp [applyTxnOp,same] at ran
  | ok got =>
    have same : TxWriter.range w r.key (if r.isPrefix then prefixEnd r.key else r.endKey) r.revision r.limit = .ok got := read
    simp only [applyTxnOp,same,Prod.mk.injEq,Except.ok.injEq] at ran
    exact ⟨got,rfl,ran.2.symm⟩

theorem applyTxnOp_delete {r : DeleteRequest} (ran : applyTxnOp w (.delete r) = (w',.ok result)) :
    ∃ prevs, prevEntries w r = .ok prevs ∧ w.deleteRange r.key r.endKey = (w',none) ∧
      result = .delete ⟨w'.changes.length,prevs⟩ := by
  rw [applyTxnOp] at ran
  cases listed : prevEntries w r with
  | error e => simp [listed] at ran
  | ok prevs =>
    change _ = (w',Except.ok result) at ran
    rcases deleted : w.deleteRange r.key r.endKey with ⟨w₁,e | _⟩
    · have same : TxWriter.deleteRange w r.key r.endKey = (w₁,none) := deleted
      simp only [listed,same,Prod.mk.injEq,Except.ok.injEq] at ran
      obtain ⟨rfl,rfl⟩ := ran
      exact ⟨prevs,rfl,rfl,rfl⟩
    · have same : TxWriter.deleteRange w r.key r.endKey = (w₁,some _) := deleted
      simp [listed,same] at ran

end Engine

/-! ### What a read in a transaction finds -/

variable {m : KvMap} {s : KvStore} {ops : List Op} {w : Writer} {key : Bytes}

theorem Content.shows_iff {c : Content} {r : Int} :
    c.Shows r m ↔ (c.index.live r).entries.map (fun e => (e.1,e.2.1.main,e.2.2.1.main,e.2.2.2,c.kv.find? ⟨e.2.2.1,false⟩)) =
      m.entries.map fun e => (e.1,e.2.createRev,e.2.modRev,e.2.version,some (e.2.entry e.1)) := by
  have lists : ∀ {β γ : Type} (n : SortedMap Bytes β) (f : Bytes → β → γ),
      n.entries.map (fun e => (e.1,f e.1 e.2)) = (n.mapVals f).entries := fun n f => rfl
  rw [lists (c.index.live r) fun _ found => (found.1.main,found.2.1.main,found.2.2,c.kv.find? ⟨found.2.1,false⟩),
    lists m fun k item => (item.createRev,item.modRev,item.version,some (item.entry k))]
  constructor
  · intro shows_
    refine congrArg SortedMap.entries (SortedMap.ext_find fun k => ?_)
    rw [SortedMap.find_mapVals,SortedMap.find_mapVals,find_live]
    exact shows_ k
  · intro same key
    have maps : ∀ {β : Type} {a b : SortedMap Bytes β}, a.entries = b.entries → a.find? key = b.find? key := by
      intro β a b equal
      rw [SortedMap.find?,SortedMap.find?,equal]
    have here := maps same
    rwa [SortedMap.find_mapVals, SortedMap.find_mapVals, find_live] at here

/-- The records of the store before the transaction, for an index that has its changes: those of the keys that the
    transaction has put are missing. -/
theorem Content.Shows.records_committed {ti : TreeIndex} {kv kv' : KvBucket} {next : Int}
    (shows_ : Content.Shows ⟨ti,kv'⟩ next m)
    (committed : ∀ bk, kv.find? bk = if bk.rev.main = next then none else kv'.find? bk) (p : Bytes → Bool) :
    recordsAt ti kv next p = (History.entries m p).map fun e => if e.modRev = next then none else some e := by
  have maps : ((ti.live next).filter fun k _ => p k).mapVals (fun _ found => kv.find? ⟨found.2.1,false⟩) =
      (m.filter fun k _ => p k).mapVals fun k item => if item.modRev = next then none else some (item.entry k) := by
    refine SortedMap.ext_find fun k => ?_
    rw [SortedMap.find_mapVals,SortedMap.find_mapVals,SortedMap.find_filter,SortedMap.find_filter,find_live]
    have same := shows_ k
    change shown kv' (ti.look k next) = _ at same
    cases found : ti.look k next with
    | none =>
      cases there : m.find? k with
      | none => rfl
      | some item => simp [shown,wanted,found,there] at same
    | some answer =>
      cases there : m.find? k with
      | none => simp [shown,wanted,found,there] at same
      | some item =>
        simp only [shown,wanted,found,there,Option.map_some,Option.some.injEq,Prod.mk.injEq] at same
        cases p k with
        | false => rfl
        | true =>
          have record : kv.find? ⟨answer.2.1,false⟩ = if item.modRev = next then none else some (item.entry k) := by
            rw [committed,same.2.1,same.2.2.2]
          exact congrArg some record
  have lists := congrArg (fun m => m.entries.map (·.2)) maps
  simpa [recordsAt,SortedMap.mapVals,History.entries,Function.comp_def,Item.entry] using lists

/-- The writer after some calls: its index shows the map they leave, and the store under it is the one it was opened on. -/
structure Writer.After (s : KvStore) (m : KvMap) (ops : List Op) (w : Writer) : Prop where
  store : w.store = { s with kvIndex := w.store.kvIndex }
  startRev : w.startRev = s.currentRev
  shows_ : w.content.Shows (s.currentRev.main + 1) (KvMap.applyOps (s.currentRev.main + 1) m ops).1
  committed : ∀ bk, s.backend.buckets.kv.find? bk = if bk.rev.main = s.currentRev.main + 1 then none else w.content.kv.find? bk

theorem KvStore.Holds.after (holds : s.Holds m) (orderly : s.Orderly)
    (run : Writer.runOps ops s.newWriter = (w,none)) : Writer.After s m ops w := by
  have fresh := holds.settled.fresh
  obtain ⟨w',more,ran,extends_,-,chain⟩ := Writer.runOps_spec ops fresh holds.shows_next.domain
  obtain rfl : w' = w := (Prod.mk.inj (ran.symm.trans run)).1
  have nonneg := holds.settled.nonneg
  have positive : 0 < s.currentRev.main + 1 := by omega
  refine ⟨extends_.store,extends_.startRev,?_,fun bk => ?_⟩
  · rw [KvMap.applyOps_eq]
    exact chain.shows_now positive fresh.before holds.shows_next
  · have frame : ∀ bk, bk.rev.main ≠ s.currentRev.main + 1 → w'.content.kv.find? bk = s.backend.buckets.kv.find? bk := by
      refine Chain.invariant (P := fun _ c => ∀ bk, bk.rev.main ≠ s.currentRev.main + 1 →
        c.kv.find? bk = s.backend.buckets.kv.find? bk) ?_ chain fun bk _ => rfl
      intro n a w b same step bk other
      obtain ⟨key,new,entry,stamp,-,kv,-⟩ := step.wrote
      have apart : bk ≠ new := fun equal => other (by rw [equal,stamp]; rfl)
      rw [kv,SortedMap.find_insert,if_neg apart,same bk other]
    split
    next now =>
      cases found : s.backend.buckets.kv.find? bk with
      | none => rfl
      | some entry =>
        have early := (orderly.stamped.early bk (by rw [found]; rfl)).2.2
        rw [Revision.lt_iff] at early
        simp only at early
        have sub := (orderly.stamped.early bk (by rw [found]; rfl)).2.1
        omega
    next other => exact (frame bk other).symm

/-- A read of the current state inside a transaction returns only the entries from before the transaction; it counts all. -/
theorem Writer.After.range (after : Writer.After s m ops w)
    (nonneg : 0 ≤ s.currentRev.main) (readable : s.compactedMainRev ≤ s.currentRev.main) (key : Bytes) (endKey : Option Bytes)
    (limit : Int) :
    let selected := History.entries (KvMap.applyOps (s.currentRev.main + 1) m ops).1 (reads key endKey)
    ∃ result, w.range key endKey 0 limit = .ok result ∧ result.count = selected.length ∧
      result.entries = (cut limit selected).filter fun e => e.modRev ≠ s.currentRev.main + 1 := by
  intro selected
  have fetched : ∀ key endKey, (fetchRange w.store.kvIndex s.backend.buckets (s.currentRev.main + 1) key endKey limit).count =
        (History.entries (KvMap.applyOps (s.currentRev.main + 1) m ops).1 (selects key endKey)).length ∧
      (fetchRange w.store.kvIndex s.backend.buckets (s.currentRev.main + 1) key endKey limit).entries =
        (cut limit (History.entries (KvMap.applyOps (s.currentRev.main + 1) m ops).1 (selects key endKey))).filter
          fun e => e.modRev ≠ s.currentRev.main + 1 := by
    intro key endKey
    rw [fetchRange_eq,after.shows_.records_committed after.committed]
    refine ⟨by simp,?_⟩
    simp only [← cut_map,List.filterMap_map]
    rw [← List.filterMap_eq_filter]
    refine List.filterMap_congr fun e _ => ?_
    by_cases put : e.modRev = s.currentRev.main + 1 <;> simp [put,Option.guard]
  have same : w.range key endKey 0 limit = doRange w.store.kvIndex s.backend.buckets (s.currentRev.main + 1) s.compactedMainRev
      (s.currentRev.main + 1) key endKey limit := by
    rw [Writer.range,after.startRev,after.store]
    rfl
  have late : ¬ s.currentRev.main + 1 < s.compactedMainRev := by omega
  have positive : ¬ s.currentRev.main + 1 ≤ 0 := by omega
  rw [same,doRange]
  simp only [gt_iff_lt,lt_irrefl,if_false,late,positive]
  refine ⟨_,rfl,?_⟩
  by_cases all : key = [0] ∧ endKey = some [0]
  · simpa [selected,reads,all] using fetched [] none
  · simpa [selected,reads,all] using fetched key endKey

/-! ### Own reads -/

/-- The revision of the entry a transaction leaves tells whether the transaction wrote it. -/
theorem KvMap.modRev_applyOps {rev : Int} (old : ∀ key item, m.find? key = some item → item.modRev < rev)
    (ops : List Op) {item : Item} (found : (applyOps rev m ops).1.find? key = some item) :
    item.modRev = rev ↔ lastWrite key ops ≠ none := by
  induction ops using List.reverseRecOn generalizing item with
  | nil => simpa [lastWrite] using (old key item found).ne
  | append_singleton ops op ih =>
    have step : applyOps rev m (ops ++ [op]) = applyOp rev (applyOps rev m ops) op := by
      rw [applyOps,List.foldl_append]
      rfl
    rw [step] at found
    rw [lastWrite_snoc]
    cases op with
    | put k value leaseID =>
      simp only [applyOp,KvMap.put,SortedMap.find_insert] at found
      by_cases same : k = key
      · rw [if_pos same.symm] at found
        cases found
        simp [Op.leaves,same,putItem]
      · rw [if_neg (Ne.symm same)] at found
        simpa [Op.leaves,same] using ih found
    | deleteKey k =>
      simp only [applyOp,SortedMap.find_erase] at found
      by_cases same : k = key
      · simp [same] at found
      · rw [if_neg (Ne.symm same)] at found
        simpa [Op.leaves,same] using ih found
    | deleteRange k endKey =>
      simp only [applyOp,SortedMap.find_filter,Option.filter_eq_some_iff,Bool.not_eq_true'] at found
      simpa [Op.leaves,found.2] using ih found.1

theorem KvStore.Holds.modRev_le (holds : s.Holds m) {item : Item}
    (found : m.find? key = some item) : item.modRev ≤ s.currentRev.main := by
  have here := holds.shows_ key
  cases answer : s.content.index.look key s.currentRev.main with
  | none => simp [shown,wanted,answer,found] at here
  | some live =>
    simp only [shown,wanted,answer,found,Option.map_some,Option.some.injEq,Prod.mk.injEq] at here
    rw [← here.2.1]
    exact (look_mem answer).2

private theorem filter_written_iff (holds : s.Holds m) {p : Bytes → Bool}
    {l : List Entry} (part : ∀ e ∈ l, e ∈ History.entries (KvMap.applyOps (s.currentRev.main + 1) m ops).1 p) :
    (l.filter fun e => e.modRev ≠ s.currentRev.main + 1) = l ↔ ∀ e ∈ l, lastWrite e.key ops = none := by
  rw [List.filter_eq_self]
  refine forall₂_congr fun e member => ?_
  obtain ⟨item,found,same,-⟩ := History.mem_entries.mp (part e member)
  have old : ∀ key item, m.find? key = some item → item.modRev < s.currentRev.main + 1 :=
    fun key item live => Int.lt_add_one_of_le (holds.modRev_le live)
  have written := KvMap.modRev_applyOps old ops found
  have dated : e.modRev = item.modRev := by rw [← same]; rfl
  rw [decide_eq_true_iff,dated,ne_eq,written]
  exact not_not

/-- The key is alive for the operations that come next. -/
def Writer.alive (w : Writer) (key : Bytes) : Bool := (w.store.kvIndex.unsafeGet key (w.startRev.main + 1)).toOption.isSome

/-- The keys that are alive for the one writer and no longer for the other. -/
def Writer.killed (w w' : Writer) : List Bytes := w.store.kvIndex.keys.filter fun key => w.alive key && !w'.alive key

theorem Writer.alive_eq (domain : w.content.Domain (w.startRev.main + 1) m) (key : Bytes) :
    w.alive key = (m.find? key).isSome := by
  rw [alive,unsafeGet_toOption,← domain key]
  rfl

theorem Writer.Fresh.deleteRange_killed {w w' : Writer} (fresh : w.Fresh) {endKey : Option Bytes}
    (ran : w.deleteRange key endKey = (w',none)) : w'.changes.length = w.changes.length + (w.killed w').length := by
  obtain ⟨m,domain⟩ := w.content.exists_domain (w.startRev.main + 1)
  obtain ⟨w'',again,extends_,chain⟩ := w.deleteRange_spec fresh domain key endKey
  obtain rfl : w'' = w' := (Prod.mk.inj (again.symm.trans ran)).1
  have domain' := chain.domain domain
  rw [KvMap.writes_filter,← extends_.startRev] at domain'
  have keys : w.killed w'' = (m.filter fun k _ => rangeSelects key endKey k).keys := by
    have listed : w.killed w'' = (w.store.kvIndex.filter fun k _ => w.alive k && !w''.alive k).keys := by
      rw [killed,SortedMap.keys,SortedMap.keys,SortedMap.filter,List.filter_map]
      rfl
    rw [listed]
    refine SortedMap.keys_eq fun k => ?_
    rw [SortedMap.isSome_find_filter,SortedMap.isSome_find_filter,alive_eq domain,alive_eq domain',
      SortedMap.isSome_find_filter]
    have known : (m.find? k).isSome = true → (w.store.kvIndex.find? k).isSome = true := by
      intro live
      rw [← domain k] at live
      change ((w.store.kvIndex.find? k).bind _).isSome = true at live
      cases found : w.store.kvIndex.find? k with
      | none => simp [found] at live
      | some ki => rfl
    cases live : (m.find? k).isSome with
    | false => simp
    | true => simp [known live]
  rw [extends_.changes,List.length_append,List.length_map,keys]

/-- The number of deletions that an operation reports is its own exactly if no operation before it changed anything. -/
theorem numDeleted_counts_own_iff (opts : OtOptions) (nodeID : String) (events : List ReplicaEvent)
    {before after : List TxnOp} {r : DeleteRequest} {w : Writer} {results : List TxnOpResult} :
    let s := ((Replica.new opts nodeID).run events).fsm.store
    let earlier := (Engine.applyTxnOps before s.newWriter).1
    let later := (Engine.applyTxnOps (before ++ [.delete (some r)]) s.newWriter).1
    Engine.applyTxnOps (before ++ .delete (some r) :: after) s.newWriter = (w,.ok results) →
      ∃ got, results[before.length]? = some (.delete got) ∧
        (got.numDeleted = (earlier.killed later).length ↔ ∀ call ∈ before.filterMap TxnOp.call?, s.Idle call) := by
  intro s earlier later run
  have settled := (Replica.run_orderly opts nodeID events).settled
  obtain ⟨w₁,first,checked,w₂,result,reached,check,ran,here⟩ := Engine.applyTxnOps_split run
  obtain rfl := TxnOp.checked_delete check
  obtain ⟨prevs,-,deleted,rfl⟩ := Engine.applyTxnOp_delete ran
  have called := Engine.applyTxnOps_calls reached
  have opened : w₁.Opened s := by
    have := (Writer.Opened.new settled).runOps (before.filterMap TxnOp.call?)
    rwa [called] at this
  have before_ : earlier = w₁ := congrArg Prod.fst reached
  have after_ : later = w₂ := congrArg Prod.fst (Engine.applyTxnOps_snoc reached check ran)
  refine ⟨_,here,?_⟩
  rw [before_, after_, ← settled.changes_eq_nil_iff, called]
  change w₂.changes.length = _ ↔ _
  rw [opened.fresh.deleteRange_killed deleted]
  simp

theorem numDeleted_counts_own_first :
    let s := ((Replica.new defaultOtOptions "a").run
      [.apply (.plain 0) (.plain 1 (.kv (.put (.plain [97] [1] 0))))]).fsm.store
    let before : List TxnOp := [.delete (some ⟨[98],none,false⟩)]
    let ops := before ++ [.delete (some ⟨[97],none,false⟩)]
    ∃ got : ResultDelete, (Engine.applyTxnOps ops s.newWriter).2 = .ok [.delete ⟨0,[]⟩,.delete got] ∧
      got.numDeleted = ((Engine.applyTxnOps before s.newWriter).1.killed (Engine.applyTxnOps ops s.newWriter).1).length := by
  intro s before ops
  have run : Engine.applyTxnOps (before ++ .delete (some ⟨[97],none,false⟩) :: []) s.newWriter =
      ((Engine.applyTxnOps (before ++ .delete (some ⟨[97],none,false⟩) :: []) s.newWriter).1,
        .ok [.delete ⟨0,[]⟩,.delete ⟨1,[]⟩]) := Prod.ext rfl (by decide)
  obtain ⟨got,here,counts⟩ := numDeleted_counts_own_iff defaultOtOptions "a" _ run
  have own := counts.mpr (by decide)
  cases here
  exact ⟨_,congrArg Prod.snd run,own⟩

/-- A deletion of one key after a put reports two. -/
theorem numDeleted_counts_earlier_put :
    let s := KvStore.new Backend.empty
    let before : List TxnOp := [.put (some (.plain [97] [1] 0))]
    let ops := before ++ [.delete (some ⟨[97],none,false⟩)]
    (Engine.applyTxnOps ops s.newWriter).2 = .ok [.put ⟨none⟩,.delete ⟨2,[]⟩] ∧
    (Engine.applyTxnOps before s.newWriter).1.killed (Engine.applyTxnOps ops s.newWriter).1 = [[97]] := by
  decide

end Kave
