import Kave.ChangeLog
import Kave.Replica
import Kave.Restart
import Kave.Runs
import Mathlib.Data.Finset.Card

/-! The key counter of the store: transactions keep it by their tallies of new and deleted keys, `Restore` sets it to the
    number of records it has read. -/

namespace Kave

open TreeIndex

/-! ### Counting the live keys of an index -/

namespace TreeIndex

/-- The number of keys alive at a revision. -/
def liveCount (ti : TreeIndex) (t : Int) : Nat := (ti.live t).keys.length

variable {ti ti' : TreeIndex} {t t' : Int} {key : Bytes}

theorem mem_live : key ∈ (ti.live t).keys ↔ (ti.look key t).isSome := by
  rw [SortedMap.mem_keys,find_live]

theorem liveCount_congr (same : ∀ key, (ti'.look key t').isSome = (ti.look key t).isSome) : ti'.liveCount t' = ti.liveCount t := by
  have keys : (ti'.live t').keys = (ti.live t).keys := SortedMap.keys_eq fun key => by rw [find_live,find_live,same]
  rw [liveCount,keys,liveCount]

theorem liveCount_eq_card (ti : TreeIndex) (t : Int) : ti.liveCount t = (ti.live t).keys.toFinset.card :=
  (List.toFinset_card_of_nodup ((ti.live t).keys_sorted.imp fun less => less.ne)).symm

theorem liveCount_put (alive : ∀ k, (ti'.look k t).isSome ↔ k = key ∨ (ti.look k t).isSome) :
    ti'.liveCount t = ti.liveCount t + if (ti.look key t).isSome then 0 else 1 := by
  have inserted : (ti'.live t).keys.toFinset = insert key (ti.live t).keys.toFinset := by
    ext k
    simp only [List.mem_toFinset,Finset.mem_insert,mem_live,alive]
  rw [liveCount_eq_card,liveCount_eq_card,inserted]
  by_cases old : (ti.look key t).isSome
  · rw [if_pos old,Finset.insert_eq_of_mem (List.mem_toFinset.mpr (mem_live.mpr old)),Nat.add_zero]
  · rw [if_neg old,Finset.card_insert_of_notMem fun inside => old (mem_live.mp (List.mem_toFinset.mp inside))]

theorem liveCount_delete (alive : ∀ k, (ti'.look k t).isSome ↔ k ≠ key ∧ (ti.look k t).isSome) (old : (ti.look key t).isSome) :
    ti'.liveCount t + 1 = ti.liveCount t := by
  have erased : (ti'.live t).keys.toFinset = (ti.live t).keys.toFinset.erase key := by
    ext k
    simp only [List.mem_toFinset,Finset.mem_erase,mem_live,alive]
  rw [liveCount_eq_card,liveCount_eq_card,erased]
  exact Finset.card_erase_add_one (List.mem_toFinset.mpr (mem_live.mpr old))

end TreeIndex

/-! ### Transactions -/

/-- The counter and the tallies of the transaction are together the number of live keys. -/
structure Writer.Tallied (w : Writer) : Prop where
  fresh : w.Fresh
  count : w.store.keyCount + (w.newKeys - w.deletedKeys) = w.store.kvIndex.liveCount (w.startRev.main + 1)

theorem Writer.put_tallies {w w' : Writer} {key : Bytes} {value : Option Bytes} {leaseID : Int64}
    (run : w.put key value leaseID = (w',none)) :
    w'.newKeys = w.newKeys + (if (w.store.kvIndex.look key (w.startRev.main + 1)).isSome then 0 else 1) ∧
      w'.deletedKeys = w.deletedKeys := by
  rw [Writer.put] at run
  cases index : w.store.kvIndex.put key ⟨w.startRev.main + 1,w.changes.length⟩ with
  | error e => simp [index] at run
  | ok ti =>
    simp only [index,Prod.mk.injEq,and_true] at run
    subst run
    rw [unsafeGet_toOption]
    refine ⟨?_,rfl⟩
    simp only
    split
    · rw [add_zero]
    · rfl

theorem Writer.deleteKey_tallies {w w' : Writer} {key : Bytes} (run : w.deleteKey key = (w',none)) :
    w'.newKeys = w.newKeys ∧ w'.deletedKeys = w.deletedKeys + 1 ∧
      ∃ ti, w.store.kvIndex.tombstone key ⟨w.startRev.main + 1,w.changes.length⟩ = .ok ti := by
  rw [Writer.deleteKey] at run
  cases index : w.store.kvIndex.tombstone key ⟨w.startRev.main + 1,w.changes.length⟩ with
  | error e => simp [KvBucketKey.newKvBucketKey,index] at run
  | ok ti =>
    simp only [KvBucketKey.newKvBucketKey,index,Prod.mk.injEq,and_true] at run
    subst run
    exact ⟨rfl,rfl,ti,rfl⟩

namespace Writer.Tallied

variable {w w' : Writer}

theorem put (tallied : w.Tallied) {key : Bytes} {value : Option Bytes} {leaseID : Int64}
    (run : w.put key value leaseID = (w',none)) : w'.Tallied := by
  obtain ⟨w₁,run₁,extends_,step⟩ := w.put_spec tallied.fresh key value leaseID
  obtain rfl : w₁ = w' := congrArg Prod.fst (run₁.symm.trans run)
  have count := tallied.count
  refine ⟨tallied.fresh.next extends_ rfl (.cons step (.nil _ _)),?_⟩
  have alive : ∀ k, (w₁.store.kvIndex.look k (w.startRev.main + 1)).isSome ↔
      k = key ∨ (w.store.kvIndex.look k (w.startRev.main + 1)).isSome := by
    intro k
    generalize content : w₁.content = after at step
    have index : w₁.store.kvIndex = after.index := congrArg Content.index content
    rw [index]
    cases step with
    | put wrote =>
      by_cases same : k = key
      · simp [same,wrote.look]
      · rw [wrote.look_other same,or_iff_right same]
        rfl
  obtain ⟨new,deleted⟩ := put_tallies run
  have stored : w₁.store.keyCount = w.store.keyCount := by rw [extends_.store]
  rw [extends_.startRev,liveCount_put alive,new,deleted,stored]
  push_cast
  split <;> omega

theorem deleteKey (tallied : w.Tallied) {key : Bytes} (run : w.deleteKey key = (w',none)) : w'.Tallied := by
  obtain ⟨new,deleted,ti,index⟩ := deleteKey_tallies run
  have old := tallied.fresh.alive_of_tombstone index
  obtain ⟨w₁,run₁,extends_,step⟩ := w.deleteKey_spec tallied.fresh old
  obtain rfl : w₁ = w' := congrArg Prod.fst (run₁.symm.trans run)
  have count := tallied.count
  refine ⟨tallied.fresh.next extends_ rfl (.cons step (.nil _ _)),?_⟩
  have alive : ∀ k, (w₁.store.kvIndex.look k (w.startRev.main + 1)).isSome ↔
      k ≠ key ∧ (w.store.kvIndex.look k (w.startRev.main + 1)).isSome := by
    intro k
    generalize content : w₁.content = after at step
    have index : w₁.store.kvIndex = after.index := congrArg Content.index content
    rw [index]
    cases step with
    | delete _ wrote =>
      by_cases same : k = key
      · simp [same,wrote.look]
      · rw [wrote.look_other same,and_iff_right same]
        rfl
  have fewer := liveCount_delete alive old
  have stored : w₁.store.keyCount = w.store.keyCount := by rw [extends_.store]
  rw [extends_.startRev,new,deleted,stored]
  omega

theorem runOps (tallied : w.Tallied) {ops : List Op} (run : Writer.runOps ops w = (w',none)) : w'.Tallied := by
  have ran := Writer.runOps_invariant (P := fun p => p.2 = none → p.1.Tallied)
    (fun w key value leaseID before ok => (before rfl).put (Prod.ext rfl ok))
    (fun w key before ok => (before rfl).deleteKey (Prod.ext rfl ok)) ops fun _ => tallied
  rw [run] at ran
  exact ran rfl

end Writer.Tallied

namespace KvStore

variable {s s' : KvStore}

/-- The counter is the number of keys alive at the current revision. -/
def Counted (s : KvStore) : Prop := s.keyCount = s.kvIndex.liveCount s.currentRev.main

instance (s : KvStore) : Decidable s.Counted := inferInstanceAs (Decidable (s.keyCount = s.kvIndex.liveCount s.currentRev.main))

theorem Settled.liveCount_now (settled : s.Settled) {t : Int} (le : s.currentRev.main ≤ t) :
    s.kvIndex.liveCount t = s.kvIndex.liveCount s.currentRev.main :=
  liveCount_congr fun key => by rw [settled.look_now key le]

theorem Counted.txn (counted : s.Counted) (settled : s.Settled) (ops : List Op) : (s.txn ops).Counted := by
  obtain ⟨m,domain⟩ := s.content.exists_domain (s.currentRev.main + 1)
  obtain ⟨w,more,run,extends_,-⟩ := Writer.runOps_spec ops settled.fresh domain
  have committed := settled.txn domain ops
  have start : s.newWriter.Tallied := by
    refine ⟨settled.fresh,?_⟩
    change s.keyCount + (0 - 0) = s.kvIndex.liveCount (s.currentRev.main + 1)
    rw [settled.liveCount_now (by omega),← counted]
    omega
  have tallied := start.runOps run
  have after : s.txn ops = w.endTx := by rw [KvStore.txn,run]
  have later : (s.txn ops).currentRev.main ≤ s.currentRev.main + 1 := by
    rw [committed.current]
    split <;> omega
  rw [Counted,← (committed.settled settled).liveCount_now later,after]
  have count := tallied.count
  rw [extends_.startRev] at count
  exact count

theorem Counted.aborted (counted : s.Counted) {ti : TreeIndex} (alike : ti.Alike s.kvIndex) :
    KvStore.Counted { s with kvIndex := ti } := by
  have same : ti.liveCount s.currentRev.main = s.kvIndex.liveCount s.currentRev.main := liveCount_congr fun key => by rw [alike.look]
  change s.keyCount = ti.liveCount s.currentRev.main
  rw [same]
  exact counted

/-! ### Compactions -/

theorem Orderly.doCompact (orderly : s.Orderly) (c : Compaction) : (s.doCompact c).Orderly := by
  obtain ⟨ti,kept,b,done⟩ := doCompact_done orderly.settled.before.valid c
  rw [done.result]
  refine ⟨orderly.settled.of_content rfl done.valid fun key bk member => (done.items key).subset member,?_⟩
  refine orderly.stamped.subset fun {bk entry} found => ?_
  rcases done.batched.kv bk with same | ⟨gone,-⟩
  · rwa [← same]
  · change b.buckets.kv.find? bk = some entry at found
    rw [gone] at found
    cases found

/-- A compaction changes the counter as little as what is alive, whatever its target. -/
theorem Orderly.counted_doCompact (orderly : s.Orderly) (c : Compaction) : (s.doCompact c).Counted ↔ s.Counted := by
  have after := (orderly.doCompact c).settled
  obtain ⟨ti,kept,b,done⟩ := doCompact_done orderly.settled.before.valid c
  rw [done.result] at after ⊢
  -- from the target and the current revision on nothing has changed
  let t := max s.currentRev.main c.targetRev
  have same : ti.liveCount t = s.kvIndex.liveCount t :=
    liveCount_congr fun key => congrArg Option.isSome ((done.items key).view t (le_max_right _ _))
  have now := orderly.settled.liveCount_now (le_max_left s.currentRev.main c.targetRev)
  have now' : ti.liveCount t = ti.liveCount s.currentRev.main := after.liveCount_now (le_max_left _ _)
  rw [Counted,Counted,← now,← same,now']

theorem Orderly.compactToEnd (orderly : s.Orderly) (rev : Int) :
    (s.compactToEnd rev).Orderly ∧ ((s.compactToEnd rev).Counted ↔ s.Counted) := by
  rcases s.compact_eq rev with ⟨accepts_,run⟩ | ⟨refused,-⟩
  · have started := orderly.compact rev
    rw [run] at started
    rw [compactToEnd_of accepts_]
    exact ⟨started.doCompact _,started.counted_doCompact _⟩
  · rw [compactToEnd_of_not refused]
    exact ⟨orderly,Iff.rfl⟩

/-! ### Restores -/

/-- Every record of the bucket is the only one of its key, and none is a tombstone. -/
def Plain (s : KvStore) : Prop :=
  (s.backend.buckets.kv.entries.map (·.2.key)).Nodup ∧ ∀ e ∈ s.backend.buckets.kv.entries, e.1.tombstone = false

instance (s : KvStore) : Decidable s.Plain := by
  unfold Plain
  infer_instance

theorem Orderly.isSome_look_restore (orderly : s.Orderly) (key : Bytes) :
    (s.restore.1.kvIndex.look key s.restore.1.currentRev.main).isSome ↔
      ∃ bk, (recordsIn s.backend.buckets.kv key).getLast? = some bk ∧ bk.tombstone = false := by
  have past : ∀ bk, (s.backend.buckets.kv.find? bk).isSome → bk.rev.main ≤ s.restore.1.currentRev.main :=
    fun bk present => (orderly.restore.main_le present).2
  change ((restoreIndex s.backend.buckets.kv).look key _).isSome ↔ _
  rw [look_restoreIndex orderly.stamped past,runView,Option.isSome_map,List.getLast?_isSome,ne_eq,
    openRun_eq_nil_iff]
  cases (recordsIn s.backend.buckets.kv key).getLast? <;> simp

theorem Orderly.counted_restore_iff (orderly : s.Orderly) : s.restore.1.Counted ↔ s.Plain := by
  let entries := s.backend.buckets.kv.entries
  let named := (entries.map (·.2.key)).toFinset
  let live := (s.restore.1.kvIndex.live s.restore.1.currentRev.main).keys.toFinset
  have alive : ∀ key, key ∈ live ↔ ∃ bk, (recordsIn s.backend.buckets.kv key).getLast? = some bk ∧ bk.tombstone = false :=
    fun key => by rw [List.mem_toFinset,mem_live,orderly.isSome_look_restore]
  have subset : live ⊆ named := by
    intro key inside
    obtain ⟨bk,last,-⟩ := (alive key).mp inside
    obtain ⟨entry,found,same⟩ := mem_recordsIn.mp (List.mem_of_getLast? last)
    exact List.mem_toFinset.mpr (List.mem_map.mpr ⟨(bk,entry),SortedMap.mem_entries.mpr found,same⟩)
  have count : s.restore.1.Counted ↔ entries.length = live.card := by
    rw [Counted,liveCount_eq_card]
    exact Int.ofNat_inj
  have length : (entries.map (·.2.key)).length = entries.length := List.length_map _
  rw [count]
  constructor
  · intro same
    have le := Finset.card_le_card subset
    have le' : named.card ≤ _ := List.toFinset_card_le (entries.map (·.2.key))
    have card : named.card = (entries.map (·.2.key)).dedup.length := List.card_toFinset _
    have distinct : (entries.map (·.2.key)).Nodup :=
      List.dedup_eq_self.mp ((List.dedup_sublist _).eq_of_length (by omega))
    have all : live = named := Finset.eq_of_subset_of_card_le subset (by omega)
    refine ⟨distinct,fun e inside => ?_⟩
    have there : e.2.key ∈ live := by
      rw [all]
      exact List.mem_toFinset.mpr (List.mem_map_of_mem inside)
    obtain ⟨bk,last,put⟩ := (alive _).mp there
    obtain ⟨entry,found,key⟩ := mem_recordsIn.mp (List.mem_of_getLast? last)
    have one := List.inj_on_of_nodup_map distinct inside (SortedMap.mem_entries.mpr found) key.symm
    rw [one]
    exact put
  · rintro ⟨distinct,puts⟩
    have all : named ⊆ live := by
      intro key inside
      obtain ⟨e,member,rfl⟩ := List.mem_map.mp (List.mem_toFinset.mp inside)
      have record : e.1 ∈ recordsIn s.backend.buckets.kv e.2.key := mem_recordsIn.mpr ⟨e.2,SortedMap.mem_entries.mp member,rfl⟩
      obtain ⟨bk,last⟩ := Option.isSome_iff_exists.mp (List.getLast?_isSome.mpr (List.ne_nil_of_mem record))
      obtain ⟨entry,found,-⟩ := mem_recordsIn.mp (List.mem_of_getLast? last)
      exact (alive _).mpr ⟨bk,last,puts (bk,entry) (SortedMap.mem_entries.mpr found)⟩
    rw [Finset.Subset.antisymm subset all,List.toFinset_card_of_nodup distinct,length]

end KvStore

/-! ### Runs -/

/-- What happens to a store: a transaction that commits or is aborted, a compaction that runs to its end, a `Restore`, and
    the end of the compaction a `Restore` has resumed. -/
inductive CountEvent
  | txn (ops : List Op)
  | abort (ops : List Op)
  | compact (rev : Int)
  | restore
  | resume
deriving DecidableEq, Repr

/-- A store with the compaction its last `Restore` has resumed. -/
structure Counting where
  store : KvStore
  resumed : Option Compaction

namespace Counting

def new : Counting := ⟨KvStore.new Backend.empty,none⟩

def step (c : Counting) : CountEvent → Counting
  | .txn ops => { c with store := c.store.txn ops }
  | .abort ops => { c with store := (Writer.runOps ops c.store.newWriter).1.abort }
  | .compact rev => { c with store := c.store.compactToEnd rev }
  | .restore => ⟨c.store.restore.1,c.store.restore.2⟩
  | .resume => ⟨(c.resumed.map c.store.doCompact).getD c.store,none⟩

def run (c : Counting) (events : List CountEvent) : Counting := events.foldl step c

/-- A `Restore` finds nothing but live keys in the bucket. -/
def Plain (c : Counting) (event : CountEvent) : Prop := event = .restore → c.store.Plain

instance (c : Counting) (event : CountEvent) : Decidable (c.Plain event) := by
  unfold Plain
  infer_instance

/-- Only a `Restore` can miscount. -/
theorem step_counted {c : Counting} (orderly : c.store.Orderly) (counted : c.store.Counted) (event : CountEvent) :
    (c.step event).store.Orderly ∧ ((c.step event).store.Counted ↔ c.Plain event) := by
  have fine : ∀ {s : KvStore} {event : CountEvent}, s.Counted → event ≠ .restore → (s.Counted ↔ c.Plain event) :=
    fun counted other => iff_of_true counted fun same => absurd same other
  cases event with
  | txn ops => exact ⟨orderly.txn ops,fine (counted.txn orderly.settled ops) (by simp)⟩
  | abort ops =>
    obtain ⟨ti,left,alike⟩ := ((Writer.Opened.new orderly.settled).runOps ops).abort
    change KvStore.Orderly (Writer.abort _) ∧ (KvStore.Counted (Writer.abort _) ↔ _)
    rw [left]
    exact ⟨orderly.aborted alike,fine (counted.aborted alike) (by simp)⟩
  | compact rev =>
    obtain ⟨after,same⟩ := orderly.compactToEnd rev
    exact ⟨after,fine (same.mpr counted) (by simp)⟩
  | restore => exact ⟨orderly.restore,orderly.counted_restore_iff.trans ⟨fun plain _ => plain,fun plain => plain rfl⟩⟩
  | resume =>
    rw [step]
    cases c.resumed with
    | none => exact ⟨orderly,fine counted (by simp)⟩
    | some job => exact ⟨orderly.doCompact job,fine ((orderly.counted_doCompact job).mpr counted) (by simp)⟩

end Counting

/-- The key counter is the number of live keys in every state of a run exactly if every `Restore` of the run finds nothing
    but live keys in the bucket. -/
theorem key_count_is_live_count_iff (events : List CountEvent) :
    (∀ n, (Counting.new.run (events.take n)).store.Counted) ↔ Runs.Along Counting.step Counting.Plain Counting.new events := by
  have general : ∀ (events : List CountEvent) (c : Counting), c.store.Orderly → c.store.Counted →
      ((∀ n, (c.run (events.take n)).store.Counted) ↔ Runs.Along Counting.step Counting.Plain c events) := by
    intro events
    induction events with
    | nil =>
      intro c _ counted
      refine iff_of_true (fun n => ?_) trivial
      rw [List.take_nil]
      exact counted
    | cons event rest ih =>
      intro c orderly counted
      obtain ⟨orderly',plain⟩ := Counting.step_counted orderly counted event
      constructor
      · intro every
        have here := every 1
        rw [List.take_succ_cons, List.take_zero] at here
        exact ⟨plain.mp here,(ih _ orderly' here).mp fun n => every (n + 1)⟩
      · rintro ⟨ok,along⟩ n
        cases n with
        | zero => exact counted
        | succ n => exact (ih _ orderly' (plain.mpr ok)).mpr along n
  exact general events Counting.new KvStore.Orderly.new (by rfl)

/-- Two keys, one of them put twice, and a compaction that leaves one record of each before the restart. -/
theorem key_count_is_live_count_compacted :
    let events : List CountEvent := [.txn [.put [97] (some [1]) 0,.put [98] (some [1]) 0],.txn [.put [97] (some [2]) 0],
      .abort [.put [99] (some [1]) 0,.deleteKey [97]],.compact 2,.restore,.txn [.deleteKey [98],.put [99] (some [1]) 0]]
    Runs.Along Counting.step Counting.Plain Counting.new events ∧ (Counting.new.run events).store.keyCount = 2 := by
  intro events
  have along : Runs.Along Counting.step Counting.Plain Counting.new events := by decide
  refine ⟨along,?_⟩
  have counted := (key_count_is_live_count_iff events).mpr along 6
  rw [List.take_of_length_le (by decide)] at counted
  rw [counted]
  decide

/-- A key put twice is counted twice by a `Restore`, and a deleted one is counted at all. -/
theorem restore_counts_records :
    let c := Counting.new.run [.txn [.put [97] (some [1]) 0],.txn [.put [97] (some [2]) 0],.txn [.put [98] (some [1]) 0],
      .txn [.deleteKey [98]]]
    c.store.keyCount = 1 ∧ (c.step .restore).store.keyCount = 4 ∧
      (c.step .restore).store.kvIndex.liveCount (c.step .restore).store.currentRev.main = 1 := by
  decide

end Kave
