import Kave.CatchUp
import Kave.Current
import Kave.Gapless

/-! A new watcher goes to the synced group if its start revision reaches the last revision of what it watches, and from then on it
    is only sent what is committed later. For a watcher of everything that last revision is read off the entries that are alive,
    which leaves out the deletions. -/

namespace Kave

open TreeIndex

/-! ### The changes of a history -/

/-- The store after some transactions with the log of their changes, the newest of which has the current revision. -/
structure KvStore.Chronicled (s : KvStore) (log : List (KvBucketKey × Entry)) : Prop extends s.Logged log where
  complete : s.Complete log
  newest : 0 < s.currentRev.main → ∃ e ∈ log, e.1.rev.main = s.currentRev.main

namespace KvStore.Chronicled

variable {s : KvStore} {log : List (KvBucketKey × Entry)}

theorem empty : (KvStore.new Backend.empty).Chronicled [] :=
  ⟨.empty,⟨fun _ member => absurd member List.not_mem_nil,fun _ member => absurd member List.not_mem_nil⟩,
    fun positive => absurd positive (lt_irrefl _)⟩

theorem txn (chronicled : s.Chronicled log) {ops : List Op} {changes : List Entry} (done : TxnDone s ops changes) :
    (s.txn ops).Chronicled (log ++ s.newRecords (s.txn ops)) := by
  refine ⟨chronicled.toLogged.txn done,chronicled.complete.txn done,fun positive => ?_⟩
  have current := done.appended.current
  rcases List.eq_nil_or_concat' (s.newRecords (s.txn ops)) with none | ⟨older,e,last⟩
  · rw [if_pos none] at current
    rw [current] at positive
    obtain ⟨e,member,newest⟩ := chronicled.newest positive
    exact ⟨e,List.mem_append_left _ member,newest.trans current.symm⟩
  · have inside : e ∈ s.newRecords (s.txn ops) := by simp [last]
    rw [if_neg (List.ne_nil_of_mem inside)] at current
    exact ⟨e,List.mem_append_right _ inside,(done.appended.main e inside).trans current.symm⟩

theorem txns (chronicled : s.Chronicled log) (txns : List (List Op)) :
    ∃ log', (s.txns txns).Chronicled log' ∧ log'.map (·.2) = log.map (·.2) ++ s.changesOf txns := by
  induction txns generalizing s log with
  | nil => exact ⟨log,chronicled,by simp [changesOf]⟩
  | cons ops rest ih =>
    obtain ⟨changes,done⟩ := chronicled.toOrderly.txnDone ops
    obtain ⟨log',after,same⟩ := ih (chronicled.txn done)
    refine ⟨log',after,?_⟩
    rw [same,List.map_append,done.changes,changesOf,done.announced,Option.getD_some,List.append_assoc]

theorem unchanged_since_iff (chronicled : s.Chronicled log) {r : Int} (nonneg : 0 ≤ r) :
    (∀ e ∈ log, e.1.rev.main ≤ r) ↔ s.currentRev.main ≤ r := by
  refine ⟨fun none => ?_,fun reached e member => (chronicled.past e member).2.trans reached⟩
  by_contra below
  obtain ⟨e,member,newest⟩ := chronicled.newest (by omega)
  have := none e member
  omega

theorem forall_changes {changes : List Entry} (same : log.map (·.2) = changes) (chronicled : s.Chronicled log)
    (P : Bytes → Int → Prop) : (∀ e ∈ changes, P e.key e.modRev) ↔ ∀ e ∈ log, P e.2.key e.1.rev.main := by
  rw [← same,List.forall_mem_map]
  exact forall₂_congr fun e member => by rw [chronicled.dated e member]

end KvStore.Chronicled

theorem KvStore.txns_holds (txns : List (List Op)) : ∃ m, ((KvStore.new Backend.empty).txns txns).Holds m := by
  obtain ⟨refines_,compacted⟩ := refines_empty.txns txns
  have nonneg := refines_.settled.nonneg
  refine ⟨_,refines_.settled,refines_.agree _ nonneg refines_.current.le,?_⟩
  rw [compacted]
  exact nonneg

/-! ### The last revision of everything -/

theorem lt_lastRevOf_iff {r : Int} (nonneg : 0 ≤ r) (entries : List Entry) :
    r < lastRevOf entries ↔ ∃ e ∈ entries, r < e.modRev := by
  have general : ∀ last : Int, r < entries.foldl (fun last e => if e.modRev > last then e.modRev else last) last ↔
      r < last ∨ ∃ e ∈ entries, r < e.modRev := by
    induction entries with
    | nil => simp
    | cons e rest ih =>
      intro last
      rw [List.foldl_cons,ih]
      simp only [List.exists_mem_cons_iff,← or_assoc]
      refine or_congr_left ?_
      split <;> omega
  rw [lastRevOf,general]
  exact or_iff_right (not_lt.mpr nonneg)

variable {c : Creation} {s : KvStore}

theorem KvStore.Holds.lastRevision_all {m : KvMap} (holds : s.Holds m) (whole : c.endKey = none)
    (all : c.key = []) :
    c.lastRevision s = .ok (if s.liveEntries = [] then s.currentRev.main else lastRevOf s.liveEntries) := by
  rw [Creation.lastRevision,if_neg (by simp [whole]),all,liveEntries,holds.range]
  rfl

theorem KvStore.Holds.reaches_all_iff {m : KvMap} (holds : s.Holds m) (whole : c.endKey = none)
    (all : c.key = []) (nonneg : 0 ≤ c.startRev) {last : Int} (read : c.lastRevision s = .ok last) :
    last ≤ c.startRev ↔ (s.liveEntries = [] → s.currentRev.main ≤ c.startRev) ∧ ¬ ∃ e ∈ s.liveEntries, c.startRev < e.modRev := by
  rw [holds.lastRevision_all whole all] at read
  cases read
  by_cases dead : s.liveEntries = []
  · simp [dead]
  · rw [if_neg dead,← not_lt,lt_lastRevOf_iff nonneg]
    simp [dead]

theorem Creation.covers_all (whole : c.endKey = none) (all : c.key = []) (key : Bytes) :
    c.watcher.covers key = true := by
  simp [Watcher.covers,Creation.watcher,whole,all]

/-! ### New watchers -/

/-- The new watcher has a key or an end, or the store has not gone beyond its start, or nothing is alive, or something that is
    alive was put after its start. -/
def Creation.Informed (c : Creation) (s : KvStore) : Prop :=
  c.endKey ≠ none ∨ c.key ≠ [] ∨ s.currentRev.main ≤ c.startRev ∨ s.liveEntries = [] ∨ ∃ e ∈ s.liveEntries, c.startRev < e.modRev

instance Creation.decidableInformed (c : Creation) (s : KvStore) : Decidable (c.Informed s) :=
  inferInstanceAs (Decidable (_ ∨ _ ∨ _ ∨ _ ∨ _))

theorem Hub.newWatcher_synced {h h' : Hub} {ref : Nat} (created : h.newWatcher c s = (h',.ok ref)) :
    ∃ last, c.lastRevision s = .ok last ∧ (h'.synced.find? c.id = some ref ↔ last ≤ c.startRev) := by
  rcases h.newWatcher_cases c s with ⟨e,failed⟩ | ⟨g,last,read,chosen,free,registered⟩
  · rw [failed] at created
    cases created
  · rw [registered] at created
    cases created
    refine ⟨last,read,?_⟩
    rw [show c.startRev ≥ last ↔ last ≤ c.startRev from Iff.rfl] at chosen
    rw [← chosen]
    change ((h.register g c.watcher c.opened).members .synced).find? c.id = some h.watchers.length ↔ _
    rw [find_register]
    by_cases synced : g = .synced
    · simp [synced,Creation.watcher]
    · have other : ¬ (Group.synced = g ∧ c.id = c.watcher.id) := fun both => synced both.1.symm
      rw [if_neg other]
      refine iff_of_false (fun found => ?_) synced
      obtain ⟨w,at_,-⟩ := h.named .synced c.id _ found
      simp at at_

/-- After any transactions without compaction, a new watcher in the synced group has missed no committed change of what it
    watches, if and only if it is informed. -/
theorem synced_start_misses_nothing_iff (txns : List (List Op)) (req : WatchCreateRequest) (checked : req.check = true)
    (generated : Int) (h : Hub) {h' : Hub} {ref : Nat} :
    let s := (KvStore.new Backend.empty).txns txns
    let c := Creation.begin req generated s.currentRev.main
    h.newWatcher c s = (h',.ok ref) →
      ((h'.synced.find? c.id = some ref → ∀ e ∈ (KvStore.new Backend.empty).changesOf txns, c.watcher.covers e.key = true →
          ¬ (c.startRev < e.modRev ∧ e.modRev ≤ s.currentRev.main)) ↔ c.Informed s) := by
  intro s c created
  obtain ⟨last,read,synced⟩ := Hub.newWatcher_synced created
  obtain ⟨log,chronicled,same⟩ := KvStore.Chronicled.empty.txns txns
  obtain ⟨m,holds⟩ := KvStore.txns_holds txns
  rw [List.map_nil, List.nil_append] at same
  rw [synced, chronicled.forall_changes same fun key rev => c.watcher.covers key = true →
    ¬ (c.startRev < rev ∧ rev ≤ s.currentRev.main)]
  have nonneg : 0 ≤ c.startRev := by
    have start : 0 ≤ req.startRevision := of_decide_eq_true checked
    have current : 0 ≤ s.currentRev.main := chronicled.settled.nonneg
    change 0 ≤ if req.startRevision = 0 then s.currentRev.main else req.startRevision
    split <;> assumption
  by_cases range : c.endKey = none
  · by_cases whole : c.key = []
    · -- every change counts, so the watcher has missed one unless the store is where it starts
      have missed : (∀ e ∈ log, c.watcher.covers e.2.key = true →
          ¬ (c.startRev < e.1.rev.main ∧ e.1.rev.main ≤ s.currentRev.main)) ↔ s.currentRev.main ≤ c.startRev := by
        rw [← chronicled.unchanged_since_iff nonneg]
        refine forall₂_congr fun e member => ?_
        have past : e.1.rev.main ≤ s.currentRev.main := (chronicled.past e member).2
        simp [Creation.covers_all range whole, past]
      rw [missed, holds.reaches_all_iff range whole nonneg read, Creation.Informed]
      simp only [range, whole, ne_eq, not_true_eq_false, false_or]
      change (s.liveEntries = [] → _) ∧ ¬ (∃ e ∈ s.liveEntries, c.startRev < e.modRev) → _ ↔ _
      generalize (∃ e ∈ s.liveEntries, c.startRev < e.modRev) = later
      tauto
    · refine iff_of_true (fun reached e member covered between => ?_) (Or.inr (Or.inl whole))
      have named : e.2.key = c.key := by
        simpa [Watcher.covers, Creation.watcher, range, whole] using covered
      have le := Creation.le_lastRevision chronicled.toLogged chronicled.complete range whole read member named
      omega
  · refine iff_of_true (fun reached e member covered between => ?_) (Or.inl range)
    rw [Creation.lastRevision, if_pos range] at read
    cases read
    have current : c.currentMain = s.currentRev.main := rfl
    omega

/-- A watcher of everything whose start is the revision of the newest entry alive. -/
theorem synced_start_misses_nothing_put :
    let s := (KvStore.new Backend.empty).txns [[.put [97] (some [1]) 0],[.deleteKey [97]],[.put [98] (some [2]) 0]]
    let c := Creation.begin ⟨7,none,none,false,3,none⟩ 0 s.currentRev.main
    (Hub.new.newWatcher c s).1.synced.find? 7 = some 0 ∧
      ∀ e ∈ (KvStore.new Backend.empty).changesOf [[.put [97] (some [1]) 0],[.deleteKey [97]],[.put [98] (some [2]) 0]],
        c.watcher.covers e.key = true → ¬ (c.startRev < e.modRev ∧ e.modRev ≤ s.currentRev.main) :=
  ⟨by decide,(synced_start_misses_nothing_iff [[.put [97] (some [1]) 0],[.deleteKey [97]],[.put [98] (some [2]) 0]]
    ⟨7,none,none,false,3,none⟩ rfl 0 Hub.new (Prod.ext rfl (by decide))).mpr (by decide) (by decide)⟩

/-- "a" and "b" are put and "b" is deleted. A watcher of everything from revision 2 on is synced, and it has missed the deletion. -/
theorem synced_start_misses_deletion :
    let txns : List (List Op) := [[.put [97] (some [1]) 0],[.put [98] (some [2]) 0],[.deleteKey [98]]]
    let s := (KvStore.new Backend.empty).txns txns
    let c := Creation.begin ⟨7,none,none,false,2,none⟩ 0 s.currentRev.main
    (Hub.new.newWatcher c s).2.toOption = some 0 ∧ (Hub.new.newWatcher c s).1.synced.find? 7 = some 0 ∧
      ∃ e ∈ (KvStore.new Backend.empty).changesOf txns, c.watcher.covers e.key = true ∧ c.startRev < e.modRev ∧
        e.modRev ≤ s.currentRev.main := by
  refine ⟨by decide,by decide,?_⟩
  decide

end Kave
