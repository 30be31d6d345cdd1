import Kave.Concurrent

/-! Reads beside running compactions. A reader takes the current and the compacted revision first and looks into index
    and bucket later; in between anything may happen. What it finds is right as long as no compaction has cut the index
    above the revision it asks for. -/

namespace Kave

open TreeIndex KeyIndex

/-- A running compaction has accounted for every record up to its target that the index still has. -/
def Job.Covers (job : Job) (ti : TreeIndex) : Prop :=
  match job.stage with
  | .clone | .store => True
  | .index pending avail => ∀ key, ∀ bk ∈ ti.records key, bk.rev.main ≤ job.compaction.targetRev →
      bk.rev ∈ avail ∨ (key,true) ∈ pending
  | .batch retain _ => ∀ key, ∀ bk ∈ ti.records key, bk.rev.main ≤ job.compaction.targetRev → bk.rev ∈ retain

structure Job.Sound (job : Job) (s : KvStore) : Prop where
  target_le : job.compaction.targetRev ≤ s.currentRev.main
  clean : ∀ key, ¬ DeletedThenPut job.compaction.targetRev (s.kvIndex.records key)
  covers : job.Covers s.kvIndex

theorem Job.Sound.later {job : Job} {s s' : KvStore} (sound : job.Sound s)
    (current : s.currentRev.main ≤ s'.currentRev.main)
    (known : ∀ key, ∀ bk ∈ s'.kvIndex.records key,
      bk ∈ s.kvIndex.records key ∨ job.compaction.targetRev < bk.rev.main) : (job.detach s'.kvIndex).Sound s' := by
  have old : ∀ key, ∀ bk ∈ s'.kvIndex.records key, bk.rev.main ≤ job.compaction.targetRev →
      bk ∈ s.kvIndex.records key := fun key bk member le => (known key bk member).resolve_right (not_lt.mpr le)
  refine ⟨by rw [Job.detach_compaction]; exact sound.target_le.trans current,?_,?_⟩
  · rw [Job.detach_compaction]
    rintro key ⟨d,deleted,p,put,marked,dMain,pMain,less⟩
    exact sound.clean key ⟨d,old key d deleted dMain.le,p,old key p put pMain.le,marked,dMain,pMain,less⟩
  · have covers := sound.covers
    obtain ⟨c,stage⟩ := job
    cases stage with
    | clone | store => trivial
    | batch retain start =>
      intro key bk member le
      exact covers key bk (old key bk member le) le
    | index pending avail =>
      intro key bk member le
      rcases covers key bk (old key bk member le) le with kept | waiting
      · exact Or.inl kept
      · -- the item still has a record, so the tree still has the item
        refine Or.inr (List.mem_map.mpr ⟨(key,true),waiting,?_⟩)
        cases found : s'.kvIndex.find? key with
        | none => simp [TreeIndex.records,found] at member
        | some ki => simp

/-- The store answers the history from `lo` on while compactions run. -/
structure Sys.Sound (lo : Int) (s : Sys) (h : History) : Prop where
  refines_ : Refines lo s.store h
  linked : s.store.content.Linked
  jobs : ∀ job ∈ s.jobs, job.Sound s.store

theorem Chain.mem_records {next : Int} {n : Nat} {a b : Content} {ws : List Write} (chain : Chain next n a ws b)
    {key : Bytes} {bk : KvBucketKey} (member : bk ∈ b.index.records key) : bk ∈ a.index.records key ∨ bk.rev.main = next := by
  induction chain with
  | nil => exact Or.inl member
  | cons step rest ih =>
    rcases ih member with before | new
    · obtain ⟨k,new,entry,rev,wrote,-,-⟩ := step.wrote
      rcases wrote.mem_records.mp before with old | ⟨-,same⟩
      · exact Or.inl old
      · exact Or.inr (by rw [same,rev])
    · exact Or.inr new

namespace Sys

variable {h : History} {lo : Int} {s : Sys}

theorem Sound.txn (sound : s.Sound lo h) (ops : List Op) :
    (s.step (.txn ops)).Sound lo (h.txn ops) := by
  have settled := sound.refines_.settled
  have committed := settled.txn sound.refines_.shows_next.domain ops
  have positive : 0 < s.store.currentRev.main + 1 := by have := settled.nonneg; omega
  refine ⟨sound.refines_.txn ops,committed.chain.linked positive settled.before sound.linked,?_⟩
  intro job member
  obtain ⟨old,inside,rfl⟩ := mem_settle.mp member
  refine (sound.jobs old inside).later ?_ ?_
  · rw [committed.current]
    split <;> omega
  · intro key bk known
    rcases committed.chain.mem_records known with before | new
    · exact Or.inl before
    · have := (sound.jobs old inside).target_le
      exact Or.inr (by omega)

theorem Sound.compact (sound : s.Sound lo h) {rev : Int}
    (clean : s.store.Accepts rev → s.store.CleanAt rev) : (s.compact rev).Sound lo h := by
  rcases s.store.compact_eq rev with ⟨accepts_,run⟩ | ⟨-,e,run⟩
  · rw [Sys.compact,run]
    refine ⟨⟨⟨sound.refines_.settled.nonneg,sound.refines_.settled.before⟩,sound.refines_.current,sound.refines_.reach,
      sound.refines_.agree⟩,sound.linked,?_⟩
    intro job member
    rcases List.mem_append.mp member with old | new
    · exact ⟨(sound.jobs job old).target_le,(sound.jobs job old).clean,(sound.jobs job old).covers⟩
    · rw [List.mem_singleton.mp new]
      exact ⟨accepts_.2.1,(clean accepts_).records,trivial⟩
  · rw [Sys.compact,run]
    exact sound

/-- The target of the compaction that visits an item of the index in this step. -/
def visits (s : Sys) : SysEvent → Option Int
  | .advance i => s.jobs[i]?.bind fun job =>
    match job.stage with
    | .index (_ :: _) _ => some job.compaction.targetRev
    | _ => none
  | _ => none

theorem Sound.stepped (sound : s.Sound lo h) {job : Job} (here : job ∈ s.jobs)
    {store : KvStore} {next : Option Job} (stepped : Job.Stepped job s.store store next) :
    ∃ lo', (lo' = lo ∨ lo' = max lo job.compaction.targetRev ∧ ∃ key rest avail, job.stage = .index ((key,true) :: rest) avail) ∧
      Refines lo' store h ∧ store.content.Linked ∧ store.currentRev = s.store.currentRev ∧
      (∀ key, ∀ bk ∈ store.kvIndex.records key, bk ∈ s.store.kvIndex.records key) ∧
      ∀ new, next = some new → new.Sound store := by
  have mine := sound.jobs job here
  have covers := mine.covers
  have kept : ∀ {b : Backend}, (∀ key, ∀ bk ∈ s.store.kvIndex.records key,
      b.buckets.kv.find? bk = s.store.backend.buckets.kv.find? bk) →
      s.store.content.Trimmed lo (KvStore.content { s.store with backend := b }) := fun same =>
    ⟨sound.refines_.settled.before.valid,fun _ _ _ => rfl,fun _ _ member => member,same⟩
  cases stepped with
  | clone at_ =>
    refine ⟨lo,Or.inl rfl,sound.refines_,sound.linked,rfl,fun _ _ member => member,?_⟩
    rintro new ⟨⟩
    refine ⟨mine.target_le,mine.clean,?_⟩
    intro key bk member le
    refine Or.inr (List.mem_map.mpr ⟨key,SortedMap.mem_keys.mpr ?_,rfl⟩)
    cases found : s.store.kvIndex.find? key with
    | none => simp [TreeIndex.records,found] at member
    | some ki => rfl
  | indexed at_ =>
    refine ⟨lo,Or.inl rfl,sound.refines_,sound.linked,rfl,fun _ _ member => member,?_⟩
    rintro new ⟨⟩
    refine ⟨mine.target_le,mine.clean,?_⟩
    intro key bk member le
    rw [Job.Covers,at_] at covers
    exact (covers key bk member le).resolve_right (by simp)
  | failed at_ =>
    refine ⟨lo,Or.inl rfl,sound.refines_,sound.linked,rfl,fun _ _ member => member,?_⟩
    rintro new ⟨⟩
  | @visit key rest avail kept' ti at_ visited =>
    have trimmed : s.store.content.Trimmed (max lo job.compaction.targetRev) (KvStore.content { s.store with kvIndex := ti }) := by
      refine ⟨visited.valid,?_,fun k bk member => visited.records_subset member,fun _ _ _ => rfl⟩
      intro k t le
      by_cases same : k = key
      · subst same
        exact visited.item.view t ((le_max_right _ _).trans le)
      · change (ti.find? k).bind _ = (s.store.kvIndex.find? k).bind _
        rw [visited.other k same]
    have reach : max lo job.compaction.targetRev ≤ h.current :=
      max_le sound.refines_.reach (mine.target_le.trans_eq sound.refines_.current)
    refine ⟨_,Or.inr ⟨rfl,key,rest,avail,at_⟩,sound.refines_.trimmed trimmed rfl (le_max_left _ _) reach,
      trimmed.linked sound.linked,rfl,fun k bk member => visited.records_subset member,?_⟩
    rintro new ⟨⟩
    refine ⟨mine.target_le,?_,?_⟩
    · rintro k ⟨d,deleted,p,put,marks⟩
      exact mine.clean k ⟨d,visited.records_subset deleted,p,visited.records_subset put,marks⟩
    · rw [Job.Covers,at_] at covers
      intro k bk member le
      by_cases same : k = key
      · subst same
        exact Or.inl (List.mem_append_right _ (visited.item.retains (mine.clean k) bk member le))
      · rcases covers k bk (visited.records_subset member) le with old | waiting
        · exact Or.inl (List.mem_append_left _ old)
        · refine Or.inr ((List.mem_cons.mp waiting).resolve_left fun first => same ?_)
          exact congrArg Prod.fst first
  | @batch retain start b next at_ pruned _ ended =>
    rw [Job.Covers,at_] at covers
    have trimmed := kept fun key bk member => pruned.keeps
      (not_removable (sound.refines_.settled.before.early key bk member).2.1 (covers key bk member))
    refine ⟨lo,Or.inl rfl,sound.refines_.trimmed trimmed rfl le_rfl sound.refines_.reach,trimmed.linked sound.linked,rfl,
      fun _ _ member => member,?_⟩
    rintro new ⟨⟩
    refine ⟨mine.target_le,mine.clean,?_⟩
    rcases ended with ⟨rfl,-⟩ | ⟨⟨start',rfl⟩,-⟩
    · trivial
    · exact covers
  | store at_ =>
    have trimmed := kept (b := s.store.backend) fun _ _ _ => rfl
    refine ⟨lo,Or.inl rfl,sound.refines_.trimmed trimmed rfl le_rfl sound.refines_.reach,sound.linked,rfl,
      fun _ _ member => member,?_⟩
    rintro new ⟨⟩

theorem Sound.advance (sound : s.Sound lo h) (i : Nat) :
    ∃ lo', (lo' = lo ∨ ∃ c ∈ s.visits (.advance i), lo' = max lo c) ∧ (s.advance i).Sound lo' h := by
  cases at_ : s.jobs[i]? with
  | none =>
    rw [Sys.advance,at_]
    exact ⟨lo,Or.inl rfl,sound⟩
  | some job =>
    have here : job ∈ s.jobs := List.mem_of_getElem? at_
    obtain ⟨lo',from_,refines_,linked,current,subset,new⟩ :=
      sound.stepped here (job.step_cases sound.refines_.settled.before.valid)
    rw [Sys.advance,at_]
    refine ⟨lo',?_,refines_,linked,?_⟩
    · rcases from_ with same | ⟨same,key,rest,avail,stage⟩
      · exact Or.inl same
      · refine Or.inr ⟨job.compaction.targetRev,?_,same⟩
        rw [visits,at_,Option.bind_some,stage]
        rfl
    · intro left member
      obtain ⟨old,inside,rfl⟩ := mem_settle.mp member
      rcases mem_of_mem_replaceJob inside with before | next
      · exact (sound.jobs old before).later (by rw [current]) fun key bk known => Or.inl (subset key bk known)
      · exact (new old next).later le_rfl fun key bk known => Or.inl known

/-- No step of the run compacts an item of the index past `r`. -/
def KeepsFrom (r : Int) : Sys → List SysEvent → Prop
  | _, [] => True
  | s, event :: rest => (∀ c ∈ s.visits event, c ≤ r) ∧ KeepsFrom r (s.step event) rest

instance decidableKeepsFrom (r : Int) : (s : Sys) → (events : List SysEvent) → Decidable (s.KeepsFrom r events)
  | _, [] => isTrue trivial
  | s, event :: rest =>
    have := decidableKeepsFrom r (s.step event) rest
    inferInstanceAs (Decidable ((∀ c ∈ s.visits event, c ≤ r) ∧ KeepsFrom r (s.step event) rest))

/-- The transactions of a run. -/
def txnsOf (events : List SysEvent) : List (List Op) :=
  events.filterMap fun
    | .txn ops => some ops
    | _ => none

/-- Along every clean run the store answers the history from some revision on, and from `r` on if nothing is compacted past
    it. -/
theorem Sound.run (r : Int) (sound : s.Sound lo h) {events : List SysEvent}
    (clean : s.EveryAccepted (fun s rev => s.store.CleanAt rev) events) :
    ∃ lo', (lo ≤ r → s.KeepsFrom r events → lo' ≤ r) ∧ (s.run events).Sound lo' (h.txns (txnsOf events)) := by
  induction events generalizing s h lo with
  | nil => exact ⟨lo,fun low _ => low,sound⟩
  | cons event rest ih =>
    cases event with
    | txn ops =>
      obtain ⟨lo',bound,final⟩ := ih (sound.txn ops) clean
      exact ⟨lo',fun low quiet => bound low quiet.2,final⟩
    | compact rev =>
      obtain ⟨lo',bound,final⟩ := ih (sound.compact clean.1) clean.2
      exact ⟨lo',fun low quiet => bound low quiet.2,final⟩
    | advance i =>
      obtain ⟨lo₁,from_,sound₁⟩ := sound.advance i
      obtain ⟨lo',bound,final⟩ := ih sound₁ clean
      refine ⟨lo',fun low quiet => bound ?_ quiet.2,final⟩
      rcases from_ with same | ⟨c,visited,same⟩
      · rw [same]
        exact low
      · rw [same]
        exact max_le low (quiet.1 c visited)

theorem txnsOf_append (a b : List SysEvent) : txnsOf (a ++ b) = txnsOf a ++ txnsOf b := List.filterMap_append

theorem Sound.new : Sys.new.Sound 0 History.empty :=
  ⟨refines_empty,Intact.empty.linked,by simp [Sys.new]⟩

end Sys

theorem History.snap_txns {h : History} {r : Int} (past : r ≤ h.current) (txns : List (List Op)) :
    r ≤ (h.txns txns).current ∧ (h.txns txns).snap r = h.snap r := by
  induction txns generalizing h with
  | nil => exact ⟨past,rfl⟩
  | cons ops rest ih =>
    have step : r ≤ (h.txn ops).current ∧ (h.txn ops).snap r = h.snap r := by
      rw [History.txn]
      split
      · exact ⟨by simp only; omega,if_neg (by omega)⟩
      · exact ⟨past,rfl⟩
    obtain ⟨le,same⟩ := ih step.1
    exact ⟨le,same.trans step.2⟩

/-- A read that takes the revisions after `earlier` and looks after `between` more is refused as compacted or answers as a
    store that was never compacted, if by then no compaction has cut the index above the revision asked for, or the
    compacted revision it took is above that. -/
theorem reads_beside_compaction (earlier between : List SysEvent)
    (clean : Sys.new.EveryAccepted (fun s rev => s.store.CleanAt rev) (earlier ++ between)) (key : Bytes)
    (endKey : Option Bytes) (rev limit : Int) :
    let s := (Sys.new.run earlier).store
    let s' := (Sys.new.run (earlier ++ between)).store
    let asked := askedRev s.currentRev.main rev
    Sys.new.KeepsFrom asked (earlier ++ between) ∨ asked < s.compactedMainRev →
      let answer := doRange s'.kvIndex s'.backend.buckets s.currentRev.main s.compactedMainRev rev key endKey limit
      answer = .error .compacted ∨
        answer = ((KvStore.new Backend.empty).txns (Sys.txnsOf earlier)).range key endKey rev limit := by
  intro s s' asked guarded answer
  obtain ⟨_,-,before⟩ := Sys.Sound.new.run asked clean.append.1
  obtain ⟨lo,bound,after⟩ := Sys.Sound.new.run asked clean
  obtain ⟨uncompacted,never⟩ := refines_empty.txns (Sys.txnsOf earlier)
  have current : ((KvStore.new Backend.empty).txns (Sys.txnsOf earlier)).currentRev.main = s.currentRev.main :=
    uncompacted.current.trans before.refines_.current.symm
  have nonneg : 0 ≤ asked := by
    simp only [asked, askedRev]
    split
    · exact before.refines_.settled.nonneg
    · omega
  by_cases future : rev > s.currentRev.main
  · right
    simp only [answer, KvStore.range, doRange, current, future, if_true]
  · have past : asked ≤ (History.empty.txns (Sys.txnsOf earlier)).current := by
      rw [← uncompacted.current, current]
      simp only [asked, askedRev]
      split <;> omega
    by_cases guard : asked < s.compactedMainRev
    · left
      change (if rev > s.currentRev.main then _ else if asked < s.compactedMainRev then _ else _) = _
      rw [if_neg future, if_pos guard]
    · right
      have quiet := guarded.resolve_right guard
      obtain ⟨still,same⟩ := History.snap_txns past (Sys.txnsOf between)
      rw [← History.txns_append, ← Sys.txnsOf_append] at still same
      have shows' := after.refines_.agree asked (bound nonneg quiet) still
      have shows_ := uncompacted.agree asked nonneg past
      rw [same] at shows'
      have asked_ : askedRev ((KvStore.new Backend.empty).txns (Sys.txnsOf earlier)).currentRev.main rev = asked := by
        rw [current]
      rw [← asked_] at shows_
      rw [KvStore.range, Content.Shows.doRange shows_, never, asked_, current]
      simp only [answer]
      rw [Content.Shows.doRange shows', if_neg future, if_neg guard, if_neg future]
      exact (if_neg (not_lt.mpr nonneg)).symm

theorem reads_beside_compaction_at_target :
    doRange (Sys.new.run ([.txn [.put [97] (some [1]) 0],.txn [.put [97] (some [2]) 0],.compact 2,.advance 0] ++
        [.advance 0])).store.kvIndex
      (Sys.new.run ([.txn [.put [97] (some [1]) 0],.txn [.put [97] (some [2]) 0],.compact 2,.advance 0] ++
        [.advance 0])).store.backend.buckets
      2 0 2 [97] none 0 = .ok ⟨[⟨[97],some [2],1,2,2,0⟩],1,2⟩ := by
  have answer := reads_beside_compaction
    [.txn [.put [97] (some [1]) 0],.txn [.put [97] (some [2]) 0],.compact 2,.advance 0] [.advance 0] (by decide) [97] none 2 0
    (Or.inl (by decide))
  rcases answer with refused | right
  · exact absurd refused (by decide)
  · refine right.trans ?_
    decide

/-- After the first visit of the index an older revision reads as if the key had never been there. -/
theorem reads_half_compacted :
    (Sys.new.run [.txn [.put [97] (some [1]) 0],.txn [.put [97] (some [2]) 0],.compact 2,.advance 0,
      .advance 0]).store.range [97] none 1 0 = .ok ⟨[],0,1⟩ ∧
    ((KvStore.new Backend.empty).txns [[.put [97] (some [1]) 0],[.put [97] (some [2]) 0]]).range [97] none 1 0
      = .ok ⟨[⟨[97],some [1],1,1,1,0⟩],1,1⟩ := by
  decide

end Kave
