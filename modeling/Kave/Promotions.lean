import Kave.CatchUp
import Kave.PromotionGap

/-! Promotions by a tick. A watcher of a single key is compared with the last pending revision, while its own revision follows
    the events that it is sent, and these leave out what its filter rejects and a second change of one transaction. -/

namespace Kave

namespace Watcher

/-- The visit gets to the end of what is pending: no limit, no read error, no overload, no cancellation and no compaction is
    in the way. -/
structure Processed (w : Watcher) (failures : Nat) (s : KvStore) (pending : List Event) : Prop where
  tolerated : failures < unsynchedFailureLimit
  live : w.ctx = none
  kept : s.compactedMainRev ≤ w.currentRev
  readable : fetch s.backend.buckets.kv
    (s.kvIndex.revisionsRange w.keyStart w.keyEnd w.currentRev (s.currentRev.main + 1)) = some pending
  complete : (w.sendAll pending).2 = .complete

theorem Processed.visit {w : Watcher} {failures : Nat} {s : KvStore} {pending : List Event}
    (processed : w.Processed failures s pending) :
    let visited := w.visit failures s.currentRev.main s.compactedMainRev s.kvIndex s.backend.buckets.kv
    visited.1.c.sent = w.c.sent ++ w.fresh w.currentRev pending ∧ (∀ cause, visited.2 ≠ .delete cause) ∧
      (visited.2 = .promote ↔ pending = [] ∨ highestRev pending ≤ (w.sendAll pending).1.currentRev) := by
  intro visited
  have passes : ¬ (failures ≥ unsynchedFailureLimit ∨ w.ctx.isSome = true) := by
    simp [processed.live,processed.tolerated]
  have run : visited = if pending = [] then ({ w with currentRev := s.currentRev.main },.promote)
      else ((w.sendAll pending).1,if highestRev pending ≤ (w.sendAll pending).1.currentRev then .promote else .stays) := by
    have lengths := congrArg List.length (fetch_eq_some.mp processed.readable)
    rw [List.length_map,List.length_map] at lengths
    have empty : s.kvIndex.revisionsRange w.keyStart w.keyEnd w.currentRev (s.currentRev.main + 1) = [] ↔ pending = [] := by
      rw [← List.length_eq_zero_iff,← List.length_eq_zero_iff,lengths]
    rw [show visited = w.visit failures _ _ _ _ from rfl,Watcher.visit,look,if_neg passes,if_neg (not_lt.mpr processed.kept)]
    by_cases none : pending = []
    · simp [empty.mpr none,none]
    · simp only [empty,none,if_false,processed.readable,conclude,processed.complete]
  rw [run]
  by_cases none : pending = []
  · simp [none,fresh]
  · rw [if_neg none]
    refine ⟨(sendAll_complete processed.live processed.complete).1,fun cause => ?_,?_⟩
    · split <;> simp
    · simp [none]

theorem SingleKey.pending {w : Watcher} (single : w.SingleKey) {s : KvStore} {log : List (KvBucketKey × Entry)}
    (logged : s.Logged log) {pending : List Event} (readable : fetch s.backend.buckets.kv
      (s.kvIndex.revisionsRange w.keyStart w.keyEnd w.currentRev (s.currentRev.main + 1)) = some pending) :
    pending.Pairwise (fun a b => a.entry.modRev ≤ b.entry.modRev) ∧
      ∀ e ∈ pending, w.accepts e = w.passes e ∧ w.currentRev < e.entry.modRev := by
  refine ⟨fetch_ascending logged (logged.revisionsRange_sorted single _ _) readable,fun e member => ?_⟩
  have inside : some e ∈ pending.map some := List.mem_map_of_mem member
  rw [← fetch_eq_some.mp readable] at inside
  obtain ⟨bk,listed,found⟩ := List.mem_map.mp inside
  obtain ⟨entry,stored,rfl⟩ := Option.map_eq_some_iff.mp found
  obtain ⟨key,selected,record,above,-⟩ := TreeIndex.mem_revisionsRange.mp listed
  have known := logged.known bk entry stored
  have named : entry.key = key := logged.key_eq known record
  have dated : entry.modRev = bk.rev.main := logged.dated _ known
  rw [TreeIndex.selects,if_pos (show w.keyEnd = none ∧ w.keyStart ≠ [] from single)] at selected
  have covered : w.covers entry.key = true := by
    rw [named,of_decide_eq_true selected]
    simp [covers,single.1,single.2]
  constructor
  · rw [accepts,show (toKvEvent entry).entry.key = entry.key from rfl,covered,Bool.and_true]
  · change w.currentRev < entry.modRev
    rw [dated]
    exact above

/-- All that passes is sent, and the last pending revision reached, if what passes is of different transactions and the last
    of them has something that passes. -/
theorem caught_up_iff {w : Watcher} {pending : List Event}
    (ascending : pending.Pairwise fun a b => a.entry.modRev ≤ b.entry.modRev)
    (about : ∀ e ∈ pending, w.accepts e = w.passes e ∧ w.currentRev < e.entry.modRev) (some_ : pending ≠ [])
    {now : Int} (reaches : ∀ rev, rev ≤ now ↔ rev ≤ w.currentRev ∨ ∃ e ∈ w.fresh w.currentRev pending, rev ≤ e.entry.modRev) :
    w.fresh w.currentRev pending = pending.filter w.passes ∧ highestRev pending ≤ now ↔
      (pending.filter w.passes).Pairwise (fun a b => a.entry.modRev ≠ b.entry.modRev) ∧
        ∃ e ∈ pending, w.passes e = true ∧ e.entry.modRev = highestRev pending := by
  have same : pending.filter w.accepts = pending.filter w.passes := List.filter_congr fun e member => (about e member).1
  have whole := w.fresh_eq_filter_iff w.currentRev pending
  rw [same] at whole
  have newer : ∀ e ∈ pending.filter w.passes, w.currentRev < e.entry.modRev := fun e member =>
    (about e (List.mem_filter.mp member).1).2
  have strict : (pending.filter w.passes).Pairwise (fun a b => a.entry.modRev < b.entry.modRev) ↔
      (pending.filter w.passes).Pairwise fun a b => a.entry.modRev ≠ b.entry.modRev :=
    ⟨fun less => less.imp fun {a b} lt => lt.ne,fun different =>
      ((ascending.filter _).and different).imp fun {a b} both => lt_of_le_of_ne both.1 both.2⟩
  rw [whole,strict,and_iff_left newer]
  refine and_congr_right fun different => ?_
  have all := whole.mpr ⟨strict.mpr different,newer⟩
  rw [reaches,all]
  have above : ¬ highestRev pending ≤ w.currentRev := by
    obtain ⟨first,member⟩ := List.exists_mem_of_ne_nil pending some_
    exact not_le.mpr ((about first member).2.trans_le (le_highestRev ascending member))
  rw [or_iff_right above]
  constructor
  · rintro ⟨e,member,high⟩
    obtain ⟨inside,passes⟩ := List.mem_filter.mp member
    exact ⟨e,inside,passes,le_antisymm (le_highestRev ascending inside) high⟩
  · rintro ⟨e,inside,passes,is⟩
    exact ⟨e,List.mem_filter.mpr ⟨inside,passes⟩,is.ge⟩

end Watcher

theorem UnsyncedLoop.synced_tick {s : KvStore} {failures : Failures} {h : Hub} {batch : List Nat} (taken : h.Batch batch)
    {ref : Nat} (inBatch : ref ∈ batch) {w : Watcher} (here : h.watchers[ref]? = some w) :
    let verdict := (w.visit ((failures.find? w.id).getD 0) s.currentRev.main s.compactedMainRev s.kvIndex s.backend.buckets.kv).2
    (∀ cause, verdict ≠ .delete cause) → ((tick s failures h batch).2.synced.find? w.id = some ref ↔ verdict = .promote) := by
  intro verdict spared
  obtain ⟨id,bound⟩ := Hub.mem_refs.mp (taken.2.1 ref inBatch)
  obtain ⟨w',here',named,-⟩ := h.named .unsynced id ref bound
  obtain rfl : w = w' := Option.some.inj (here.symm.trans here')
  subst named
  obtain ⟨-,members,promotes,deletes⟩ := Tick.visits_of_batch s taken.1 failures h
    ⟨s.currentRev.main,s.compactedMainRev,batch,batch,[],[]⟩ (fun a inA b inB w w' atA atB same => taken.ids inA inB atA atB same)
    inBatch here
  rw [tick]
  generalize batch.foldl (Tick.visit s) _ = final at members promotes deletes ⊢
  obtain ⟨failures',h',t'⟩ := final
  change ((t'.finish failures' h').2).synced.find? w.id = _ ↔ _
  have kept : w.id ∉ t'.deletes.map (·.1) := by
    intro inside
    obtain ⟨⟨_,cause⟩,member,rfl⟩ := List.mem_map.mp inside
    exact spared cause (((deletes cause).mp member).resolve_left (by simp))
  have elsewhere : h.synced.find? w.id ≠ some ref := fun also =>
    absurd (h.apart .unsynced .synced w.id w.id ref bound also) (by simp)
  have groups : h'.unsynced.find? w.id = some ref ∧ h'.synced.find? w.id = h.synced.find? w.id := by
    rw [Hub.unsynced,Hub.synced,Hub.synced,show h'.members = h.members from members]
    exact ⟨bound,rfl⟩
  have marked : w.id ∈ t'.promotes ↔ verdict = .promote := promotes.trans (or_iff_right (by simp))
  rw [Tick.find_finish,if_neg kept,groups.1,groups.2,Option.some_or]
  split
  next is => exact iff_of_true rfl (marked.mp is)
  next isNot => exact iff_of_false elsewhere fun promoted => isNot (marked.mpr promoted)

/-- In every state of the system, a tick that gets to the end of what is pending for a watcher of a single key delivers all of it
    that passes the filter and promotes the watcher, exactly if nothing is pending, or no transaction has two pending changes that
    pass and the last pending transaction has one. -/
theorem caught_up_watcher_is_promoted_iff (acts : List Act) {batch : List Nat} {ref : Nat} {w : Watcher} {pending : List Event} :
    let σ := WatchSys.new.run acts
    σ.hub.Batch batch → ref ∈ batch → σ.hub.watchers[ref]? = some w → w.SingleKey →
      w.Processed ((σ.failures.find? w.id).getD 0) σ.store pending →
      let h := (UnsyncedLoop.tick σ.store σ.failures σ.hub batch).2
      (h.sentAt ref = some (w.c.sent ++ pending.filter w.passes) ∧ h.synced.find? w.id = some ref ↔
        pending = [] ∨ (pending.filter w.passes).Pairwise (fun a b => a.entry.modRev ≠ b.entry.modRev) ∧
          ∃ e ∈ pending, w.passes e = true ∧ e.entry.modRev = Watcher.highestRev pending) := by
  intro σ taken inBatch here single processed h
  have ordered : σ.Ordered := List.foldlRecOn _ _ .new fun σ kept act _ => kept.step (σ.step_cases act)
  obtain ⟨ascending,about⟩ := single.pending ordered.logged processed.readable
  obtain ⟨sent,spared,promoted⟩ := processed.visit
  have reaches := (Watcher.sendAll_complete processed.live processed.complete).2
  rw [UnsyncedLoop.sentAt_tick taken inBatch here, UnsyncedLoop.synced_tick taken inBatch here spared, sent, promoted,
    Option.some.injEq, List.append_cancel_left_eq]
  by_cases none : pending = []
  · simp [none, Watcher.fresh]
  · rw [or_iff_right none, or_iff_right none]
    exact Watcher.caught_up_iff ascending about none reaches

/-- A watcher of puts that lags behind by one put. -/
theorem caught_up_watcher_is_promoted_put :
    let commit := [Act.txn [.put [97] (some [1]) 0],.beginCommit,.endCommit]
    let σ := WatchSys.new.run (commit ++ commit ++ [.beginWatcher ⟨7,some [97],none,false,1,some .noDelete⟩ 0,.endWatcher])
    let h := (UnsyncedLoop.tick σ.store σ.failures σ.hub [0]).2
    ∃ w, σ.hub.watchers[0]? = some w ∧ h.sentAt 0 = some (w.c.sent ++ [⟨.put,⟨[97],some [1],1,2,2,0⟩⟩]) ∧
      h.synced.find? w.id = some 0 := by
  intro commit σ h
  have here : σ.hub.watchers[0]? = some (Creation.watcher ⟨7,[97],none,1,2,some .noDelete⟩) := by rfl
  refine ⟨_,here,?_⟩
  exact (@caught_up_watcher_is_promoted_iff _ [0] 0 _ [⟨.put,⟨[97],some [1],1,2,2,0⟩⟩] (by decide) (by decide) here ⟨rfl,by decide⟩
    ⟨by decide,rfl,by decide,by decide,by decide⟩).mpr
    (Or.inr ⟨by decide,_,List.mem_singleton_self _,rfl,rfl⟩)

/-- A watcher of puts whose key was put and then deleted: the put is sent, and the watcher stays unsynced however often the loop
    ticks. Of two puts in one transaction only the first is sent. -/
theorem filtered_watcher_stays_unsynced :
    let commit := fun ops => [Act.txn ops,.beginCommit,.endCommit]
    let start := [Act.beginWatcher ⟨7,some [97],none,false,1,some .noDelete⟩ 0,.endWatcher]
    let put : Op := .put [97] (some [1]) 0
    let σ := WatchSys.new.run (commit [put] ++ commit [put] ++ commit [.deleteKey [97]] ++ start)
    let first := UnsyncedLoop.tick σ.store σ.failures σ.hub [0]
    let second := UnsyncedLoop.tick σ.store first.1 first.2 [0]
    let twice := WatchSys.new.run (commit [put] ++ commit [put,put] ++ start)
    first.2.sentAt 0 = some [⟨.put,⟨[97],some [1],1,2,2,0⟩⟩] ∧ first.2.synced.find? 7 = none ∧
      second.2.sentAt 0 = first.2.sentAt 0 ∧ second.2.synced.find? 7 = none ∧ second.2.unsynced.find? 7 = some 0 ∧
      (UnsyncedLoop.tick twice.store twice.failures twice.hub [0]).2.sentAt 0 = some [⟨.put,⟨[97],some [1],1,2,2,0⟩⟩] := by
  decide

end Kave
