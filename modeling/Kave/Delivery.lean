import Kave.ChangeLog
import Kave.Hub

/-! What a watcher gets of a list of events that is offered to it as a whole, by a commit or by a visit of the loop. An event
    passes only if its revision is higher than that of every event before it, which is less than the lists hold. -/

namespace Kave

namespace Watcher

/-- The accepted events that are newer than `rev` and everything sent before them. -/
def fresh (w : Watcher) : Int → List Event → List Event
  | _, [] => []
  | rev, e :: rest =>
    if w.accepts e = true ∧ rev < e.entry.modRev then e :: fresh w e.entry.modRev rest else fresh w rev rest

theorem fresh_congr {w w' : Watcher} (same : w.Same w') (rev : Int) (events : List Event) :
    w'.fresh rev events = w.fresh rev events := by
  induction events generalizing rev with
  | nil => rfl
  | cons e rest ih => rw [fresh,fresh,same.accepts,ih,ih]

theorem fresh_sublist (w : Watcher) (rev : Int) (events : List Event) : (w.fresh rev events).Sublist (events.filter w.accepts) := by
  induction events generalizing rev with
  | nil => exact .slnil
  | cons e rest ih =>
    rw [fresh,List.filter_cons]
    by_cases wanted : w.accepts e = true
    · rw [if_pos wanted]
      split
      · exact (ih _).cons_cons e
      · exact (ih rev).cons e
    · rw [if_neg wanted,if_neg fun both => wanted both.1]
      exact ih rev

theorem fresh_eq_filter_iff (w : Watcher) (rev : Int) (events : List Event) :
    w.fresh rev events = events.filter w.accepts ↔
      (events.filter w.accepts).Pairwise (fun a b => a.entry.modRev < b.entry.modRev) ∧
        ∀ e ∈ events.filter w.accepts, rev < e.entry.modRev := by
  induction events generalizing rev with
  | nil => simp [fresh]
  | cons e rest ih =>
    rw [fresh,List.filter_cons]
    by_cases wanted : w.accepts e = true
    · rw [if_pos wanted,List.pairwise_cons]
      by_cases newer : rev < e.entry.modRev
      · rw [if_pos ⟨wanted,newer⟩,List.cons_eq_cons,ih,List.forall_mem_cons]
        constructor
        · rintro ⟨-,ascending,later⟩
          exact ⟨⟨later,ascending⟩,newer,fun x inside => newer.trans (later x inside)⟩
        · rintro ⟨⟨later,ascending⟩,-,-⟩
          exact ⟨rfl,ascending,later⟩
      · -- the event is dropped, and what is sent of the others cannot make up for it
        rw [if_neg fun both => newer both.2]
        refine iff_of_false (fun same => ?_) fun all => newer (all.2 e List.mem_cons_self)
        have shorter := (w.fresh_sublist rev rest).length_le
        rw [same,List.length_cons] at shorter
        omega
    · rw [if_neg wanted,if_neg fun both => wanted both.1]
      exact ih rev

theorem offer_live {w : Watcher} (live : w.ctx = none) (e : Event) :
    w.offer e = if w.accepts e = true ∧ w.currentRev < e.entry.modRev then .ready else .skipped := by
  rw [offer,live]
  by_cases wanted : w.accepts e = true <;> by_cases newer : w.currentRev < e.entry.modRev <;>
    simp [wanted,newer,not_le.mpr,not_lt.mp]

theorem sendAll_complete {events : List Event} {w : Watcher} (live : w.ctx = none) (complete : (w.sendAll events).2 = .complete) :
    (w.sendAll events).1.c.sent = w.c.sent ++ w.fresh w.currentRev events ∧
      ∀ rev, rev ≤ (w.sendAll events).1.currentRev ↔
        rev ≤ w.currentRev ∨ ∃ e ∈ w.fresh w.currentRev events, rev ≤ e.entry.modRev := by
  induction events generalizing w with
  | nil => exact ⟨(List.append_nil _).symm,fun rev => by simp [sendAll,fresh]⟩
  | cons e rest ih =>
    rw [sendAll,offer_live live] at complete ⊢
    rw [fresh]
    by_cases ready : w.accepts e = true ∧ w.currentRev < e.entry.modRev
    · rw [if_pos ready] at complete ⊢
      rw [if_pos ready]
      rcases w.select_cases e true with ⟨c,sent,-,run⟩ | ⟨cause,-,run⟩ | ⟨-,run⟩ | ⟨-,run⟩
      · rw [run] at complete ⊢
        have revision : (w.sent e c).currentRev = e.entry.modRev := if_pos ready.2
        have same : w.Same (w.sent e c) := ⟨rfl,rfl,rfl,rfl,rfl⟩
        obtain ⟨delivered,reached⟩ := @ih (w.sent e c) live complete
        rw [fresh_congr same,revision] at delivered reached
        refine ⟨delivered.trans ?_,fun rev => (reached rev).trans ?_⟩
        · change c.sent ++ _ = _
          rw [sent.sent,List.append_assoc]
          rfl
        · rw [List.exists_mem_cons_iff]
          have := ready.2
          exact ⟨Or.inr,fun either => either.elim (fun low => Or.inl (by omega)) fun high => high⟩
      all_goals
        rw [run] at complete
        cases complete
    · rw [if_neg ready] at complete ⊢
      rw [if_neg ready]
      exact ih live complete

theorem sendAll_live {events : List Event} {w : Watcher} (live : w.ctx = none) (opened : w.c.closed = false)
    (room : (w.fresh w.currentRev events).length ≤ w.c.free) :
    (w.sendAll events).2 = .complete ∧ (w.sendAll events).1.c.sent = w.c.sent ++ w.fresh w.currentRev events := by
  have complete : (w.sendAll events).2 = .complete := by
    induction events generalizing w with
    | nil => rfl
    | cons e rest ih =>
      rw [sendAll,offer_live live]
      rw [fresh] at room
      by_cases ready : w.accepts e = true ∧ w.currentRev < e.entry.modRev
      · rw [if_pos ready] at room ⊢
        rw [List.length_cons] at room
        rcases w.select_cases e true with ⟨c,sent,-,run⟩ | ⟨cause,done,-⟩ | ⟨full,-⟩ | ⟨closed,-⟩
        · rw [run]
          have revision : (w.sent e c).currentRev = e.entry.modRev := if_pos ready.2
          have same : w.Same (w.sent e c) := ⟨rfl,rfl,rfl,rfl,rfl⟩
          refine @ih (w.sent e c) live (sent.closed.trans opened) ?_
          rw [fresh_congr same,revision]
          have := sent.free
          change _ ≤ c.free
          omega
        · exact absurd (live.symm.trans done) (by simp)
        · omega
        · rw [opened] at closed
          cases closed
      · rw [if_neg ready] at room ⊢
        exact ih live opened room
  exact ⟨complete,(sendAll_complete live complete).1⟩

end Watcher

/-! ### Commits -/

namespace Hub

theorem serve_watchers (events : List Event) (state : Hub × List (Int × SendError)) (member : Int × Nat) (i : Nat) :
    (serve events state member).1.watchers[i]? =
      if i = member.2 then (state.1.watchers[i]?).map (fun w => (w.sendAll events).1) else state.1.watchers[i]? := by
  obtain ⟨h,removals⟩ := state
  rw [serve]
  cases here : h.watchers[member.2]? with
  | none =>
    by_cases same : i = member.2
    · simp [same,here]
    · simp [same]
  | some w =>
    simp only
    rw [← watchers_update h member.2 i fun w => w.sendAll_same events]
    split <;> rfl

theorem serveAll_watchers (events : List Event) {members : List (Int × Nat)} (distinct : (members.map (·.2)).Nodup)
    (state : Hub × List (Int × SendError)) (i : Nat) :
    (members.foldl (serve events) state).1.watchers[i]? =
      if i ∈ members.map (·.2) then (state.1.watchers[i]?).map (fun w => (w.sendAll events).1) else state.1.watchers[i]? := by
  induction members generalizing state with
  | nil => simp
  | cons member rest ih =>
    obtain ⟨notIn,distinctRest⟩ := List.nodup_cons.mp distinct
    rw [List.foldl_cons,ih distinctRest,serve_watchers,List.map_cons]
    by_cases same : i = member.2
    · rw [if_neg (by rw [same]; exact notIn),if_pos same,if_pos (by rw [same]; exact List.mem_cons_self)]
    · rw [if_neg same]
      exact if_congr (List.mem_cons.trans (or_iff_right same)).symm rfl rfl

theorem sentAt_applyRemoval (h : Hub) (r : Int × SendError) (i : Nat) : (h.applyRemoval r).sentAt i = h.sentAt i := by
  rw [applyRemoval]
  split
  · exact h.sentAt_move .synced r.1 i
  · exact h.sentAt_drop .synced r.1 i .canceled
  · exact h.sentAt_drop .synced r.1 i .deadlineExceeded

theorem sentAt_onCommit (h : Hub) (changes : List Entry) {id : Int} {ref : Nat} {w : Watcher}
    (bound : h.synced.find? id = some ref) (here : h.watchers[ref]? = some w) :
    (h.onCommit changes).sentAt ref = some (w.sendAll (toKvEvents changes)).1.c.sent := by
  have removals : ∀ (rs : List (Int × SendError)) (h : Hub), (rs.foldl applyRemoval h).sentAt ref = h.sentAt ref := by
    intro rs
    induction rs with
    | nil => exact fun _ => rfl
    | cons r rest ih => exact fun h => (ih _).trans (h.sentAt_applyRemoval r ref)
  have served := serveAll_watchers (toKvEvents changes) (h.refs_nodup .synced) (h,[]) ref
  rw [if_pos (mem_refs.mpr ⟨id,bound⟩)] at served
  rw [onCommit]
  change ((List.foldl applyRemoval _ _).sentAt ref) = _
  rw [removals,sentAt]
  change ((List.foldl (serve (toKvEvents changes)) (h,[]) (h.members .synced).entries).1.watchers[ref]?).map _ = _
  rw [served,here]
  rfl

end Hub

/-- A synced watcher gets all it accepts of a transaction exactly if that is at most one change. -/
theorem synced_watcher_sees_transaction_iff {h : Hub} {id : Int} {ref : Nat} {w : Watcher} {changes : List Entry} {rev : Int}
    (bound : h.synced.find? id = some ref) (here : h.watchers[ref]? = some w) (live : w.ctx = none)
    (dated : ∀ e ∈ changes, e.modRev = rev) (above : w.currentRev < rev)
    (room : ((toKvEvents changes).filter w.accepts).length ≤ w.c.free) :
    (h.onCommit changes).sentAt ref = some (w.c.sent ++ (toKvEvents changes).filter w.accepts) ↔
      ((toKvEvents changes).filter w.accepts).length ≤ 1 := by
  obtain ⟨w',here',-,opened⟩ := h.named .synced id ref bound
  rw [here] at here'
  cases here'
  have fits := (w.fresh_sublist w.currentRev (toKvEvents changes)).length_le.trans room
  have dates : ∀ e ∈ (toKvEvents changes).filter w.accepts, e.entry.modRev = rev := by
    intro e member
    obtain ⟨change,inside,rfl⟩ := List.mem_map.mp (List.mem_filter.mp member).1
    exact dated change inside
  rw [h.sentAt_onCommit changes bound here, (Watcher.sendAll_live live opened fits).2, Option.some.injEq,
    List.append_cancel_left_eq, Watcher.fresh_eq_filter_iff]
  generalize (toKvEvents changes).filter w.accepts = accepted at dates ⊢
  constructor
  · rintro ⟨ascending,-⟩
    match accepted with
    | [] | [_] => simp
    | a :: b :: rest =>
      have less := (List.pairwise_cons.mp ascending).1 b List.mem_cons_self
      rw [dates a List.mem_cons_self, dates b (by simp)] at less
      exact absurd less (lt_irrefl _)
  · intro few
    refine ⟨?_,fun e member => by rw [dates e member]; exact above⟩
    match accepted with
    | [] | [_] => simp
    | a :: b :: rest => simp at few

/-- A hub with one watcher, synced, of all keys. -/
def Hub.watchingAll : Hub := Hub.new.register .synced (Creation.begin ⟨7,none,none,false,0,none⟩ 0 0).watcher rfl

/-- A transaction with three changes, and a watcher of the key of one of them. -/
theorem synced_watcher_sees_single_change :
    let h := Hub.new.register .synced (Creation.begin ⟨7,some [98],none,false,0,none⟩ 0 0).watcher rfl
    let changes : List Entry := [⟨[97],some [1],1,1,1,0⟩,⟨[98],some [2],1,1,1,0⟩,⟨[99],some [3],1,1,1,0⟩]
    (h.onCommit changes).sentAt 0 = some [⟨.put,⟨[98],some [2],1,1,1,0⟩⟩] := by
  intro h changes
  exact (@synced_watcher_sees_transaction_iff h 7 0 _ changes 1 (by decide) rfl rfl (by decide) (by decide) (by decide)).mpr
    (by decide)

/-- Of a transaction that puts two keys the watcher gets the first one only. -/
theorem synced_watcher_misses_second_change :
    let s := KvStore.new Backend.empty
    s.txnChanges [.put [97] (some [1]) 0,.put [98] (some [2]) 0] = some [⟨[97],some [1],1,1,1,0⟩,⟨[98],some [2],1,1,1,0⟩] ∧
      (Hub.watchingAll.onCommit [⟨[97],some [1],1,1,1,0⟩,⟨[98],some [2],1,1,1,0⟩]).sentAt 0 =
        some [⟨.put,⟨[97],some [1],1,1,1,0⟩⟩] := by
  decide

end Kave
