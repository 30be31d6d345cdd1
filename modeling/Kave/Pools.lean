import Kave.WatchSys
import Kave.Runs

/-! The two groups of the hub: no id is in both of them, and a watcher that is in neither has been closed. -/

namespace Kave

/-- The groups have no id in common, and only a closed watcher has left them. -/
structure Hub.Consistent (h : Hub) : Prop where
  disjoint : ∀ id, h.synced.find? id = none ∨ h.unsynced.find? id = none
  kept : ∀ ref w, h.watchers[ref]? = some w → w.c.closed = true ∨ ∃ g, (h.members g).find? w.id = some ref

namespace Hub.Consistent

variable {h h' : Hub}

theorem other_none (consistent : h.Consistent) {g : Group} {id : Int} {ref : Nat} (found : (h.members g).find? id = some ref) :
    (h.members g.other).find? id = none := by
  cases g with
  | synced => exact (consistent.disjoint id).resolve_left (fun none => by simp [Hub.synced,found] at none)
  | unsynced => exact (consistent.disjoint id).resolve_right (fun none => by simp [Hub.unsynced,found] at none)

theorem of_other_none (none : ∀ g id ref, (h.members g).find? id = some ref → (h.members g.other).find? id = none) (id : Int) :
    h.synced.find? id = Option.none ∨ h.unsynced.find? id = Option.none := by
  cases found : h.synced.find? id with
  | none => exact Or.inl rfl
  | some ref => exact Or.inr (none .synced id ref found)

theorem updated (consistent : h.Consistent) {ref : Nat} {w w' : Watcher} (updated : h.Updated ref w w' h')
    (same : w.Same w') (closed : w'.c.closed = w.c.closed) : h'.Consistent where
  disjoint id := by
    rw [Hub.synced,Hub.unsynced,updated.members]
    exact consistent.disjoint id
  kept i x at_ := by
    rw [updated.after] at at_
    rw [updated.members]
    split at at_
    next is =>
      cases at_
      rw [closed,same.id,is]
      exact consistent.kept ref w updated.here
    next => exact consistent.kept i x at_

theorem drop (consistent : h.Consistent) (g : Group) (id : Int) (cause : Cause) : (h.drop g id cause).Consistent where
  disjoint id' := by
    refine of_other_none (fun g' id' ref found => ?_) id'
    rw [find_drop] at found ⊢
    split at found
    · cases found
    · rw [consistent.other_none found,ite_self]
  kept i x at_ := by
    rw [watchers_drop] at at_
    split at at_
    · obtain ⟨w,-,rfl⟩ := Option.map_eq_some_iff.mp at_
      exact Or.inl rfl
    next open_ =>
      refine (consistent.kept i x at_).imp_right ?_
      rintro ⟨g',found⟩
      refine ⟨g',?_⟩
      rw [find_drop,if_neg]
      · exact found
      · rintro ⟨rfl,same⟩
        exact open_ (same ▸ found)

theorem move (consistent : h.Consistent) (g : Group) (id : Int) : (h.move g id).Consistent where
  disjoint id' := by
    refine of_other_none (fun g' id' ref found => ?_) id'
    by_cases here : g' = g
    · subst here
      rw [find_move_self] at found
      split at found
      · cases found
      next different => rw [find_move_other,if_neg different,consistent.other_none found]
    · obtain rfl := Group.eq_other here
      rw [Group.other_other,find_move_self]
      rw [find_move_other] at found
      split at found
      next same => exact if_pos same
      next different =>
        rw [if_neg different]
        simpa using consistent.other_none found
  kept i x at_ := by
    refine (consistent.kept i x at_).imp_right ?_
    rintro ⟨g',found⟩
    by_cases same : x.id = id
    · subst same
      -- it is the watcher that moves, or there is none
      refine ⟨g.other,?_⟩
      rw [find_move_other,if_pos rfl]
      by_cases here : g' = g
      · rw [← here,found]
        rfl
      · obtain rfl := Group.eq_other here
        have none := consistent.other_none found
        rw [Group.other_other] at none
        rw [none,found]
        rfl
    · refine ⟨g',?_⟩
      by_cases here : g' = g
      · rw [here,find_move_self,if_neg same,← here,found]
      · obtain rfl := Group.eq_other here
        rw [find_move_other,if_neg same,found]

theorem register (consistent : h.Consistent) {g : Group} {w : Watcher} (opened : w.c.closed = false)
    (free : (h.members g).find? w.id = none) (elsewhere : (h.members g.other).find? w.id = none) :
    (h.register g w opened).Consistent where
  disjoint id := by
    refine of_other_none (fun g' id ref found => ?_) id
    rw [find_register] at found ⊢
    by_cases new : id = w.id
    · subst new
      have only : g' = g := by
        by_contra other
        obtain rfl := Group.eq_other other
        rw [if_neg fun both => other both.1,elsewhere] at found
        cases found
      rw [if_neg fun both => absurd (both.1.trans only.symm) g'.other_ne,only]
      exact elsewhere
    · rw [if_neg fun both => new both.2] at found ⊢
      exact consistent.other_none found
  kept i x at_ := by
    rw [watchers_register] at at_
    by_cases old : i < h.watchers.length
    · rw [List.getElem?_append_left old] at at_
      refine (consistent.kept i x at_).imp_right ?_
      rintro ⟨g',found⟩
      refine ⟨g',?_⟩
      rw [find_register,if_neg]
      · exact found
      · rintro ⟨rfl,same⟩
        rw [same,free] at found
        cases found
    · obtain ⟨lt,rfl⟩ := List.getElem?_eq_some_iff.mp at_
      have last : i = h.watchers.length := by
        rw [List.length_append,List.length_singleton] at lt
        omega
      subst last
      simp only [List.getElem_append_right (le_refl _),Nat.sub_self,List.getElem_singleton]
      exact Or.inr ⟨g,by rw [find_register,if_pos ⟨rfl,rfl⟩]⟩

end Hub.Consistent

/-- The watcher is to be created under an id that is bound in the group it does not go to. -/
def Hub.Foreign (h : Hub) (c : Creation) (s : KvStore) : Prop :=
  ∃ lastRevision, c.lastRevision s = .ok lastRevision ∧
    ((h.members (if c.startRev ≥ lastRevision then .unsynced else .synced)).find? c.id).isSome

instance (h : Hub) (c : Creation) (s : KvStore) : Decidable (h.Foreign c s) :=
  match read : c.lastRevision s with
  | .error _ => isFalse fun ⟨_,is,_⟩ => by rw [read] at is; cases is
  | .ok lastRevision => decidable_of_iff
      (((h.members (if c.startRev ≥ lastRevision then .unsynced else .synced)).find? c.id).isSome = true)
      ⟨fun bound => ⟨_,read,bound⟩,fun ⟨_,is,bound⟩ => by rw [read] at is; cases is; exact bound⟩

theorem Hub.Consistent.newWatcher {h : Hub} (consistent : h.Consistent) {c : Creation} {s : KvStore} (own : ¬ h.Foreign c s) :
    (h.newWatcher c s).1.Consistent := by
  rcases h.newWatcher_cases c s with ⟨e,run⟩ | ⟨g,lastRevision,read,chosen,free,run⟩ <;> rw [run]
  · exact consistent
  · refine consistent.register c.opened free (Option.not_isSome_iff_eq_none.mp fun bound => own ⟨lastRevision,read,?_⟩)
    cases g with
    | synced =>
      rw [if_pos (chosen.mp rfl)]
      exact bound
    | unsynced =>
      rw [if_neg fun late => by cases chosen.mpr late]
      exact bound

namespace WatchSys

/-- No watcher is created under an id of the other group. -/
def OwnId (σ : WatchSys) : Act → Prop
  | .endWatcher => ∀ c, σ.lock = .creating c → ¬ σ.hub.Foreign c σ.store
  | _ => True

instance (σ : WatchSys) : (act : Act) → Decidable (σ.OwnId act)
  | .endWatcher =>
    match held : σ.lock with
    | .creating c => decidable_of_iff (¬ σ.hub.Foreign c σ.store) ⟨fun own _ is => by rw [held] at is; cases is; exact own,fun all => all c held⟩
    | .free | .committing _ => isTrue fun _ is => by rw [held] at is; cases is
  | .txn _ | .compact _ | .advance _ | .beginCommit | .serve _ | .send _ | .endCommit | .beginWatcher _ _ | .cancel _ _ | .receive _
  | .dropWatcher _ | .dropAll | .take _ | .readRevisions | .look _ | .fetch | .feed _ | .finish => isTrue trivial

theorem Stepped.consistent {σ σ' : WatchSys} {act : Act} (stepped : σ.Stepped act σ') (ok : σ.OwnId act)
    (consistent : σ.hub.Consistent) : σ'.hub.Consistent := by
  refine stepped.hub_keeps consistent (fun _ _ _ _ kept => kept.drop _ _ _) (fun _ _ _ kept => kept.move _ _) (fun updated works => ?_)
    fun c held is => ?_
  · cases works with
    | sent room opened => exact consistent.updated updated ⟨rfl,rfl,rfl,rfl,rfl⟩ room.closed
    | cancel | forward => exact consistent.updated updated ⟨rfl,rfl,rfl,rfl,rfl⟩ rfl
    | receive => exact consistent.updated updated ⟨rfl,rfl,rfl,rfl,rfl⟩ (Chan.closed_receive _)
  · subst is
    exact consistent.newWatcher (ok c held)

end WatchSys

/-- As long as no watcher is created under an id of the other group, no id is in both groups and no watcher leaves them
    without being closed. -/
theorem groups_stay_consistent {acts : List Act} (own : Runs.Along WatchSys.step WatchSys.OwnId .new acts) :
    (∀ id, (WatchSys.new.run acts).hub.synced.find? id = none ∨ (WatchSys.new.run acts).hub.unsynced.find? id = none) ∧
      ∀ ref w, (WatchSys.new.run acts).hub.watchers[ref]? = some w →
        w.c.closed = true ∨ ∃ g, ((WatchSys.new.run acts).hub.members g).find? w.id = some ref := by
  have start : WatchSys.new.hub.Consistent := ⟨fun _ => Or.inl rfl,fun ref w at_ => by simp [WatchSys.new, Hub.new] at at_⟩
  have final := own.invariant (P := fun σ => σ.hub.Consistent) start fun σ act kept ok => (σ.step_cases act).consistent ok kept
  exact ⟨final.disjoint,final.kept⟩

/-- A watcher that takes no event is demoted when its buffer is full, and is dropped. Another one catches up and is promoted. -/
theorem groups_stay_consistent_after_drop :
    let commit := [Act.txn [.put [97] (some [1]) 0],.beginCommit,.serve 0,.send true,.send true,.send true,.endCommit]
    let demoted := [.beginWatcher ⟨7,some [97],none,false,0,none⟩ 0,.endWatcher] ++ (List.replicate 129 commit).flatten
    let acts := demoted ++ [.beginWatcher ⟨8,some [97],none,false,128,none⟩ 0,.endWatcher,.dropWatcher 7,.take [1],.readRevisions,
      .look 1,.fetch,.feed true,.feed true,.feed true,.finish]
    ((WatchSys.new.run demoted).hub.unsynced.find? 7 = some 0 ∧ (WatchSys.new.run acts).hub.synced.find? 8 = some 1) ∧
    (∀ id, (WatchSys.new.run acts).hub.synced.find? id = none ∨ (WatchSys.new.run acts).hub.unsynced.find? id = none) ∧
      ∀ ref w, (WatchSys.new.run acts).hub.watchers[ref]? = some w →
        w.c.closed = true ∨ ∃ g, ((WatchSys.new.run acts).hub.members g).find? w.id = some ref :=
  ⟨by decide +kernel,groups_stay_consistent (by decide +kernel)⟩

/-- Two watchers under one id, one in each group. When the first has caught up it takes the place of the second one, which is
    left open and in no group. -/
theorem promotion_overwrites_watcher :
    let commit := [Act.txn [.put [97] (some [1]) 0],.beginCommit,.endCommit]
    let created := commit ++ commit ++ [.beginWatcher ⟨7,some [97],none,false,1,none⟩ 0,.endWatcher,
      .beginWatcher ⟨7,some [98],none,false,0,none⟩ 0,.endWatcher]
    let ticked := created ++ [.take [0],.readRevisions,.look 0,.fetch,.feed true,.feed true,.feed true,.finish]
    ((WatchSys.new.run created).hub.synced.find? 7 = some 1 ∧ (WatchSys.new.run created).hub.unsynced.find? 7 = some 0) ∧
      (WatchSys.new.run ticked).hub.synced.find? 7 = some 0 ∧ (WatchSys.new.run ticked).hub.unsynced.find? 7 = none ∧
      ((WatchSys.new.run ticked).hub.watchers[1]?).map (fun w => (w.id,w.c.closed)) = some (7,false) := by
  decide

end Kave
