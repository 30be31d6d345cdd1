import Kave.Pursuit

/-! Compactions under the loop. The index is trimmed before the store knows its compacted revision, and the loop reads that
    revision once per tick, so what is gone can look like what never was. -/

namespace Kave

theorem Tick.finish_synced {t : Tick} {failures : Failures} {h : Hub} {id : Int} {ref : Nat}
    (bound : (t.finish failures h).2.synced.find? id = some ref) :
    h.synced.find? id = some ref ∨ id ∈ t.promotes ∧ h.unsynced.find? id = some ref := by
  rw [Tick.find_finish] at bound
  split at bound
  next marked =>
    rcases Option.or_eq_some_iff.mp bound with moved | ⟨-,old⟩
    · split at moved
      · cases moved
      · exact Or.inr ⟨marked,moved⟩
    · exact Or.inl old
  next => exact Or.inl bound

/-- A compaction has taken the record out of the index or out of the bucket. -/
def KvStore.Removed (s : KvStore) (e : KvBucketKey × Entry) : Prop :=
  e.1 ∉ s.kvIndex.records e.2.key ∨ s.backend.buckets.kv.find? e.1 = none

namespace WatchSys

/-- What is promoted at the end of a tick was in its batch, and for the changes after the revision that the tick has read
    there is `q`. -/
def PromotesOwn (q : WatchSys → KvBucketKey × Entry → Prop) (p : Watcher → Prop) (σ : WatchSys) : Act → Prop
  | .finish => ∀ t, σ.loop = .ticking t .next → ∀ id ∈ t.promotes, ∀ ref w, σ.hub.unsynced.find? id = some ref →
      σ.hub.watchers[ref]? = some w → p w →
      ref ∈ t.batch ∧ ∀ e ∈ σ.log, w.accepts (toKvEvent e.2) = true → t.storeRev < e.1.rev.main → q σ e
  | _ => True

/-- The conditions under which compactions do no harm. -/
def Careful (σ : WatchSys) (act : Act) : Prop :=
  σ.Lists (fun _ => True) act ∧ σ.PromotesOwn (fun σ e => ¬ σ.store.Removed e) (fun _ => True) act

variable {p : Watcher → Prop} {q : WatchSys → KvBucketKey × Entry → Prop} {σ σ' : WatchSys} {act : Act}

theorem Stepped.promotes (stepped : σ.Stepped act σ') (ofLoop : act.ofLoop = true) (own : σ.PromotesOwn q p act)
    (chases : σ.loop.Chases p σ.hub σ.log) {id : Int} {ref : Nat} {w : Watcher} (here : σ.hub.watchers[ref]? = some w) (isKind : p w)
    (after : σ'.hub.synced.find? id = some ref) {e : KvBucketKey × Entry} (logged : e ∈ σ.log)
    (accepted : w.accepts (toKvEvent e.2) = true) (above : w.currentRev < e.1.rev.main) :
    σ.hub.synced.find? id = some ref ∨ q σ e := by
  cases stepped with
  | waits | take | readRevisions | looks | fetches | loses => exact Or.inl after
  | givesUp | misses | fed => exact Or.inl after
  | @forwards t ref' x h at_ due fresh current updated =>
    change (h.members .synced).find? id = some ref at after
    rw [updated.members] at after
    exact Or.inl after
  | @feeds t f f' highest h takeDone at_ ran =>
    cases ran with
    | skipped | passed => exact Or.inl after
    | @sent x event rest c h todo tested room opened updated =>
      change (h.members .synced).find? id = some ref at after
      rw [updated.members] at after
      exact Or.inl after
  | @finish t at_ free done =>
    change (t.finish σ.failures σ.hub).2.synced.find? id = some ref at after
    rcases Tick.finish_synced after with before | ⟨marked,bound⟩
    · exact Or.inl before
    · obtain ⟨inBatch,later⟩ := own t at_ id marked ref w bound here isKind
      rw [at_] at chases
      obtain ⟨w',here',named,-⟩ := σ.hub.named .unsynced id ref bound
      cases here.symm.trans here'
      refine Or.inr (later e logged accepted (not_le.mp fun upTo => ?_))
      exact chases.1.promoted ref inBatch w here isKind (named ▸ marked) e ⟨logged,accepted,above,upTo⟩
  | _ => cases ofLoop

theorem Pursues.looked (pursues : Pursues p σ) (alive : σ.panicked = false) {ref : Nat} (lists : σ.Lists p (.look ref)) {t : Tick}
    (at_ : σ.loop = .ticking t .next) (due : ref ∈ t.todo) {w : Watcher} (here : σ.hub.watchers[ref]? = some w) (isKind : p w)
    {e : KvBucketKey × Entry} (lacks : w.Lacks σ.log t.storeRev e) :
    (∃ t' cause, (σ.step (.look ref)).loop = .ticking t' .next ∧ (w.id,cause) ∈ t'.deletes) ∨
      ∃ t' revs, (σ.step (.look ref)).loop = .ticking t' (.looked ref revs) ∧ e.1 ∈ revs := by
  have run : σ.step (.look ref) = σ.look ref := by
    rw [WatchSys.step,alive]
    rfl
  have found : t.compactedRev ≤ w.currentRev →
      e.1 ∈ σ.store.kvIndex.revisionsRange w.keyStart w.keyEnd w.currentRev (t.storeRev + 1) := by
    intro fresh
    obtain ⟨known,ascending⟩ := lists t w at_ here isKind fresh
    exact (pursues.ordered.logged.listed_by_index known ascending).lacked e lacks
  rw [run,look,at_,here]
  simp only [due,if_true]
  rcases w.look_cases ((σ.failures.find? w.id).getD 0) t.storeRev t.compactedRev σ.store.kvIndex with
    ⟨cause,outcome⟩ | ⟨fresh,⟨current,-⟩ | outcome⟩
  · rw [outcome]
    exact Or.inl ⟨_,cause,rfl,List.mem_append_right _ (List.mem_singleton.mpr rfl)⟩
  · rw [current] at found
    cases found fresh
  · rw [outcome]
    exact Or.inr ⟨_,_,rfl,found fresh⟩

theorem fetch_fails (alive : σ.panicked = false) {t : Tick} {ref : Nat} {revs : List KvBucketKey}
    (at_ : σ.loop = .ticking t (.looked ref revs)) {w : Watcher} (here : σ.hub.watchers[ref]? = some w) {bk : KvBucketKey}
    (listed : bk ∈ revs) (gone : σ.store.backend.buckets.kv.find? bk = none) :
    (σ.step .fetch).failures.find? w.id = some ((σ.failures.find? w.id).getD 0 + 1) := by
  have missing : Watcher.fetch σ.store.backend.buckets.kv revs = none := by
    cases found : Watcher.fetch σ.store.backend.buckets.kv revs with
    | none => rfl
    | some events =>
      have member := List.mem_map_of_mem (f := fun bk => (σ.store.backend.buckets.kv.find? bk).map toKvEvent) listed
      rw [Watcher.fetch_eq_some.mp found,gone] at member
      simp at member
  have run : σ.step .fetch = σ.conclude t w.id .failed := by
    rw [step,alive]
    change σ.fetch = _
    rw [fetch,at_]
    simp only [here,missing]
  rw [run]
  exact (SortedMap.find_insert _ _ _ _).trans (if_pos rfl)

end WatchSys

/-- As long as the index still lists what a tick is to send, in the order of the revisions, and nothing that a watcher accepts
    is committed and compacted between the tick's reading of the revision and the promotion: the loop brings no watcher past a
    change that was removed, unless it sends the change, and does not promote the watcher. When it looks at the watcher it gives
    up on it or finds the change in the index, and if the bucket has lost it that is a failure. -/
theorem removed_change_is_not_skipped {acts : List Act} {act : Act}
    (careful : Runs.Along WatchSys.step WatchSys.Careful .new (acts ++ [act])) (ofLoop : act.ofLoop = true)
    {σ : WatchSys} (reached : σ = WatchSys.new.run acts) (alive : σ.panicked = false) {ref : Nat} {w : Watcher}
    (here : σ.hub.watchers[ref]? = some w) {e : KvBucketKey × Entry} (logged : e ∈ σ.log)
    (accepted : w.accepts (toKvEvent e.2) = true) (above : w.currentRev < e.1.rev.main) (removed : σ.store.Removed e) :
    (∀ w', (σ.step act).hub.watchers[ref]? = some w' → e.1.rev.main ≤ w'.currentRev → toKvEvent e.2 ∈ w'.c.sent) ∧
    (∀ id, (σ.step act).hub.synced.find? id = some ref → σ.hub.synced.find? id = some ref) ∧
    (∀ t, act = .look ref → σ.loop = .ticking t .next → ref ∈ t.todo → e.1.rev.main ≤ t.storeRev →
      (∃ t' cause, (σ.step act).loop = .ticking t' .next ∧ (w.id,cause) ∈ t'.deletes) ∨
        ∃ t' revs, (σ.step act).loop = .ticking t' (.looked ref revs) ∧ e.1 ∈ revs) ∧
    ∀ t revs, act = .fetch → σ.loop = .ticking t (.looked ref revs) → e.1 ∈ revs →
      σ.store.backend.buckets.kv.find? e.1 = none →
      (σ.step act).failures.find? w.id = some ((σ.failures.find? w.id).getD 0 + 1) := by
  have kind : Watcher.Kind fun _ => True := fun _ _ _ _ => trivial
  obtain ⟨before,now⟩ := Runs.along_append.mp careful
  have pursues : WatchSys.Pursues (fun _ => True) σ := by
    rw [reached]
    exact before.invariant (.new _) fun σ act kept ok => kept.step kind ok.1
  obtain ⟨lists,own⟩ : σ.Careful act := by
    rw [reached]
    exact now.1
  have chases := pursues.chases alive
  have stepped := σ.step_cases act
  refine ⟨fun w' after le => ?_,fun id after => ?_,fun t is at_ due upTo => ?_,fun t revs is at_ listed gone => ?_⟩
  · exact stepped.passes ofLoop pursues.ordered lists chases here trivial after logged accepted above le
  · exact (stepped.promotes ofLoop own chases here trivial after logged accepted above).resolve_right fun not => not removed
  · subst is
    exact pursues.looked alive lists at_ due here trivial ⟨logged,accepted,above,upTo⟩
  · subst is
    exact WatchSys.fetch_fails alive at_ here listed gone

/-- The history of one key, a watcher that lags behind, and a compaction of all of it. -/
def laggingActs : List Act :=
  let commit := [Act.txn [.put [97] (some [1]) 0],.beginCommit,.endCommit]
  commit ++ commit ++ commit ++ [.beginWatcher ⟨7,some [97],none,false,1,none⟩ 0,.endWatcher,.compact 3]

/-- The compaction has ended when the loop looks, and the watcher is given up on. -/
theorem removed_change_is_not_skipped_after_compaction :
    let acts := laggingActs ++ [.advance 0,.advance 0,.advance 0,.advance 0,.advance 0,.take [0],.readRevisions]
    let looked := (WatchSys.new.run acts).step (.look 0)
    (∀ w', looked.hub.watchers[0]? = some w' → 2 ≤ w'.currentRev → toKvEvent ⟨[97],some [1],1,2,2,0⟩ ∈ w'.c.sent) ∧
      (∀ id, looked.hub.synced.find? id ≠ some 0) ∧
      ∃ t cause, looked.loop = .ticking t .next ∧ (7,cause) ∈ t.deletes := by
  intro acts looked
  have loop : (WatchSys.new.run acts).loop = .ticking ⟨3,3,[0],[0],[],[]⟩ .next := by decide
  have registered : ((WatchSys.new.run acts).hub.watchers[0]?).map (fun w => (w.id,w.currentRev,
      w.accepts (toKvEvent ⟨[97],some [1],1,2,2,0⟩))) = some (7,1,true) := by
    decide
  obtain ⟨w,here,is⟩ := Option.map_eq_some_iff.mp registered
  obtain ⟨named,revision,covers⟩ : w.id = 7 ∧ w.currentRev = 1 ∧ w.accepts (toKvEvent ⟨[97],some [1],1,2,2,0⟩) = true := by
    simpa using is
  have careful : Runs.Along WatchSys.step WatchSys.Careful .new (acts ++ [.look 0]) := by
    refine .concat (.of_all (by simp [acts, laggingActs, WatchSys.Careful, WatchSys.Lists, WatchSys.PromotesOwn])) ⟨?_,trivial⟩
    intro t w' at_ here' _ fresh
    cases loop.symm.trans at_
    cases here.symm.trans here'
    rw [revision] at fresh
    exact absurd fresh (by decide)
  obtain ⟨passed,promoted,ended,-⟩ := @removed_change_is_not_skipped acts (.look 0) careful rfl _ rfl (by decide) 0 w here
    (⟨⟨2,0⟩,false⟩,⟨[97],some [1],1,2,2,0⟩) (by decide) covers (by rw [revision]; decide) (Or.inl (by decide))
  refine ⟨passed,fun id bound => ?_,?_⟩
  · have unsynced : (WatchSys.new.run acts).hub.synced.entries = [] := by decide
    have member := SortedMap.mem_entries.mpr (promoted id bound)
    rw [unsynced] at member
    cases member
  · rcases ended _ rfl loop (by decide) (by decide) with given | ⟨t,revs,at_,-⟩
    · rwa [named] at given
    · have next : looked.loop = .ticking ⟨3,3,[0],[],[(7,.compacted)],[]⟩ .next := by decide
      cases next.symm.trans at_

/-- The compaction has trimmed the index, but the store does not know yet: the second change is never sent, and the watcher is
    promoted. -/
theorem removed_change_skipped_during_compaction :
    let trimmed := WatchSys.new.run (laggingActs ++ [.advance 0,.advance 0])
    let ticked := trimmed.run [.take [0],.readRevisions,.look 0,.fetch,.feed true,.feed true,.feed true,.finish]
    ((⟨⟨2,0⟩,false⟩ : KvBucketKey),(⟨[97],some [1],1,2,2,0⟩ : Entry)) ∈ trimmed.log ∧
      (⟨⟨2,0⟩,false⟩ : KvBucketKey) ∉ trimmed.store.kvIndex.records [97] ∧ trimmed.hub.revAt 0 = some 1 ∧
      ticked.hub.sentAt 0 = some [⟨.put,⟨[97],some [1],1,3,3,0⟩⟩] ∧ ticked.hub.revAt 0 = some 3 ∧
      ticked.hub.synced.find? 7 = some 0 := by
  decide

end Kave
