import Kave.Delivery
import Kave.Refinement

/-! One tick of the loop over a history of single changes. The index lists what a watcher lacks by key, the watcher takes it
    by revision, and the two agree only if the revisions ascend with the keys. -/

namespace Kave

open TreeIndex

namespace Watcher

/-- The watched keys are the keys the index is asked for: only an empty end that is not nil is taken in two ways. -/
def Ranged (w : Watcher) : Prop := w.keyEnd ≠ some [] ∨ w.keyStart = []

theorem Ranged.covers_eq {w : Watcher} (ranged : w.Ranged) (key : Bytes) : w.covers key = selects w.keyStart w.keyEnd key := by
  have least : [] ≤ key := not_lt.mp (List.not_lt_nil key)
  rw [covers,selects,visits]
  cases stop : w.keyEnd with
  | none =>
    by_cases all : w.keyStart = []
    · simp [all,least]
    · simp [all]
  | some stop' =>
    by_cases none : stop' = []
    · have all : w.keyStart = [] := ranged.resolve_left (by rw [stop,none]; simp)
      simp [all,none,least]
    · have full : List.isEmpty stop' = false := List.isEmpty_eq_false_iff.mpr none
      simp [none,full]

theorem visit_live {w : Watcher} (live : w.ctx = none) (opened : w.c.closed = false) {failures : Nat}
    (tolerated : failures < unsynchedFailureLimit) {storeRev compactedRev : Int} (kept : compactedRev ≤ w.currentRev)
    {kvIndex : TreeIndex} {kv : KvBucket} {events : List Event}
    (found : fetch kv (kvIndex.revisionsRange w.keyStart w.keyEnd w.currentRev (storeRev + 1)) = some events)
    (room : events.length ≤ w.c.free) :
    (w.visit failures storeRev compactedRev kvIndex kv).1.c.sent = w.c.sent ++ w.fresh w.currentRev events := by
  have passes : ¬ (failures ≥ unsynchedFailureLimit ∨ w.ctx.isSome = true) := by simp [live,tolerated]
  have fits := (w.fresh_sublist w.currentRev events).length_le.trans ((List.filter_sublist).length_le.trans room)
  rw [visit,look,if_neg passes,if_neg (not_lt.mpr kept)]
  by_cases none : kvIndex.revisionsRange w.keyStart w.keyEnd w.currentRev (storeRev + 1) = []
  · rw [none] at found ⊢
    cases found
    simp [fresh]
  · simp only [none,if_false,found]
    exact (sendAll_live live opened fits).2

end Watcher

/-! ### The batch -/

namespace Tick

theorem visit_watchers (s : KvStore) (failures : Failures) (h : Hub) (t : Tick) (ref i : Nat) :
    (visit s (failures,h,t) ref).2.1.watchers[i]? =
      if i = ref then (h.watchers[i]?).map fun w =>
        (w.visit ((failures.find? w.id).getD 0) t.storeRev t.compactedRev s.kvIndex s.backend.buckets.kv).1
      else h.watchers[i]? := by
  rw [visit]
  cases here : h.watchers[ref]? with
  | none =>
    by_cases same : i = ref
    · simp [same,here]
    · simp [same]
  | some w => exact h.watchers_update ref i fun w => w.visit_same _ _ _ _ _

/-- The state of a tick has not changed as far as one watcher is concerned. -/
structure Aside (ref : Nat) (id : Int) (state state' : Failures × Hub × Tick) : Prop where
  watcher : state'.2.1.watchers[ref]? = state.2.1.watchers[ref]?
  members : state'.2.1.members = state.2.1.members
  failures : state'.1.find? id = state.1.find? id
  storeRev : state'.2.2.storeRev = state.2.2.storeRev
  compactedRev : state'.2.2.compactedRev = state.2.2.compactedRev
  promotes : id ∈ state'.2.2.promotes ↔ id ∈ state.2.2.promotes
  deletes : ∀ cause, (id,cause) ∈ state'.2.2.deletes ↔ (id,cause) ∈ state.2.2.deletes

theorem Aside.refl (ref : Nat) (id : Int) (state : Failures × Hub × Tick) : Aside ref id state state :=
  ⟨rfl,rfl,rfl,rfl,rfl,Iff.rfl,fun _ => Iff.rfl⟩

theorem Aside.trans {ref : Nat} {id : Int} {a b c : Failures × Hub × Tick} (first : Aside ref id a b) (second : Aside ref id b c) :
    Aside ref id a c :=
  ⟨second.watcher.trans first.watcher,second.members.trans first.members,second.failures.trans first.failures,
    second.storeRev.trans first.storeRev,second.compactedRev.trans first.compactedRev,second.promotes.trans first.promotes,
    fun cause => (second.deletes cause).trans (first.deletes cause)⟩

theorem visit_aside (s : KvStore) (state : Failures × Hub × Tick) {ref ref' : Nat} {id : Int} (elsewhere : ref' ≠ ref)
    (other : ∀ w, state.2.1.watchers[ref']? = some w → w.id ≠ id) : Aside ref id state (visit s state ref') := by
  obtain ⟨failures,h,t⟩ := state
  have watcher := visit_watchers s failures h t ref' ref
  rw [if_neg elsewhere.symm] at watcher
  rw [visit] at watcher ⊢
  cases here : h.watchers[ref']? with
  | none => exact .refl ref id _
  | some w =>
    rw [here] at watcher
    have different := other w here
    simp only at watcher ⊢
    cases (w.visit ((failures.find? w.id).getD 0) t.storeRev t.compactedRev s.kvIndex s.backend.buckets.kv).2 with
    | delete cause => exact ⟨watcher,rfl,rfl,rfl,rfl,Iff.rfl,fun cause => by simp [record,different.symm]⟩
    | promote => exact ⟨watcher,rfl,rfl,rfl,rfl,by simp [record,different.symm],fun _ => Iff.rfl⟩
    | failed =>
      exact ⟨watcher,rfl,(SortedMap.find_insert _ _ _ _).trans (if_neg different.symm),rfl,rfl,Iff.rfl,fun _ => Iff.rfl⟩
    | stays => exact ⟨watcher,rfl,rfl,rfl,rfl,Iff.rfl,fun _ => Iff.rfl⟩

theorem visit_id (s : KvStore) (state : Failures × Hub × Tick) {ref a : Nat} {w : Watcher}
    (at_ : (visit s state ref).2.1.watchers[a]? = some w) : ∃ w', state.2.1.watchers[a]? = some w' ∧ w'.id = w.id := by
  obtain ⟨failures,h,t⟩ := state
  rw [visit_watchers] at at_
  split at at_
  · obtain ⟨w',here,rfl⟩ := Option.map_eq_some_iff.mp at_
    exact ⟨w',here,(w'.visit_same _ _ _ _ _).1.id.symm⟩
  · exact ⟨w,at_,rfl⟩

theorem visits_id (s : KvStore) (batch : List Nat) (state : Failures × Hub × Tick) {a : Nat} {w : Watcher}
    (at_ : (batch.foldl (visit s) state).2.1.watchers[a]? = some w) : ∃ w', state.2.1.watchers[a]? = some w' ∧ w'.id = w.id := by
  induction batch generalizing state with
  | nil => exact ⟨w,at_,rfl⟩
  | cons first rest ih =>
    obtain ⟨w',there,same⟩ := ih _ at_
    obtain ⟨w'',here,same'⟩ := visit_id s state there
    exact ⟨w'',here,same'.trans same⟩

theorem visits_aside (s : KvStore) {batch : List Nat} {ref : Nat} {id : Int} (elsewhere : ref ∉ batch)
    (state : Failures × Hub × Tick) (others : ∀ a ∈ batch, ∀ w, state.2.1.watchers[a]? = some w → w.id ≠ id) :
    Aside ref id state (batch.foldl (visit s) state) := by
  induction batch generalizing state with
  | nil => exact .refl ref id state
  | cons first rest ih =>
    rw [List.mem_cons,not_or] at elsewhere
    refine (visit_aside s state (Ne.symm elsewhere.1) (others first List.mem_cons_self)).trans (ih elsewhere.2 _ fun a inRest w at_ => ?_)
    obtain ⟨w',here,same⟩ := visit_id s state at_
    exact same ▸ others a (List.mem_cons_of_mem _ inRest) w' here

theorem visit_here (s : KvStore) (state : Failures × Hub × Tick) {ref : Nat} {w : Watcher}
    (here : state.2.1.watchers[ref]? = some w) :
    let visited := w.visit ((state.1.find? w.id).getD 0) state.2.2.storeRev state.2.2.compactedRev s.kvIndex s.backend.buckets.kv
    (visit s state ref).2.1.watchers[ref]? = some visited.1 ∧ (visit s state ref).2.1.members = state.2.1.members ∧
      (w.id ∈ (visit s state ref).2.2.promotes ↔ w.id ∈ state.2.2.promotes ∨ visited.2 = .promote) ∧
      ∀ cause, (w.id,cause) ∈ (visit s state ref).2.2.deletes ↔ (w.id,cause) ∈ state.2.2.deletes ∨ visited.2 = .delete cause := by
  intro visited
  obtain ⟨failures,h,t⟩ := state
  change h.watchers[ref]? = some w at here
  have watcher := visit_watchers s failures h t ref ref
  rw [if_pos rfl,here] at watcher
  refine ⟨watcher,?_⟩
  have recorded : (visit s (failures,h,t) ref).2.1.members = h.members ∧
      (visit s (failures,h,t) ref).2.2 = (t.record failures w.id visited.2).2 := by
    rw [visit]
    simp only [here]
    exact ⟨rfl,rfl⟩
  rw [recorded.1,recorded.2]
  cases visited.2 with
  | delete cause => exact ⟨rfl,by simp [record],fun cause' => by simp [record,eq_comm]⟩
  | promote | failed | stays => exact ⟨rfl,by simp [record],fun cause => by simp [record]⟩

/-- Along the batch every watcher gets the one visit that is for it, and what the tick decides about it is the verdict of that
    visit. -/
theorem visits_of_batch (s : KvStore) {batch : List Nat} (distinct : batch.Nodup) (failures : Failures) (h : Hub) (t : Tick)
    (ids : ∀ a ∈ batch, ∀ b ∈ batch, ∀ w w', h.watchers[a]? = some w → h.watchers[b]? = some w' → w.id = w'.id → a = b)
    {ref : Nat} (inBatch : ref ∈ batch) {w : Watcher} (here : h.watchers[ref]? = some w) :
    let visited := w.visit ((failures.find? w.id).getD 0) t.storeRev t.compactedRev s.kvIndex s.backend.buckets.kv
    let final := batch.foldl (visit s) (failures,h,t)
    final.2.1.watchers[ref]? = some visited.1 ∧ final.2.1.members = h.members ∧
      (w.id ∈ final.2.2.promotes ↔ w.id ∈ t.promotes ∨ visited.2 = .promote) ∧
      ∀ cause, (w.id,cause) ∈ final.2.2.deletes ↔ (w.id,cause) ∈ t.deletes ∨ visited.2 = .delete cause := by
  intro visited final
  obtain ⟨before,after,rfl⟩ := List.append_of_mem inBatch
  obtain ⟨notBefore,notAfter⟩ : ref ∉ before ∧ ref ∉ after := by
    simpa [not_or] using (List.nodup_cons.mp (List.nodup_middle.mp distinct)).1
  have different : ∀ a ∈ before ++ ref :: after, a ≠ ref → ∀ w', h.watchers[a]? = some w' → w'.id ≠ w.id :=
    fun a inside other w' at_ same => other (ids a inside ref inBatch w' w at_ here same)
  have first := @visits_aside s before ref w.id notBefore (failures,h,t) fun a inside =>
    different a (List.mem_append_left _ inside) fun same => notBefore (same ▸ inside)
  have split : final = after.foldl (visit s) (visit s (before.foldl (visit s) (failures,h,t)) ref) :=
    List.foldl_append
  have last := @visits_aside s after ref w.id notAfter (visit s (before.foldl (visit s) (failures,h,t)) ref) fun a inside w' at_ => by
    obtain ⟨w₁,there,same⟩ := visit_id s _ at_
    obtain ⟨w₂,earlier,same'⟩ := visits_id s _ _ there
    rw [← same,← same']
    exact different a (List.mem_append_right _ (List.mem_cons_of_mem _ inside)) (fun is => notAfter (is ▸ inside)) w₂ earlier
  have now := visit_here s (before.foldl (visit s) (failures,h,t)) (first.watcher.trans here)
  rw [first.failures,first.storeRev,first.compactedRev,first.members,first.promotes] at now
  simp only [first.deletes] at now
  rw [← split] at last
  refine ⟨last.watcher.trans now.1,last.members.trans now.2.1,last.promotes.trans now.2.2.1,fun cause => ?_⟩
  exact (last.deletes cause).trans (now.2.2.2 cause)

theorem sentAt_finish (t : Tick) (failures : Failures) (h : Hub) (i : Nat) : (t.finish failures h).2.sentAt i = h.sentAt i := by
  have drops : ∀ (ds : List (Int × Cause)) (h : Hub), (ds.foldl (fun h d => h.drop .unsynced d.1 d.2) h).sentAt i = h.sentAt i := by
    intro ds
    induction ds with
    | nil => exact fun _ => rfl
    | cons d rest ih => exact fun h => (ih _).trans (h.sentAt_drop _ _ _ _)
  have moves : ∀ (ids : List Int) (h : Hub), (ids.foldl Hub.unsafePromote h).sentAt i = h.sentAt i := by
    intro ids
    induction ids with
    | nil => exact fun _ => rfl
    | cons id rest ih => exact fun h => (ih _).trans (h.sentAt_move _ _ _)
  exact (moves _ _).trans (drops _ _)

end Tick

theorem UnsyncedLoop.sentAt_tick {s : KvStore} {failures : Failures} {h : Hub} {batch : List Nat} (taken : h.Batch batch)
    {ref : Nat} (inBatch : ref ∈ batch) {w : Watcher} (here : h.watchers[ref]? = some w) :
    (tick s failures h batch).2.sentAt ref = some (w.visit ((failures.find? w.id).getD 0) s.currentRev.main s.compactedMainRev
      s.kvIndex s.backend.buckets.kv).1.c.sent := by
  have visited := (Tick.visits_of_batch s taken.1 failures h ⟨s.currentRev.main,s.compactedMainRev,batch,batch,[],[]⟩
    (fun a inA b inB w w' atA atB same => taken.ids inA inB atA atB same) inBatch here).1
  rw [tick]
  generalize batch.foldl (Tick.visit s) _ = final at visited ⊢
  obtain ⟨failures',h',t'⟩ := final
  change ((t'.finish failures' h').2).sentAt ref = _
  rw [Tick.sentAt_finish,Hub.sentAt,visited]
  rfl

/-! ### Histories of single changes -/

namespace KvStore

/-- The changes of a list of transactions, in their order. -/
def changesOf : KvStore → List (List Op) → List Entry
  | _, [] => []
  | s, ops :: rest => ((s.txnChanges ops).getD []).map Entry.stored ++ changesOf (s.txn ops) rest

/-- No transaction changes more than one key. -/
def SingleChanges : KvStore → List (List Op) → Prop
  | _, [] => True
  | s, ops :: rest => ((s.txnChanges ops).getD []).length ≤ 1 ∧ SingleChanges (s.txn ops) rest

theorem Logged.singles {s : KvStore} {log : List (KvBucketKey × Entry)} (logged : s.Logged log) (complete : s.Complete log)
    (apart : log.Pairwise fun a b => a.1.rev.main < b.1.rev.main) {txns : List (List Op)} (single : s.SingleChanges txns) :
    ∃ log', (s.txns txns).Logged log' ∧ (s.txns txns).Complete log' ∧ log'.map (·.2) = log.map (·.2) ++ s.changesOf txns ∧
      log'.Pairwise fun a b => a.1.rev.main < b.1.rev.main := by
  induction txns generalizing s log with
  | nil => exact ⟨log,logged,complete,by simp [changesOf],apart⟩
  | cons ops rest ih =>
    obtain ⟨few,later⟩ := single
    obtain ⟨changes,done⟩ := logged.toOrderly.txnDone ops
    have apart' : (log ++ s.newRecords (s.txn ops)).Pairwise fun a b => a.1.rev.main < b.1.rev.main := by
      have length := congrArg List.length done.changes
      rw [done.announced] at few
      simp only [List.length_map,Option.getD_some] at length few
      refine List.pairwise_append.mpr ⟨apart,?_,fun a old b new => ?_⟩
      · match added : s.newRecords (s.txn ops) with
        | [] | [_] => simp
        | _ :: _ :: _ =>
          rw [added] at length
          simp only [List.length_cons] at length
          omega
      · have := (logged.past a old).2
        have := done.appended.main b new
        omega
    obtain ⟨log',logged',complete',changed,apart'⟩ := ih (logged.txn done) (complete.txn done) apart' later
    refine ⟨log',logged',complete',?_,apart'⟩
    rw [changed,List.map_append,done.changes,changesOf,done.announced,List.append_assoc]
    rfl

end KvStore

/-- The changes of the watched keys that the watcher lacks at a revision. -/
def Watcher.misses (w : Watcher) (rev : Int) (changes : List Entry) : List Entry :=
  changes.filter fun e => w.currentRev < e.modRev ∧ e.modRev ≤ rev ∧ w.covers e.key = true

theorem KvStore.Logged.listed_for {s : KvStore} {log : List (KvBucketKey × Entry)} (logged : s.Logged log)
    (complete : s.Complete log) {w : Watcher} (ranged : w.Ranged) :
    ∃ listed : List (KvBucketKey × Entry),
      s.kvIndex.revisionsRange w.keyStart w.keyEnd w.currentRev (s.currentRev.main + 1) = listed.map (·.1) ∧
      (listed.Perm (log.filter fun e => w.currentRev < e.2.modRev ∧ e.2.modRev ≤ s.currentRev.main ∧ w.covers e.2.key = true)) ∧
      listed.Pairwise fun a b => a.2.key < b.2.key ∨ a.2.key = b.2.key ∧ a.1.rev < b.1.rev := by
  obtain ⟨listed,same⟩ : ∃ listed : List { e : KvBucketKey × Entry // e ∈ log },
      listed.map (fun e => e.1.1) =
        s.kvIndex.revisionsRange w.keyStart w.keyEnd w.currentRev (s.currentRev.main + 1) := by
    refine (Set.range_list_map (fun e : { e : KvBucketKey × Entry // e ∈ log } => e.1.1)).ge fun bk member => ?_
    obtain ⟨key,-,inside,-⟩ := mem_revisionsRange.mp member
    obtain ⟨entry,known,-⟩ := logged.listed key bk inside
    exact ⟨⟨(bk,entry),known⟩,rfl⟩
  have ordered : (listed.map Subtype.val).Pairwise fun a b => a.2.key < b.2.key ∨ a.2.key = b.2.key ∧ a.1.rev < b.1.rev := by
    have byKey : List.Pairwise _ (s.kvIndex.revisionsRange _ _ _ _) :=
      logged.settled.before.valid.revisionsRange_ordered w.keyStart w.keyEnd w.currentRev (s.currentRev.main + 1)
    rw [← same,List.pairwise_map] at byKey
    refine List.pairwise_map.mpr (byKey.imp fun {a b} related => ?_)
    obtain ⟨k,k',first,second,order⟩ := related
    rw [logged.key_eq a.2 first,logged.key_eq b.2 second]
    exact order
  refine ⟨listed.map Subtype.val,by rw [← same,List.map_map]; rfl,?_,ordered⟩
  have nodup : (listed.map Subtype.val).Nodup := by
    refine ordered.imp fun {a b} order equal => ?_
    subst equal
    rcases order with less | ⟨-,less⟩ <;> exact lt_irrefl _ less
  have nodupLog : log.Nodup := logged.sorted.imp fun {a b} less equal => by subst equal; exact lt_irrefl _ less
  refine (List.perm_ext_iff_of_nodup nodup (nodupLog.filter _)).mpr fun e => ?_
  rw [List.mem_filter]
  simp only [decide_eq_true_eq]
  constructor
  · intro member
    obtain ⟨⟨e,inside⟩,here,rfl⟩ := List.mem_map.mp member
    have shown := same ▸ List.mem_map_of_mem here
    obtain ⟨key,selected,record,above,below⟩ := mem_revisionsRange.mp shown
    rw [logged.dated e inside,logged.key_eq inside record,ranged.covers_eq]
    exact ⟨inside,above,Int.lt_add_one_iff.mp below,selected⟩
  · rintro ⟨inside,above,below,covered⟩
    rw [logged.dated e inside] at above below
    rw [ranged.covers_eq] at covered
    have shown : e.1 ∈ s.kvIndex.revisionsRange w.keyStart w.keyEnd w.currentRev (s.currentRev.main + 1) :=
      mem_revisionsRange.mpr ⟨e.2.key,covered,complete.index e inside,above,by omega⟩
    rw [← same] at shown
    obtain ⟨e',here,is⟩ := List.mem_map.mp shown
    rw [← logged.eq_of_rev e'.2 inside (congrArg KvBucketKey.rev is)]
    exact List.mem_map_of_mem here

/-- A list by key that is a permutation of a list by revision: all of it is fresh, and in the order of the other one, exactly
    if the revisions ascend with the keys. -/
theorem Watcher.fresh_eq_iff {w : Watcher} {listed log : List (KvBucketKey × Entry)} (perm : listed.Perm log)
    (byKey : listed.Pairwise fun a b => a.2.key < b.2.key ∨ a.2.key = b.2.key ∧ a.1.rev < b.1.rev)
    (byRev : log.Pairwise fun a b => a.1.rev.main < b.1.rev.main) (dated : ∀ e ∈ log, e.2.modRev = e.1.rev.main)
    (newer : ∀ e ∈ log, w.currentRev < e.2.modRev) (accepted : ∀ e ∈ log, w.accepts (toKvEvent e.2) = true) :
    w.fresh w.currentRev (listed.map (toKvEvent ·.2)) = log.map (toKvEvent ·.2) ↔
      ∀ a ∈ log, ∀ b ∈ log, a.2.key < b.2.key → a.2.modRev < b.2.modRev := by
  have all : (listed.map (toKvEvent ·.2)).filter w.accepts = listed.map (toKvEvent ·.2) := by
    refine List.filter_eq_self.mpr fun e member => ?_
    obtain ⟨x,inside,rfl⟩ := List.mem_map.mp member
    exact accepted x (perm.subset inside)
  have whole := w.fresh_eq_filter_iff w.currentRev (listed.map (toKvEvent ·.2))
  rw [all,List.pairwise_map] at whole
  constructor
  · intro same
    have sublist := w.fresh_sublist w.currentRev (listed.map (toKvEvent ·.2))
    rw [all] at sublist
    have complete := sublist.eq_of_length (by rw [same,List.length_map,List.length_map,perm.length_eq])
    -- both orders hold along the list, so two changes come in the order of their keys and of their revisions
    have both := byKey.and (whole.mp complete).1
    have ascending : ∀ a ∈ listed, ∀ b ∈ listed, a.2.key < b.2.key → a.2.modRev < b.2.modRev := by
      refine List.Pairwise.forall_of_forall_of_flip (fun a _ less => absurd less (lt_irrefl _))
        (both.imp fun order _ => order.2) (both.imp fun {a b} order less => ?_)
      rcases order.1 with other | ⟨other,-⟩
      · exact absurd (less.trans other) (lt_irrefl _)
      · exact absurd less (by rw [other]; exact lt_irrefl _)
    exact fun a inA b inB => ascending a (perm.symm.subset inA) b (perm.symm.subset inB)
  · intro ascending
    have sorted : listed.Pairwise fun a b => a.1.rev.main < b.1.rev.main := by
      have distinct : listed.Pairwise fun a b => a.1.rev.main ≠ b.1.rev.main :=
        (perm.pairwise_iff fun different => different.symm).mpr (byRev.imp fun less => less.ne)
      refine (byKey.and distinct).imp_of_mem fun {a b} inA inB order => ?_
      rcases order.1 with less | ⟨-,less⟩
      · have := ascending a (perm.subset inA) b (perm.subset inB) less
        rwa [dated a (perm.subset inA), dated b (perm.subset inB)] at this
      · exact (Revision.lt_iff.mp less).resolve_right fun same => order.2 same.1
    have equal : listed = log :=
      perm.eq_of_pairwise (fun a b _ _ less less' => absurd (less.trans less') (lt_irrefl _)) sorted byRev
    subst equal
    refine whole.mpr ⟨sorted.imp_of_mem fun {a b} inA inB less => ?_,fun e member => ?_⟩
    · change a.2.modRev < b.2.modRev
      rw [dated a inA,dated b inB]
      exact less
    · obtain ⟨x,inside,rfl⟩ := List.mem_map.mp member
      exact newer x inside

theorem Watcher.visit_deleted {w : Watcher} {failures : Nat} {storeRev compactedRev : Int}
    (given_up : unsynchedFailureLimit ≤ failures ∨ w.currentRev < compactedRev) (kvIndex : TreeIndex) (kv : KvBucket) :
    (w.visit failures storeRev compactedRev kvIndex kv).1.c.sent = w.c.sent := by
  rw [visit,look]
  by_cases limit : failures ≥ unsynchedFailureLimit ∨ w.ctx.isSome
  · rw [if_pos limit]
  · rw [if_neg limit,if_pos (given_up.resolve_left fun le => limit (Or.inl le))]

/-- After a history of single changes a tick sends a watcher all it lacks exactly if the loop does not give up on it and the
    missed revisions ascend with the keys. -/
theorem unsynced_watcher_catches_up_iff {txns : List (List Op)} (single : (KvStore.new Backend.empty).SingleChanges txns)
    {failures : Failures} {h : Hub} {batch : List Nat} (taken : h.Batch batch) {ref : Nat} (inBatch : ref ∈ batch)
    {w : Watcher} (here : h.watchers[ref]? = some w) (live : w.ctx = none) (unfiltered : w.filter = none)
    (ranged : w.Ranged) {s : KvStore} (store : s = (KvStore.new Backend.empty).txns txns) {missed : List Entry}
    (lacks : missed = w.misses s.currentRev.main ((KvStore.new Backend.empty).changesOf txns))
    (room : missed.length ≤ w.c.free) :
    (UnsyncedLoop.tick s failures h batch).2.sentAt ref = some (w.c.sent ++ toKvEvents missed) ↔
      missed = [] ∨ 0 ≤ w.currentRev ∧ (failures.find? w.id).getD 0 < Watcher.unsynchedFailureLimit ∧
        ∀ a ∈ missed, ∀ b ∈ missed, a.key < b.key → a.modRev < b.modRev := by
  obtain ⟨log,logged,complete,changed,apart⟩ := KvStore.Logged.empty.singles ⟨by simp,by simp⟩ .nil single
  have compacted : s.compactedMainRev = 0 := by rw [store, (refines_empty.txns txns).2]; rfl
  rw [← store] at logged complete
  obtain ⟨id,bound⟩ := Hub.mem_refs.mp (taken.2.1 ref inBatch)
  obtain ⟨w',here',-,opened⟩ := h.named .unsynced id ref bound
  rw [here] at here'
  cases here'
  rw [UnsyncedLoop.sentAt_tick taken inBatch here, Option.some.injEq, compacted]
  by_cases kept : 0 ≤ w.currentRev ∧ (failures.find? w.id).getD 0 < Watcher.unsynchedFailureLimit
  · obtain ⟨listed,revs,perm,byKey⟩ := logged.listed_for complete ranged
    have missedIs : missed = (log.filter fun e => w.currentRev < e.2.modRev ∧ e.2.modRev ≤ s.currentRev.main ∧
        w.covers e.2.key = true).map (·.2) := by
      rw [lacks, Watcher.misses, ← List.nil_append (KvStore.changesOf _ _), ← List.map_nil, ← changed, List.filter_map]
      rfl
    have inLog : ∀ e ∈ listed, e ∈ log := fun e member => (List.mem_filter.mp (perm.subset member)).1
    have found : Watcher.fetch s.backend.buckets.kv (s.kvIndex.revisionsRange w.keyStart w.keyEnd w.currentRev
        (s.currentRev.main + 1)) = some (listed.map (toKvEvent ·.2)) := by
      rw [Watcher.fetch_eq_some, revs, List.map_map, List.map_map]
      exact List.map_congr_left fun e member => by simp [complete.kv e (inLog e member)]
    have fits : (listed.map (toKvEvent ·.2)).length ≤ w.c.free := by
      rw [List.length_map, perm.length_eq]
      rwa [missedIs, List.length_map] at room
    have decided := Watcher.fresh_eq_iff (w := w) perm byKey (apart.filter _)
      (fun e member => logged.dated e (List.mem_filter.mp member).1)
      (fun e member => (of_decide_eq_true (List.mem_filter.mp member).2).1)
      (fun e member => by
        have covered := (of_decide_eq_true (List.mem_filter.mp member).2).2.2
        rw [Watcher.accepts, Watcher.passes, unfiltered]
        exact covered)
    rw [Watcher.visit_live live opened kept.2 kept.1 found fits, List.append_cancel_left_eq, toKvEvents, missedIs, List.map_map]
    refine decided.trans ?_
    rw [List.map_eq_nil_iff]
    constructor
    · intro ascending
      refine Or.inr ⟨kept.1,kept.2,fun a inA b inB => ?_⟩
      obtain ⟨x,inX,rfl⟩ := List.mem_map.mp inA
      obtain ⟨y,inY,rfl⟩ := List.mem_map.mp inB
      exact ascending x inX y inY
    · rintro (none | ⟨-,-,ascending⟩) a inA b inB
      · rw [none] at inA
        cases inA
      · exact ascending _ (List.mem_map_of_mem inA) _ (List.mem_map_of_mem inB)
  · have given_up : Watcher.unsynchedFailureLimit ≤ (failures.find? w.id).getD 0 ∨ w.currentRev < 0 := by omega
    rw [Watcher.visit_deleted given_up, List.self_eq_append_right, toKvEvents, List.map_eq_nil_iff]
    exact ⟨Or.inl,fun either => either.resolve_right fun all => kept ⟨all.1,all.2.1⟩⟩

/-- A hub with one watcher of all keys, created after `txns` with the start revision 1. -/
def Hub.watchingFromFirst (txns : List (List Op)) : Hub :=
  let s := (KvStore.new Backend.empty).txns txns
  (Hub.new.newWatcher (Creation.begin ⟨7,none,none,false,1,none⟩ 0 s.currentRev.main) s).1

/-- Three keys, put in their order. -/
theorem unsynced_watcher_catches_up_in_order :
    let txns : List (List Op) := [[.put [97] (some [0]) 0],[.put [98] (some [1]) 0],[.put [99] (some [2]) 0]]
    (UnsyncedLoop.tick ((KvStore.new Backend.empty).txns txns) SortedMap.empty (.watchingFromFirst txns) [0]).2.sentAt 0 =
      some [⟨.put,⟨[98],some [1],2,2,1,0⟩⟩,⟨.put,⟨[99],some [2],3,3,1,0⟩⟩] := by
  intro txns
  exact (@unsynced_watcher_catches_up_iff txns ⟨by decide,by decide,by decide,trivial⟩ SortedMap.empty (.watchingFromFirst txns) [0]
    (by decide) 0 (by decide) _ rfl rfl rfl (Or.inr rfl) _ rfl [⟨[98],some [1],2,2,1,0⟩,⟨[99],some [2],3,3,1,0⟩] (by decide)
    (by decide)).mpr (Or.inr ⟨by decide,by decide,by decide⟩)

/-- The last two keys the other way round: the older change is never sent, and the watcher counts as synced. -/
theorem unsynced_watcher_misses_lower_revision :
    let txns : List (List Op) := [[.put [97] (some [0]) 0],[.put [99] (some [2]) 0],[.put [98] (some [1]) 0]]
    let h := (UnsyncedLoop.tick ((KvStore.new Backend.empty).txns txns) SortedMap.empty (.watchingFromFirst txns) [0]).2
    (KvStore.new Backend.empty).changesOf txns =
        [⟨[97],some [0],1,1,1,0⟩,⟨[99],some [2],2,2,1,0⟩,⟨[98],some [1],3,3,1,0⟩] ∧
      h.sentAt 0 = some [⟨.put,⟨[98],some [1],3,3,1,0⟩⟩] ∧
      h.synced.find? 7 = some 0 := by
  decide

end Kave
