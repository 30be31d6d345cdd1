import Kave.SendOrder

/-! What the loop still owes the watchers of its batch. If the index lists all that a watcher lacks when the loop looks, in the
    order of the revisions, then nothing is passed over until the watcher is marked for promotion. -/

namespace Kave

open TreeIndex

/-- An accepted change above the revision of the watcher, up to `rev`. -/
structure Watcher.Lacks (w : Watcher) (log : List (KvBucketKey × Entry)) (rev : Int) (e : KvBucketKey × Entry) : Prop where
  logged : e ∈ log
  accepted : w.accepts (toKvEvent e.2) = true
  above : w.currentRev < e.1.rev.main
  upTo : e.1.rev.main ≤ rev

theorem Watcher.Lacks.before {w w' : Watcher} {log log' : List (KvBucketKey × Entry)} {rev : Int} {e : KvBucketKey × Entry}
    (lacks : w'.Lacks log' rev e) (same : w.Same w') (le : w.currentRev ≤ w'.currentRev)
    (old : e ∈ log' → e.1.rev.main ≤ rev → e ∈ log) : w.Lacks log rev e :=
  ⟨old lacks.logged lacks.upTo,by rw [← same.accepts]; exact lacks.accepted,le.trans_lt lacks.above,lacks.upTo⟩

theorem Watcher.selects_of_covers {w : Watcher} {key : Bytes} (covered : w.covers key = true) :
    selects w.keyStart w.keyEnd key = true := by
  have least : [] ≤ key := not_lt.mp (List.not_lt_nil key)
  rw [covers] at covered
  rw [selects,visits]
  cases stop : w.keyEnd with
  | none =>
    by_cases all : w.keyStart = []
    · simp [all,least]
    · simpa [stop,all] using covered
  | some stop' =>
    by_cases none : stop' = []
    · by_cases all : w.keyStart = []
      · simp [all,none,least]
      · have same : key = w.keyStart := by simpa [stop,none,all] using covered
        simp [none,same]
    · simpa [stop,none] using covered

/-! ### One visit -/

/-- The listed records have all that the watcher lacks, in an order in which it takes them. -/
structure Watcher.Listed (w : Watcher) (revs : List KvBucketKey) (log : List (KvBucketKey × Entry)) (rev : Int) : Prop where
  lacked : ∀ e, w.Lacks log rev e → e.1 ∈ revs
  above : ∀ bk ∈ revs, w.currentRev < bk.rev.main
  ascending : revs.Pairwise fun a b => ∀ x y, (a,x) ∈ log → (b,y) ∈ log → w.accepts (toKvEvent x) = true →
    w.accepts (toKvEvent y) = true → a.rev.main < b.rev.main

/-- The events still to be sent have all that the watcher lacks, in an order in which it takes them. -/
structure Feed.Chases (f : Feed) (w : Watcher) (log : List (KvBucketKey × Entry)) (rev : Int) : Prop where
  lacked : ∀ e, w.Lacks log rev e → toKvEvent e.2 ∈ f.todo
  ascending : f.todo.Pairwise fun x y => w.accepts x = true → w.accepts y = true → x.entry.modRev < y.entry.modRev
  tested : f.tested = true → ∀ x rest, f.todo = x :: rest → w.accepts x = true

section

variable {s : KvStore} {log log' : List (KvBucketKey × Entry)} {rev : Int} {w w' : Watcher}

theorem Watcher.Listed.congr {revs : List KvBucketKey} (listed : w.Listed revs log rev) (same : w.Same w')
    (current : w'.currentRev = w.currentRev) (upTo : ∀ bk ∈ revs, bk.rev.main ≤ rev)
    (old : ∀ e ∈ log', e.1.rev.main ≤ rev → e ∈ log) : w'.Listed revs log' rev := by
  refine ⟨fun e lacks => listed.lacked e (lacks.before same current.ge (old e)),by rw [current]; exact listed.above,?_⟩
  refine listed.ascending.imp_of_mem fun {a b} inA inB ascends x y knownX knownY accX accY => ?_
  rw [same.accepts] at accX accY
  exact ascends x y (old _ knownX (upTo a inA)) (old _ knownY (upTo b inB)) accX accY

theorem Feed.Chases.congr {f : Feed} (chases : f.Chases w log rev) (same : w.Same w') (current : w'.currentRev = w.currentRev)
    (old : ∀ e ∈ log', e.1.rev.main ≤ rev → e ∈ log) : f.Chases w' log' rev :=
  ⟨fun e lacks => chases.lacked e (lacks.before same current.ge (old e)),by simp only [same.accepts]; exact chases.ascending,
    by simp only [same.accepts]; exact chases.tested⟩

theorem KvStore.Logged.listed_by_index (logged : s.Logged log)
    (known : ∀ e, w.Lacks log rev e → e.1 ∈ s.kvIndex.records e.2.key)
    (ascending : ∀ a b, w.Lacks log rev a → w.Lacks log rev b →
      (a.2.key < b.2.key ∨ a.2.key = b.2.key ∧ a.1.rev < b.1.rev) → a.1.rev.main < b.1.rev.main) :
    w.Listed (s.kvIndex.revisionsRange w.keyStart w.keyEnd w.currentRev (rev + 1)) log rev := by
  refine ⟨fun e lacks => ?_,fun bk listed => ?_,?_⟩
  · have covered : w.covers e.2.key = true := ((Bool.and_eq_true _ _).mp lacks.accepted).2
    exact mem_revisionsRange.mpr ⟨e.2.key,Watcher.selects_of_covers covered,known e lacks,lacks.above,
      Int.lt_add_one_iff.mpr lacks.upTo⟩
  · obtain ⟨-,-,-,above,-⟩ := mem_revisionsRange.mp listed
    exact above
  · have byKey : List.Pairwise _ (s.kvIndex.revisionsRange _ _ _ _) :=
      logged.settled.before.valid.revisionsRange_ordered w.keyStart w.keyEnd w.currentRev (rev + 1)
    refine byKey.imp_of_mem fun {a b} inA inB order x y knownX knownY accX accY => ?_
    obtain ⟨k,k',first,second,order⟩ := order
    obtain ⟨-,-,-,aboveA,upToA⟩ := mem_revisionsRange.mp inA
    obtain ⟨-,-,-,aboveB,upToB⟩ := mem_revisionsRange.mp inB
    refine ascending (a,x) (b,y) ⟨knownX,accX,aboveA,Int.lt_add_one_iff.mp upToA⟩ ⟨knownY,accY,aboveB,Int.lt_add_one_iff.mp upToB⟩ ?_
    rw [logged.key_eq knownX first,logged.key_eq knownY second]
    exact order

theorem Watcher.Listed.fetched (logged : s.Logged log) {revs : List KvBucketKey} (listed : w.Listed revs log rev)
    {events : List Event} (found : Watcher.fetch s.backend.buckets.kv revs = some events) (ref : Nat) :
    Feed.Chases ⟨ref,events,false⟩ w log rev := by
  have read := Watcher.fetch_eq_some.mp found
  refine ⟨fun e lacks => ?_,?_,fun tested => (by cases tested)⟩
  · have member := List.mem_map_of_mem (f := fun bk => (s.backend.buckets.kv.find? bk).map toKvEvent) (listed.lacked e lacks)
    rw [read] at member
    obtain ⟨x,inside,is⟩ := List.mem_map.mp member
    obtain ⟨entry,stored,event⟩ := Option.map_eq_some_iff.mp is.symm
    have same := logged.eq_of_rev lacks.logged (logged.known e.1 entry stored) rfl
    rw [same,event]
    exact inside
  · have ascending : (revs.map fun bk => (s.backend.buckets.kv.find? bk).map toKvEvent).Pairwise fun a b =>
        ∀ x y, a = some x → b = some y → w.accepts x = true → w.accepts y = true → x.entry.modRev < y.entry.modRev := by
      refine List.pairwise_map.mpr (listed.ascending.imp fun {a b} ascends x y isX isY accX accY => ?_)
      obtain ⟨entry,stored,rfl⟩ := Option.map_eq_some_iff.mp isX
      obtain ⟨entry',stored',rfl⟩ := Option.map_eq_some_iff.mp isY
      have knownX := logged.known a entry stored
      have knownY := logged.known b entry' stored'
      have less := ascends entry entry' knownX knownY accX accY
      rw [← logged.dated _ knownX,← logged.dated _ knownY] at less
      exact less
    rw [read,List.pairwise_map] at ascending
    exact ascending.imp fun ascends => ascends _ _ rfl rfl

theorem Feed.Chases.passes (logged : s.Logged log) {f : Feed} (chases : f.Chases w log rev) (tested : f.tested = true) {x : Event}
    {rest : List Event} (todo : f.todo = x :: rest) {e : KvBucketKey × Entry} (lacks : w.Lacks log rev e)
    (le : e.1.rev.main ≤ x.entry.modRev) : toKvEvent e.2 = x := by
  have member := chases.lacked e lacks
  have ascending := chases.ascending
  rw [todo] at member ascending
  rcases List.mem_cons.mp member with is | later
  · exact is
  · have less := (List.pairwise_cons.mp ascending).1 _ later (chases.tested tested x rest todo) lacks.accepted
    have dated : (toKvEvent e.2).entry.modRev = e.1.rev.main := logged.dated e lacks.logged
    omega

theorem Feed.Chases.ran (logged : s.Logged log) {f f' : Feed} {h h' : Hub} (chases : f.Chases w log rev)
    (here : h.watchers[f.ref]? = some w) (ran : f.Ran h h' f') (after : h'.watchers[f'.ref]? = some w') : f'.Chases w' log rev := by
  have dated : ∀ {e}, e ∈ log → (toKvEvent e.2).entry.modRev = e.1.rev.main := fun {e} inside => logged.dated e inside
  cases ran with
  | passed here' todo live accepted newer =>
    cases here.symm.trans here'
    cases here.symm.trans after
    refine ⟨chases.lacked,chases.ascending,fun _ x rest is => ?_⟩
    cases todo.symm.trans is
    exact accepted
  | @skipped w'' x rest here' todo untested skips =>
    cases here.symm.trans here'
    cases here.symm.trans after
    have ascending := chases.ascending
    rw [todo] at ascending
    refine ⟨fun e lacks => ?_,(List.pairwise_cons.mp ascending).2,fun tested => (by cases tested)⟩
    have member := chases.lacked e lacks
    rw [todo] at member
    refine (List.mem_cons.mp member).resolve_left fun is => ?_
    rcases skips with refused | old
    · rw [← is,lacks.accepted] at refused
      cases refused
    · rw [← is,dated lacks.logged] at old
      exact absurd lacks.above (not_lt.mpr old)
  | @sent w'' x rest c h' todo tested room opened updated =>
    cases here.symm.trans updated.here
    rw [updated.after,if_pos rfl] at after
    cases after
    have same : w.Same (w.sent x c) := ⟨rfl,rfl,rfl,rfl,rfl⟩
    have ascending := chases.ascending
    rw [todo] at ascending
    have revision : x.entry.modRev ≤ (w.sent x c).currentRev := by
      simp only [Watcher.sent]
      split <;> omega
    have grows : w.currentRev ≤ (w.sent x c).currentRev := by
      simp only [Watcher.sent]
      split <;> omega
    refine ⟨fun e lacks => ?_,?_,fun tested => (by cases tested)⟩
    · have member := chases.lacked e (lacks.before same grows fun inside _ => inside)
      rw [todo] at member
      refine (List.mem_cons.mp member).resolve_left fun is => ?_
      have date := dated lacks.logged
      have above := lacks.above
      rw [is] at date
      omega
    · simp only [same.accepts]
      exact (List.pairwise_cons.mp ascending).2

end

/-! ### The whole tick -/

/-- The conditions of a kind of watchers that never change. -/
def Watcher.Kind (p : Watcher → Prop) : Prop := ∀ w w' : Watcher, w.Same w' → p w' → p w

/-- The watchers of the batch have different ids. -/
def Hub.DistinctIds (h : Hub) (batch : List Nat) : Prop :=
  ∀ a ∈ batch, ∀ b ∈ batch, ∀ w w', h.watchers[a]? = some w → h.watchers[b]? = some w' → w.id = w'.id → a = b

def Work.Chases (p : Watcher → Prop) (work : Work) (t : Tick) (h : Hub) (log : List (KvBucketKey × Entry)) : Prop :=
  match work with
  | .next => True
  | .looked ref revs => ∀ w, h.watchers[ref]? = some w → p w → w.Listed revs log t.storeRev
  | .feeding f _ => ∀ w, h.watchers[f.ref]? = some w → p w → f.Chases w log t.storeRev

/-- A watcher that is to be promoted lacks nothing of what the tick knows of. -/
structure Tick.Chases (p : Watcher → Prop) (t : Tick) (h : Hub) (log : List (KvBucketKey × Entry)) : Prop where
  ids : h.DistinctIds t.batch
  promoted : ∀ ref ∈ t.batch, ∀ w, h.watchers[ref]? = some w → p w → w.id ∈ t.promotes → ∀ e, ¬ w.Lacks log t.storeRev e

def Loop.Chases (p : Watcher → Prop) (l : Loop) (h : Hub) (log : List (KvBucketKey × Entry)) : Prop :=
  match l with
  | .idle => True
  | .taken batch => h.DistinctIds batch
  | .ticking t work => t.Chases p h log ∧ work.Chases p t h log

/-- The watchers that are not synced are as they were. -/
def Hub.KeepsUnsynced (h h' : Hub) : Prop :=
  ∀ ref w', (∀ id, h.synced.find? id ≠ some ref) → ref < h.watchers.length → h'.watchers[ref]? = some w' →
    ∃ w, h.watchers[ref]? = some w ∧ w.Same w' ∧ w'.currentRev = w.currentRev

section

variable {p : Watcher → Prop} {h h' : Hub} {log log' : List (KvBucketKey × Entry)} {rev : Int}

theorem Hub.Behind.lt {ref : Nat} (behind : h.Behind ref rev) : ref < h.watchers.length := by
  obtain ⟨-,r,at_,-⟩ := behind
  obtain ⟨w,here,-⟩ := Option.map_eq_some_iff.mp at_
  exact (List.getElem?_eq_some_iff.mp here).1

theorem Loop.Chases.congr {l : Loop} (chases : l.Chases p h log) (ordered : l.Ordered h rev) (kind : Watcher.Kind p)
    (kept : h.KeepsUnsynced h') (grown : ∀ e ∈ log', e ∈ log ∨ rev < e.1.rev.main) : l.Chases p h' log' := by
  have distinct : ∀ {batch : List Nat} {rev : Int}, (∀ ref ∈ batch, h.Behind ref rev) → h.DistinctIds batch → h'.DistinctIds batch := by
    intro batch rev behind ids a inA b inB w w' atA atB same
    obtain ⟨x,beforeA,sameA,-⟩ := kept a w (behind a inA).1 (behind a inA).lt atA
    obtain ⟨y,beforeB,sameB,-⟩ := kept b w' (behind b inB).1 (behind b inB).lt atB
    exact ids a inA b inB x y beforeA beforeB (sameA.id.symm.trans (same.trans sameB.id))
  cases l with
  | idle => trivial
  | taken batch => exact distinct ordered chases
  | ticking t work =>
    obtain ⟨⟨storeRev,todo,behind⟩,working⟩ := ordered
    obtain ⟨⟨ids,promoted⟩,chases⟩ := chases
    have old : ∀ e ∈ log', e.1.rev.main ≤ t.storeRev → e ∈ log := fun e inside le =>
      (grown e inside).resolve_right (by omega)
    have before : ∀ {ref : Nat} {w' : Watcher}, ref ∈ t.batch → h'.watchers[ref]? = some w' →
        ∃ w, h.watchers[ref]? = some w ∧ w.Same w' ∧ w'.currentRev = w.currentRev :=
      fun {ref w'} inBatch at_ => kept ref w' (behind ref inBatch).1 (behind ref inBatch).lt at_
    refine ⟨⟨distinct behind ids,fun ref inBatch w' at_ isKind marked e lacks => ?_⟩,?_⟩
    · obtain ⟨w,here,same,current⟩ := before inBatch at_
      rw [same.id] at marked
      exact promoted ref inBatch w here (kind w w' same isKind) marked e (lacks.before same current.ge (old e))
    · cases work with
      | next => trivial
      | looked ref revs =>
        intro w' at_ isKind
        obtain ⟨w,here,same,current⟩ := before working.1 at_
        exact (chases w here (kind w w' same isKind)).congr same current working.2 old
      | feeding f highest =>
        intro w' at_ isKind
        obtain ⟨w,here,same,current⟩ := before working.1 at_
        exact (chases w here (kind w w' same isKind)).congr same current old

theorem Tick.Chases.forward {t : Tick} (chases : t.Chases p h log) (kind : Watcher.Kind p) {ref : Nat} {w w' : Watcher}
    (updated : h.Updated ref w w' h') (same : w.Same w') (grows : w.currentRev ≤ w'.currentRev) : t.Chases p h' log := by
  have before : ∀ {i : Nat} {x' : Watcher}, h'.watchers[i]? = some x' →
      ∃ x, h.watchers[i]? = some x ∧ x.Same x' ∧ x.currentRev ≤ x'.currentRev := by
    intro i x' at_
    rw [updated.after] at at_
    split at at_
    next is =>
      cases at_
      exact ⟨w,by rw [is]; exact updated.here,same,grows⟩
    next => exact ⟨x',at_,.refl x',le_rfl⟩
  constructor
  · intro a inA b inB x' y' atA atB equal
    obtain ⟨x,beforeA,sameA,-⟩ := before atA
    obtain ⟨y,beforeB,sameB,-⟩ := before atB
    exact chases.ids a inA b inB x y beforeA beforeB (sameA.id.symm.trans (equal.trans sameB.id))
  · intro i member x' at_ isKind marked e lacks
    obtain ⟨x,here,sameX,growsX⟩ := before at_
    rw [sameX.id] at marked
    exact chases.promoted i member x here (kind x x' sameX isKind) marked e (lacks.before sameX growsX fun inside _ => inside)

theorem Hub.KeepsUnsynced.refl (h : Hub) : h.KeepsUnsynced h := fun _ w _ _ at_ => ⟨w,at_,.refl w,rfl⟩

theorem Hub.Updated.keepsUnsynced {ref : Nat} {w w' : Watcher} (updated : h.Updated ref w w' h') (same : w.Same w')
    (untouched : w'.currentRev = w.currentRev ∨ ∃ id, h.synced.find? id = some ref) : h.KeepsUnsynced h' := by
  intro i x apart inside at_
  rw [updated.after] at at_
  split at at_
  next is =>
    cases at_
    refine ⟨w,by rw [is]; exact updated.here,same,untouched.resolve_right ?_⟩
    rintro ⟨id,bound⟩
    exact apart id (is ▸ bound)
  next => exact ⟨x,at_,.refl x,rfl⟩

end

/-! ### Leaving groups -/

/-- Every watcher is as it was, or closed. -/
def Hub.AllLike (h h' : Hub) : Prop := ∀ (ref : Nat) w', h'.watchers[ref]? = some w' → ∃ w, h.watchers[ref]? = some w ∧ w.Like w'

theorem Hub.AllLike.refl (h : Hub) : h.AllLike h := fun _ w at_ => ⟨w,at_,.refl w⟩

theorem Hub.AllLike.drop {h h' : Hub} (like : h.AllLike h') (g : Group) (id : Int) (cause : Cause) :
    h.AllLike (h'.drop g id cause) := by
  intro ref w' at_
  rw [watchers_drop] at at_
  split at at_
  · obtain ⟨x,here,rfl⟩ := Option.map_eq_some_iff.mp at_
    obtain ⟨w,before,same⟩ := like ref x here
    exact ⟨w,before,same.trans (.close x cause)⟩
  · exact like ref w' at_

theorem Hub.AllLike.keepsUnsynced {h h' : Hub} (like : h.AllLike h') : h.KeepsUnsynced h' := by
  intro ref w' _ _ at_
  obtain ⟨w,here,same⟩ := like ref w' at_
  exact ⟨w,here,same.toSame,same.currentRev⟩

/-! ### Every step -/

def Act.ofLoop : Act → Bool
  | .take _ | .readRevisions | .look _ | .fetch | .feed _ | .finish => true
  | _ => false

namespace WatchSys

/-- When the loop looks, the index still has all that the watcher lacks, with revisions that ascend with the keys; and when a
    deadline ends a `sendAll`, the watcher has what it was to be sent, or is not taken for up to date. -/
def Lists (p : Watcher → Prop) (σ : WatchSys) : Act → Prop
  | .look ref => ∀ t w, σ.loop = .ticking t .next → σ.hub.watchers[ref]? = some w → p w → t.compactedRev ≤ w.currentRev →
      (∀ e, w.Lacks σ.log t.storeRev e → e.1 ∈ σ.store.kvIndex.records e.2.key) ∧
      ∀ a b, w.Lacks σ.log t.storeRev a → w.Lacks σ.log t.storeRev b →
        (a.2.key < b.2.key ∨ a.2.key = b.2.key ∧ a.1.rev < b.1.rev) → a.1.rev.main < b.1.rev.main
  | .feed _ => ∀ t f highest w, σ.loop = .ticking t (.feeding f highest) → σ.hub.watchers[f.ref]? = some w → p w →
      w.ctx = some .deadlineExceeded → highest ≤ w.currentRev → ∀ x ∈ f.todo, w.accepts x = true → x.entry.modRev ≤ w.currentRev
  | _ => True

variable {p : Watcher → Prop} {σ σ' : WatchSys} {act : Act}

theorem Ordered.concluded_chases (chases : ∀ t work, σ.loop = .ticking t work → t.Chases p σ.hub σ.log) {t t' : Tick} {work : Work}
    (at_ : σ.loop = .ticking t work) (batch : t'.batch = t.batch) (storeRev : t'.storeRev = t.storeRev)
    (promotes : t'.promotes = t.promotes) {ref : Nat} (inBatch : ref ∈ t.batch) {w : Watcher}
    (here : σ.hub.watchers[ref]? = some w) (verdict : Watcher.Verdict)
    (caught : verdict = .promote → p w → ∀ e, ¬ w.Lacks σ.log t.storeRev e) :
    (σ.conclude t' w.id verdict).loop.Chases p σ.hub σ.log := by
  obtain ⟨ids,promoted⟩ := chases t work at_
  have same : t'.Chases p σ.hub σ.log := ⟨by rw [batch]; exact ids,by rw [batch,storeRev,promotes]; exact promoted⟩
  cases verdict with
  | delete cause | failed | stays => exact ⟨⟨same.ids,same.promoted⟩,trivial⟩
  | promote =>
    refine ⟨⟨same.ids,fun ref' member w' at' isKind marked e lacks => ?_⟩,trivial⟩
    rcases List.mem_append.mp marked with old | new
    · exact same.promoted ref' member w' at' isKind old e lacks
    · have sameRef := same.ids ref' member ref (by rw [batch]; exact inBatch) w' w at' here (List.mem_singleton.mp new)
      subst sameRef
      cases here.symm.trans at'
      change w.Lacks σ.log t'.storeRev e at lacks
      rw [storeRev] at lacks
      exact caught rfl isKind e lacks

theorem Stepped.chases (stepped : σ.Stepped act σ') (kind : Watcher.Kind p) (ordered : σ.Ordered) (lists : σ.Lists p act)
    (chases : σ.loop.Chases p σ.hub σ.log) (alive : σ'.panicked = false) : σ'.loop.Chases p σ'.hub σ'.log := by
  have kept : ∀ {h : Hub}, σ.hub.KeepsUnsynced h → σ.loop.Chases p h σ.log := fun keeps =>
    chases.congr ordered.loop kind keeps fun e inside => Or.inl inside
  have ticks : ∀ {t : Tick} {work : Work}, σ.loop = .ticking t work → t.Chases p σ.hub σ.log ∧ work.Chases p t σ.hub σ.log ∧
      t.Ordered σ.hub σ.current ∧ work.Ordered t σ.hub := by
    intro t work at_
    have loop := ordered.loop
    rw [at_] at loop chases
    exact ⟨chases.1,chases.2,loop⟩
  have concluded := fun {t t' : Tick} {work : Work} (at_ : σ.loop = .ticking t work) => @Ordered.concluded_chases p σ
    (fun t work at_ => (ticks at_).1) t t' work at_
  cases stepped with
  | waits | compact | advance | beginCommit | serve | served | beginWatcher => exact chases
  | @txn ops quiet =>
    refine chases.congr ordered.loop kind (.refl _) fun e inside => ?_
    obtain ⟨changes,done⟩ := ordered.logged.toOrderly.txnDone ops
    refine (List.mem_append.mp inside).imp_right fun new => ?_
    have := done.appended.main e new
    rw [current]
    omega
  | sends held ran =>
    have lock := ordered.lock
    rw [held] at lock
    have bound := (lock.feed _ rfl).1
    cases ran with
    | skipped | passed => exact chases
    | sent todo tested room opened updated => exact kept (updated.keepsUnsynced ⟨rfl,rfl,rfl,rfl,rfl⟩ (Or.inr bound))
  | endCommit held =>
    exact kept (Hub.removals_keep (Hub.AllLike.refl σ.hub) (fun _ _ _ like => like.drop _ _ _) fun _ _ _ like => like).keepsUnsynced
  | @endWatcher c held =>
    refine kept fun ref w' _ inside at_ => ?_
    rcases σ.hub.newWatcher_cases c σ.store with ⟨e,run⟩ | ⟨g,lastRevision,-,-,-,run⟩ <;> rw [run] at at_
    · exact ⟨w',at_,.refl w',rfl⟩
    · change (σ.hub.watchers ++ [c.watcher])[ref]? = some w' at at_
      rw [List.getElem?_append_left inside] at at_
      exact ⟨w',at_,.refl w',rfl⟩
  | cancel updated => exact kept (updated.keepsUnsynced ⟨rfl,rfl,rfl,rfl,rfl⟩ (Or.inl rfl))
  | receive updated => exact kept (updated.keepsUnsynced ⟨rfl,rfl,rfl,rfl,rfl⟩ (Or.inl rfl))
  | dropWatcher free =>
    exact kept (Hub.dropWatcher_keeps (Hub.AllLike.refl σ.hub) (fun _ _ _ _ like => like.drop _ _ _) _).keepsUnsynced
  | dropAll free => exact kept (Hub.dropAll_keeps (Hub.AllLike.refl σ.hub) fun _ _ _ _ like => like.drop _ _ _).keepsUnsynced
  | take at_ free taken => exact fun a inA b inB w w' atA atB same => taken.ids inA inB atA atB same
  | readRevisions at_ =>
    rw [at_] at chases
    exact ⟨⟨chases,fun ref member w _ _ marked => (by cases marked)⟩,trivial⟩
  | @givesUp t ref w cause at_ due here =>
    exact @concluded t (t.visiting ref) .next at_ rfl rfl rfl ref ((ticks at_).2.2.1.todo ref due) w here (.delete cause)
      fun is => (by cases is)
  | @forwards t ref w h at_ due fresh current updated =>
    have inBatch := (ticks at_).2.2.1.todo ref due
    obtain ⟨-,r,at',le⟩ := (ticks at_).2.2.1.batch ref inBatch
    rw [Hub.revAt,updated.here] at at'
    cases at'
    have forward : t.Chases p h σ.log := (ticks at_).1.forward kind updated ⟨rfl,rfl,rfl,rfl,rfl⟩ le
    refine @Ordered.concluded_chases p { σ with hub := h } ?_ t (t.visiting ref) .next at_ rfl rfl rfl ref inBatch
      { w with currentRev := t.storeRev } (by rw [updated.after,if_pos rfl]) .promote ?_
    · intro t' work at'
      cases at_.symm.trans at'
      exact forward
    · intro _ _ e lacks
      have above : t.storeRev < e.1.rev.main := lacks.above
      exact absurd lacks.upTo (not_le.mpr above)
  | @looks t ref w at_ due here fresh =>
    refine ⟨⟨(ticks at_).1.ids,(ticks at_).1.promoted⟩,fun w' at' isKind => ?_⟩
    cases here.symm.trans at'
    obtain ⟨known,ascending⟩ := lists t w at_ here isKind fresh
    exact ordered.logged.listed_by_index known ascending
  | misses at_ here => exact concluded at_ rfl rfl rfl (ticks at_).2.2.2.1 here .failed fun is => (by cases is)
  | @fetches t ref revs events at_ found =>
    refine ⟨(ticks at_).1,fun w here isKind => ?_⟩
    exact ((ticks at_).2.1 w here isKind).fetched ordered.logged found ref
  | @feeds t f f' highest h takeDone at_ ran =>
    obtain ⟨chasing,working,-,-⟩ := ticks at_
    rcases ran.hub_cases with rfl | ⟨w,w',updated,same,grows⟩
    · refine ⟨chasing,fun w at' isKind => ?_⟩
      have here : σ.hub.watchers[f.ref]? = some w := by rw [← ran.ref_eq]; exact at'
      exact (working w here isKind).ran ordered.logged here ran at'
    · refine ⟨chasing.forward kind updated same grows,fun x at' isKind => ?_⟩
      have after := at'
      rw [ran.ref_eq,updated.after,if_pos rfl] at after
      cases after
      exact (working w updated.here (kind w _ same isKind)).ran ordered.logged updated.here ran at'
  | loses at_ => exact ⟨(ticks at_).1,trivial⟩
  | @fed t f highest e w takeDone at_ ended here =>
    obtain ⟨-,working,-,inBatch,-⟩ := ticks at_
    refine concluded at_ rfl rfl rfl inBatch here _ fun promote isKind x lacks => ?_
    have member := (working w here isKind).lacked x lacks
    cases ended with
    | gone missing => cases missing.symm.trans here
    | complete todo =>
      rw [todo] at member
      cases member
    | panicked => cases alive
    | overloaded => cases promote
    | @refused w' cause here' done =>
      cases here.symm.trans here'
      have date : (toKvEvent x.2).entry.modRev = x.1.rev.main := ordered.logged.dated x lacks.logged
      cases cause with
      | canceled | compacted | failureLimit => cases promote
      | deadlineExceeded =>
        simp only [Watcher.conclude,Cause.err] at promote
        split at promote
        next reached =>
          have := lists t f highest w at_ here isKind done reached _ member lacks.accepted
          have := lacks.above
          omega
        next => cases promote
  | finish => trivial

/-- Everything that is known along a run that meets the conditions. -/
structure Pursues (p : Watcher → Prop) (σ : WatchSys) : Prop where
  ordered : σ.Ordered
  chases : σ.panicked = false → σ.loop.Chases p σ.hub σ.log

theorem Pursues.new (p : Watcher → Prop) : Pursues p .new := ⟨.new,fun _ => trivial⟩

theorem Pursues.step (pursues : Pursues p σ) (kind : Watcher.Kind p) (lists : σ.Lists p act) : Pursues p (σ.step act) := by
  refine ⟨pursues.ordered.step (σ.step_cases act),fun alive => ?_⟩
  rw [WatchSys.step] at alive ⊢
  cases dead : σ.panicked with
  | true =>
    rw [dead,if_pos rfl,dead] at alive
    cases alive
  | false =>
    simp only [dead,Bool.false_eq_true,if_false] at alive ⊢
    exact (σ.act_cases act).chases kind pursues.ordered lists (pursues.chases dead) alive

/-- The loop passes over nothing: a watcher that it has brought forward has been sent what is behind. -/
theorem Stepped.passes (stepped : σ.Stepped act σ') (ofLoop : act.ofLoop = true) (ordered : σ.Ordered) (lists : σ.Lists p act)
    (chases : σ.loop.Chases p σ.hub σ.log) {ref : Nat} {w w' : Watcher} (here : σ.hub.watchers[ref]? = some w) (isKind : p w)
    (after : σ'.hub.watchers[ref]? = some w') {e : KvBucketKey × Entry} (logged : e ∈ σ.log)
    (accepted : w.accepts (toKvEvent e.2) = true) (above : w.currentRev < e.1.rev.main) (le : e.1.rev.main ≤ w'.currentRev) :
    toKvEvent e.2 ∈ w'.c.sent := by
  have same : w'.currentRev = w.currentRev → toKvEvent e.2 ∈ w'.c.sent := fun same => absurd le (by omega)
  cases stepped with
  | waits | take | readRevisions | looks | fetches | loses =>
    cases here.symm.trans after
    exact same rfl
  | givesUp | misses | fed =>
    cases here.symm.trans after
    exact same rfl
  | @forwards t ref' x h at_ due fresh current updated =>
    change h.watchers[ref]? = some w' at after
    rw [updated.after] at after
    split at after
    next is =>
      subst is
      cases updated.here.symm.trans here
      cases after
      obtain ⟨known,ascending⟩ := lists t w at_ here isKind fresh
      have listed := (ordered.logged.listed_by_index known ascending).lacked e ⟨logged,accepted,above,le⟩
      rw [current] at listed
      cases listed
    next =>
      cases here.symm.trans after
      exact same rfl
  | @feeds t f f' highest h takeDone at_ ran =>
    rw [at_] at chases
    cases ran with
    | skipped | passed =>
      cases here.symm.trans after
      exact same rfl
    | @sent x event rest c h todo tested room opened updated =>
      change h.watchers[ref]? = some w' at after
      rw [updated.after] at after
      split at after
      next is =>
        subst is
        cases updated.here.symm.trans here
        cases after
        have loop := ordered.loop
        rw [at_] at loop
        have newer : w.currentRev < event.entry.modRev :=
          loop.2.2.newer tested event rest w.currentRev todo (by rw [Hub.revAt,here]; rfl)
        have revision : (w.sent event c).currentRev = event.entry.modRev := if_pos newer
        have below : event.entry.modRev ≤ t.storeRev := loop.2.2.todo event (by rw [todo]; exact List.mem_cons_self)
        rw [revision] at le
        rw [(chases.2 w here isKind).passes ordered.logged tested todo ⟨logged,accepted,above,le.trans below⟩ le]
        change event ∈ c.sent
        rw [room.sent]
        exact List.mem_append_right _ (List.mem_singleton.mpr rfl)
      next =>
        cases here.symm.trans after
        exact same rfl
  | @finish t at_ free done =>
    have like : σ.hub.AllLike (t.finish σ.failures σ.hub).2 := Tick.finish_keeps (Hub.AllLike.refl σ.hub)
      (fun _ _ _ like => like.drop _ _ _) (fun _ _ _ like => like) σ.failures
    obtain ⟨x,before,likewise⟩ := like ref w' after
    cases here.symm.trans before
    exact same likewise.currentRev
  | _ => cases ofLoop

end WatchSys

end Kave
