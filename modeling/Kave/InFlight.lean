import Kave.ChangeLog

/-! An open writer has its changes in the index already, under a revision that is not current yet. Whoever asks the index for
    a revision that was reached before gets the answers from before the writer was opened. -/

namespace Kave

open TreeIndex KeyIndex

/-! ### One key -/

namespace KeyIndex

/-- `get` in the generations, the newest first. -/
def getGens (t : Int) (last : Bool) (gens : List Generation) : Except IndexError (Revision × Revision × Int) :=
  match findGenLoop t last gens with
  | .error cause => .error (.keyNotFound cause)
  | .ok g =>
    match getIn g t with
    | some found => .ok found
    | none => .error .revNotFound

theorem get_eq {ki : KeyIndex} (full : ki.isEmpty = false) (t : Int) : ki.get t = getGens t true ki.generations.reverse := by
  rw [get,full]
  rfl

theorem getGens_zero (t : Int) (last : Bool) (gens : List Generation) :
    getGens t last (Generation.zero :: gens) = getGens t false gens := rfl

theorem getGens_append_before {g : Generation} {rev : Revision} {t : Int} (before : t < rev.main) (last : Bool)
    (older : List Generation) : getGens t last (g.append rev :: older) = getGens t true (g :: older) := by
  have late : ¬ rev.main ≤ t := not_le.mpr before
  cases revs : g.revs with
  | nil =>
    have new : (g.append rev).revs = [rev] := by simp [Generation.append,revs]
    simp [getGens,findGenLoop,new,revs,late]
  | cons first rest =>
    have more : (g.append rev).revs = first :: (rest ++ [rev]) := by simp [Generation.append,revs]
    have newest : (first :: (rest ++ [rev])).getLast? = some rev := by
      rw [← List.cons_append,List.getLast?_concat]
    have same := getIn_append_before before (show g.revs ≠ [] by simp [revs])
    by_cases begun : first.main ≤ t <;> simp [getGens,findGenLoop,more,revs,newest,late,begun,same]

variable {ki ki' : KeyIndex} {rev : Revision} {t : Int}

theorem WellFormed.get_put (wellFormed : ki.WellFormed) (run : ki.put rev.main rev.sub = .ok ki') (before : t < rev.main) :
    ki'.get t = ki.get t := by
  obtain ⟨ended,current,lives⟩ := wellFormed
  rw [(put_ok_iff run).2,lives.generations,appendRev_snoc,get_eq (by cases ended <;> simp [isEmpty,Generation.append]),
    get_eq lives.not_empty,lives.generations]
  simpa using getGens_append_before before true ended.reverse

theorem WellFormed.get_tombstone (wellFormed : ki.WellFormed) (run : ki.tombstone rev.main rev.sub = .ok ki')
    (before : t < rev.main) : ki'.get t = ki.get t := by
  obtain ⟨ended,current,lives⟩ := wellFormed
  rw [(lives.tombstone_ok run).2.2,get_eq (by cases ended <;> simp [isEmpty]),get_eq lives.not_empty,lives.generations]
  simpa [getGens_zero] using getGens_append_before before false ended.reverse

theorem get_first {key : Bytes} (run : (KeyIndex.new key).put rev.main rev.sub = .ok ki') (before : t < rev.main) :
    ki'.get t = .error (.keyNotFound .gap) := by
  rw [(put_ok_iff run).2,get_eq (by simp [isEmpty,appendRev,Generation.append,KeyIndex.new])]
  exact getGens_append_before before true []

end KeyIndex

/-! ### The tree -/

namespace TreeIndex

variable {ti ti₁ ti₂ : TreeIndex} {t : Int}

/-- The later tree answers at `t` as the earlier one. Only a key that the earlier one did not have is reported with another
    error. -/
structure AsBefore (t : Int) (ti ti' : TreeIndex) : Prop where
  keeps : ∀ key, ti'.find? key = none → ti.find? key = none
  get : ∀ key, ti'.unsafeGet key t =
    if ti.find? key = none ∧ ti'.find? key ≠ none then .error (.keyNotFound .gap) else ti.unsafeGet key t

theorem AsBefore.refl (t : Int) (ti : TreeIndex) : ti.AsBefore t ti :=
  ⟨fun _ => id,fun key => by rw [if_neg fun both => both.2 both.1]⟩

section

variable (before : ti.AsBefore t ti₁)

include before

theorem AsBefore.write {key : Bytes} {ki : KeyIndex}
    (get : ki.get t = if ti₁.find? key = none then .error (.keyNotFound .gap) else ti₁.unsafeGet key t) :
    ti.AsBefore t (ti₁.insert key ki) where
  keeps k none := by
    rw [SortedMap.find_insert] at none
    split at none
    · cases none
    · exact before.keeps k none
  get k := by
    by_cases same : k = key
    · subst same
      have here : TreeIndex.unsafeGet (ti₁.insert k ki) k t = ki.get t := by
        rw [unsafeGet,SortedMap.find_insert,if_pos rfl]
      rw [here,get,SortedMap.find_insert,if_pos rfl]
      by_cases none : ti₁.find? k = none
      · rw [if_pos none,if_pos ⟨before.keeps k none,by simp⟩]
      · rw [if_neg none,before.get k]
        simp [none]
    · have other : (ti₁.insert key ki).find? k = ti₁.find? k := by rw [SortedMap.find_insert,if_neg same]
      have answer : TreeIndex.unsafeGet (ti₁.insert key ki) k t = ti₁.unsafeGet k t := by rw [unsafeGet,other,unsafeGet]
      rw [answer,other,before.get k]

theorem AsBefore.put (valid : ti₁.Valid) {key : Bytes} {rev : Revision} (late : t < rev.main)
    (run : ti₁.put key rev = .ok ti₂) : ti.AsBefore t ti₂ := by
  rw [TreeIndex.put] at run
  cases found : ti₁.find? key with
  | none =>
    cases first : (KeyIndex.new key).put rev.main rev.sub with
    | error e => simp [found,first,Except.map] at run
    | ok ki =>
      simp only [found,first,Except.map,Except.ok.injEq] at run
      rw [← run]
      exact before.write (by rw [if_pos found,get_first first late])
  | some old =>
    cases next : old.put rev.main rev.sub with
    | error e => simp [found,next,Except.map] at run
    | ok ki =>
      simp only [found,next,Except.map,Except.ok.injEq] at run
      rw [← run]
      refine before.write ?_
      rw [if_neg (by simp [found]),(valid key old found).2.get_put next late,unsafeGet,found]

theorem AsBefore.tombstone (valid : ti₁.Valid) {key : Bytes} {rev : Revision} (late : t < rev.main)
    (run : ti₁.tombstone key rev = .ok ti₂) : ti.AsBefore t ti₂ := by
  rw [TreeIndex.tombstone] at run
  cases found : ti₁.find? key with
  | none => simp [found] at run
  | some old =>
    cases next : old.tombstone rev.main rev.sub with
    | error e => simp [found,next,Except.map] at run
    | ok ki =>
      simp only [found,next,Except.map,Except.ok.injEq] at run
      rw [← run]
      refine before.write ?_
      rw [if_neg (by simp [found]),(valid key old found).2.get_tombstone next late,unsafeGet,found]

theorem AsBefore.look (key : Bytes) : ti₁.look key t = ti.look key t := by
  rw [← unsafeGet_toOption,← unsafeGet_toOption,before.get key]
  split
  next new =>
    rw [unsafeGet,new.1]
    rfl
  next => rfl

theorem AsBefore.live : ti₁.live t = ti.live t :=
  SortedMap.ext_find fun key => by rw [find_live,find_live,before.look key]

theorem AsBefore.range (valid : ti.Valid) (valid₁ : ti₁.Valid) (key : Bytes) (endKey : Option Bytes) :
    ti₁.range key endKey t = ti.range key endKey t := by
  rw [valid₁.range_eq,valid.range_eq,before.live]

theorem AsBefore.revisions (key : Bytes) (endKey : Option Bytes) (limit : Int) :
    ti₁.revisions key endKey t limit = ti.revisions key endKey t limit := by
  rw [revisions_eq,revisions_eq,before.live]

end

theorem revisionsRange_congr {next : Int} (records : ∀ key, ∃ more, ti₁.records key = ti.records key ++ more ∧
    ∀ bk ∈ more, next ≤ bk.rev.main) (key : Bytes) (endKey : Option Bytes) {startRev endRev : Int} (past : endRev ≤ next) :
    ti₁.revisionsRange key endKey startRev endRev = ti.revisionsRange key endKey startRev endRev := by
  have listed : ∀ (ti : TreeIndex) (k : Bytes), ((ti.find? k).map fun ki => getRevs ki startRev endRev).getD [] =
      (ti.records k).filter fun bk => startRev < bk.rev.main && bk.rev.main < endRev := by
    intro ti k
    rw [TreeIndex.records]
    cases ti.find? k <;> rfl
  have same : ∀ k, ((ti₁.find? k).map fun ki => getRevs ki startRev endRev).getD [] =
      ((ti.find? k).map fun ki => getRevs ki startRev endRev).getD [] := by
    intro k
    obtain ⟨more,appended,late⟩ := records k
    have none : (more.filter fun bk => startRev < bk.rev.main && bk.rev.main < endRev) = [] := by
      refine List.filter_eq_nil_iff.mpr fun bk member => ?_
      have := late bk member
      simp only [Bool.and_eq_true,decide_eq_true_eq]
      omega
    rw [listed,listed,appended,List.filter_append,none,List.append_nil]
  rw [revisionsRange_eq,revisionsRange_eq]
  refine SortedMap.flatMap_entries_congr (f := fun ki => getRevs ki startRev endRev) fun k => ?_
  rw [SortedMap.find_filter,SortedMap.find_filter]
  cases selects key endKey k with
  | false => simp
  | true =>
    have all : ∀ o : Option KeyIndex, o.filter (fun _ => true) = o := fun o => by cases o <;> rfl
    rw [all,all]
    exact same k

end TreeIndex

/-! ### The writer -/

namespace Writer.Opened

variable {s : KvStore} {w : Writer} {P : TreeIndex → Prop}

/-- What the changes of a transaction to the index keep, one by one, its calls keep. -/
structure Keeps (next : Int) (P : TreeIndex → Prop) : Prop where
  put : ∀ {ti ti' : TreeIndex} {key : Bytes} {sub : Int}, P ti → ti.Valid → ti.put key ⟨next,sub⟩ = .ok ti' → P ti'
  tombstone : ∀ {ti ti' : TreeIndex} {key : Bytes} {sub : Int}, P ti → ti.Valid → ti.tombstone key ⟨next,sub⟩ = .ok ti' → P ti'

variable (keeps : Keeps (s.currentRev.main + 1) P)
include keeps

theorem index_put (opened : w.Opened s) (start : P w.store.kvIndex) (key : Bytes) (value : Option Bytes) (leaseID : Int64) :
    P (w.put key value leaseID).1.store.kvIndex := by
  rw [Writer.put]
  cases index : w.store.kvIndex.put key ⟨w.startRev.main + 1,w.changes.length⟩ with
  | error e => exact start
  | ok ti =>
    rw [opened.startRev] at index
    exact keeps.put start opened.fresh.before.valid index

theorem index_deleteKey (opened : w.Opened s) (start : P w.store.kvIndex) (key : Bytes) :
    P (w.deleteKey key).1.store.kvIndex := by
  rw [Writer.deleteKey]
  cases index : w.store.kvIndex.tombstone key ⟨w.startRev.main + 1,w.changes.length⟩ with
  | error e => simpa [KvBucketKey.newKvBucketKey,index] using start
  | ok ti =>
    have after := index
    rw [opened.startRev] at after
    simpa [KvBucketKey.newKvBucketKey,index] using keeps.tombstone start opened.fresh.before.valid after

theorem index_runOps (ops : List Op) (opened : w.Opened s) (start : P w.store.kvIndex) :
    P (Writer.runOps ops w).1.store.kvIndex :=
  (Writer.runOps_invariant (P := fun p => p.1.Opened s ∧ P p.1.store.kvIndex)
    (fun _ key value leaseID both => ⟨both.1.put key value leaseID,both.1.index_put keeps both.2 key value leaseID⟩)
    (fun _ key both => ⟨both.1.deleteKey key,both.1.index_deleteKey keeps both.2 key⟩) ops ⟨opened,start⟩).2

end Writer.Opened

namespace KvStore

/-- The stores that a replica reaches, and those that transactions reach beside running compactions. -/
inductive Reached : KvStore → Prop
  | replica (opts : OtOptions) (nodeID : String) (events : List ReplicaEvent) :
      Reached ((Replica.new opts nodeID).run events).fsm.store
  | concurrent (events : List SysEvent) : Reached (Sys.new.run events).store

end KvStore

theorem Sys.step_settled {s : Sys} (settled : s.store.Settled) (event : SysEvent) : (s.step event).store.Settled := by
  cases event with
  | txn ops =>
    obtain ⟨ws,committed⟩ := settled.committed ops
    exact committed.settled settled
  | compact rev =>
    have accepted := settled.compact rev
    change (s.compact rev).store.Settled
    rw [Sys.compact]
    generalize s.store.compact rev = run at accepted ⊢
    obtain ⟨store,result⟩ := run
    cases result <;> exact accepted
  | advance i =>
    change (s.advance i).store.Settled
    rw [Sys.advance]
    cases s.jobs[i]? with
    | none => exact settled
    | some job => exact (job.step_cases settled.before.valid).settled settled

theorem Sys.run_settled {s : Sys} (settled : s.store.Settled) (events : List SysEvent) : (s.run events).store.Settled := by
  induction events generalizing s with
  | nil => exact settled
  | cons event rest ih => exact ih (step_settled settled event)

theorem KvStore.Reached.settled {s : KvStore} (reached : s.Reached) : s.Settled := by
  cases reached with
  | replica opts nodeID events => exact (Replica.run_orderly opts nodeID events).settled
  | concurrent events => exact Sys.run_settled refines_empty.settled events

/-! ### Which keys are new -/

def Op.Puts (key : Bytes) : Op → Prop
  | .put k _ _ => k = key
  | .deleteKey _ | .deleteRange _ _ => False

instance Op.decidablePuts (key : Bytes) : (op : Op) → Decidable (op.Puts key)
  | .put k _ _ => inferInstanceAs (Decidable (k = key))
  | .deleteKey _ | .deleteRange _ _ => inferInstanceAs (Decidable False)

def Write.Puts (key : Bytes) : Write → Prop
  | .put k _ _ => k = key
  | .delete _ => False

theorem TreeIndex.Wrote.find_ne_none {ti ti' : TreeIndex} {key : Bytes} {bk : KvBucketKey} (wrote : ti.Wrote ti' key bk) :
    ti'.find? key ≠ none := by
  intro none
  have records := wrote.records
  rw [TreeIndex.records,none] at records
  simp at records

theorem Chain.find_none_iff {next : Int} {n : Nat} {a b : Content} {ws : List Write} (chain : Chain next n a ws b) (key : Bytes) :
    b.index.find? key = none ↔ a.index.find? key = none ∧ ∀ w ∈ ws, ¬ w.Puts key := by
  induction chain with
  | nil => simp
  | @cons n a b c w ws step rest ih =>
    have here : b.index.find? key = none ↔ a.index.find? key = none ∧ ¬ w.Puts key := by
      cases step with
      | @put k value leaseID ti wrote =>
        by_cases same : k = key
        · subst same
          simp [Write.Puts,wrote.find_ne_none]
        · simp [Write.Puts,same,wrote.other key fun is => same is.symm]
      | @delete k ti alive wrote =>
        by_cases same : k = key
        · subst same
          have known : a.index.find? k ≠ none := by
            intro none
            simp [TreeIndex.look,none] at alive
          simp [known,wrote.find_ne_none]
        · simp [Write.Puts,wrote.other key fun is => same is.symm]
    rw [ih,here]
    simp [and_assoc]

theorem KvMap.puts_opsWrites (next : Int) (ops : List Op) (m : KvMap) (key : Bytes) :
    (∀ w ∈ opsWrites next ops m, ¬ w.Puts key) ↔ ∀ op ∈ ops, ¬ op.Puts key := by
  induction ops generalizing m with
  | nil => simp [opsWrites]
  | cons op rest ih =>
    have here : (∀ w ∈ opWrites m op, ¬ w.Puts key) ↔ ¬ op.Puts key := by
      cases op <;> simp [opWrites,Op.Puts,Write.Puts]
    simp only [opsWrites,List.forall_mem_append,List.forall_mem_cons,here,ih]

namespace KvStore.Settled

variable {s : KvStore} (settled : s.Settled) (ops : List Op)
include settled

theorem runOps_chain : ∃ m : KvMap, Chain (s.currentRev.main + 1) 0 s.content (KvMap.opsWrites (s.currentRev.main + 1) ops m)
    (Writer.runOps ops s.newWriter).1.content := by
  obtain ⟨m,domain⟩ := s.newWriter.content.exists_domain (s.currentRev.main + 1)
  obtain ⟨w,more,run,-,-,chain⟩ := Writer.runOps_spec ops settled.fresh domain
  rw [run]
  exact ⟨m,chain⟩

theorem asBefore_runOps {t : Int} (past : t ≤ s.currentRev.main) :
    s.kvIndex.AsBefore t (Writer.runOps ops s.newWriter).1.store.kvIndex := by
  refine Writer.Opened.index_runOps (P := s.kvIndex.AsBefore t) ⟨?_,?_⟩ ops (.new settled) (.refl t s.kvIndex)
  · intro ti ti' key sub before valid run
    exact before.put valid (by simpa using Int.lt_add_one_of_le past) run
  · intro ti ti' key sub before valid run
    exact before.tombstone valid (by simpa using Int.lt_add_one_of_le past) run

theorem find_runOps_none_iff (key : Bytes) :
    (Writer.runOps ops s.newWriter).1.store.kvIndex.find? key = none ↔
      s.kvIndex.find? key = none ∧ ∀ op ∈ ops, ¬ op.Puts key := by
  obtain ⟨m,chain⟩ := settled.runOps_chain ops
  rw [← KvMap.puts_opsWrites (s.currentRev.main + 1) ops m key]
  exact chain.find_none_iff key

theorem records_runOps (key : Bytes) :
    ∃ more, (Writer.runOps ops s.newWriter).1.store.kvIndex.records key = s.kvIndex.records key ++ more ∧
      ∀ bk ∈ more, s.currentRev.main + 1 ≤ bk.rev.main := by
  obtain ⟨m,chain⟩ := settled.runOps_chain ops
  refine chain.invariant (P := fun _ c => ∃ more, c.index.records key = s.kvIndex.records key ++ more ∧
    ∀ bk ∈ more, s.currentRev.main + 1 ≤ bk.rev.main) ?_ ⟨[],by simp [KvStore.content],by simp⟩
  rintro n a write b ⟨old,appended,late⟩ step
  obtain ⟨k,bk,entry,at_,wrote,-⟩ := step.wrote
  by_cases same : key = k
  · subst same
    refine ⟨old ++ [bk],by rw [wrote.records,appended,List.append_assoc],fun b member => ?_⟩
    rcases List.mem_append.mp member with inside | new
    · exact late b inside
    · rw [List.mem_singleton.mp new,at_]
  · exact ⟨old,by rw [wrote.records_other same,appended],late⟩

end KvStore.Settled

/-- The calls of a writer that has not ended change no listing of the index at a revision that was reached before, and the
    answer of `Get` stays if and only if the key was in the index before or the writer has not put it. -/
theorem in_flight_writes_unseen_iff {s : KvStore} (reached : s.Reached) (ops : List Op) :
    let during := (Writer.runOps ops s.newWriter).1.store.kvIndex
    (∀ key r, r ≤ s.currentRev.main →
      (during.unsafeGet key r = s.kvIndex.unsafeGet key r ↔ (s.kvIndex.find? key = none → ∀ op ∈ ops, ¬ op.Puts key))) ∧
    (∀ key endKey r, r ≤ s.currentRev.main → during.range key endKey r = s.kvIndex.range key endKey r) ∧
    (∀ key endKey r limit, r ≤ s.currentRev.main → during.revisions key endKey r limit = s.kvIndex.revisions key endKey r limit) ∧
    ∀ key endKey startRev endRev, endRev ≤ s.currentRev.main + 1 →
      during.revisionsRange key endKey startRev endRev = s.kvIndex.revisionsRange key endKey startRev endRev := by
  intro during
  have settled := reached.settled
  have before : ∀ r, r ≤ s.currentRev.main → s.kvIndex.AsBefore r during := fun r past => settled.asBefore_runOps ops past
  have valid : during.Valid := ((Writer.Opened.new settled).runOps ops).fresh.before.valid
  refine ⟨fun key r past => ?_,fun key endKey r past => ?_,fun key endKey r limit past => ?_,?_⟩
  · rw [(before r past).get key]
    have new := settled.find_runOps_none_iff ops key
    change during.find? key = none ↔ _ at new
    by_cases absent : s.kvIndex.find? key = none
    · have told : s.kvIndex.unsafeGet key r = .error .revNotFound := by rw [TreeIndex.unsafeGet, absent]
      by_cases puts : ∀ op ∈ ops, ¬ op.Puts key
      · rw [if_neg fun both => both.2 (new.mpr ⟨absent,puts⟩)]
        exact iff_of_true rfl fun _ => puts
      · rw [if_pos ⟨absent,fun none => puts (new.mp none).2⟩, told]
        exact iff_of_false (by simp) fun all => puts (all absent)
    · simp [absent]
  · exact (before r past).range settled.before.valid valid key endKey
  · exact (before r past).revisions key endKey limit
  · intro key endKey startRev endRev past
    exact revisionsRange_congr (settled.records_runOps ops) key endKey past

/-- The writer has deleted and put "a" again and has put "b". -/
theorem in_flight_writes_unseen_recreated :
    let s := ((Replica.new defaultOtOptions "n").run
      [.apply (.plain 0) (.plain 1 (.kv (.put (.plain [97] [1] 0))))]).fsm.store
    let during := (Writer.runOps [.deleteKey [97],.put [97] (some [2]) 0,.put [98] (some [3]) 0] s.newWriter).1.store.kvIndex
    during.revisions [] none 1 0 = ([⟨1,0⟩],1) ∧ during.unsafeGet [97] 1 = .ok (⟨1,0⟩,⟨1,0⟩,1) ∧
      during.revisionsRange [] none 0 2 = [⟨⟨1,0⟩,false⟩] := by
  have unseen := in_flight_writes_unseen_iff (.replica defaultOtOptions "n"
    [.apply (.plain 0) (.plain 1 (.kv (.put (.plain [97] [1] 0))))])
    [.deleteKey [97],.put [97] (some [2]) 0,.put [98] (some [3]) 0]
  refine ⟨(unseen.2.2.1 [] none 1 0 ?_).trans ?_,((unseen.1 [97] 1 ?_).mpr ?_).trans ?_,(unseen.2.2.2 [] none 0 2 ?_).trans ?_⟩ <;>
    decide

/-- A put of a new key that is still in flight changes what a reader is told about the key. -/
theorem in_flight_put_changes_error :
    let s := (Sys.new.run []).store
    s.Reached ∧ s.kvIndex.unsafeGet [97] 0 = .error .revNotFound ∧
      (Writer.runOps [.put [97] (some [1]) 0] s.newWriter).1.store.kvIndex.unsafeGet [97] 0 = .error (.keyNotFound .gap) :=
  ⟨.concurrent [],by decide,by decide⟩

end Kave
