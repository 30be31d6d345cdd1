import Kave.KeySets
import Kave.Observers
import Kave.PlainCommands

/-! Comparisons as locks: a transaction that asks for the modification revision a client has read finds exactly the entry that the
    client has read, whatever was applied in between. -/

namespace Kave

open TreeIndex

namespace KvStore.Holds

variable {s : KvStore} {m : KvMap} {key : Bytes}

theorem modRev_pos (holds : s.Holds m) {item : Item} (found : m.find? key = some item) : 0 < item.modRev := by
  have here := holds.shows_ key
  cases answer : s.content.index.look key s.currentRev.main with
  | none => simp [shown,wanted,answer,found] at here
  | some live =>
    simp only [shown,wanted,answer,found,Option.map_some,Option.some.injEq,Prod.mk.injEq] at here
    rw [← here.2.1]
    exact (holds.settled.before.early key _ (look_mem answer).1).1

end KvStore.Holds

/-- The key has no entry, or one of after `rev`. -/
def KvMap.Newer (m : KvMap) (key : Bytes) (rev : Int) : Prop := ∀ item, m.find? key = some item → rev < item.modRev

namespace Fsm

variable {f g : Fsm} {m m' : KvMap} {key : Bytes}

theorem Moves.leaves_or_renews {request : Request} (moves : Moves f g m request m') (holds : f.store.Holds m) (key : Bytes) :
    m'.find? key = m.find? key ∨ m'.Newer key f.store.currentRev.main := by
  cases moves with
  | idle | grant => exact Or.inl rfl
  | @put cmd =>
    rw [KvMap.put,KvMap.Newer,SortedMap.find_insert]
    split
    · refine Or.inr fun item put => ?_
      cases put
      exact Int.lt_succ _
    · exact Or.inl rfl
  | @delete cmd =>
    rw [KvMap.Newer,SortedMap.find_filter]
    cases rangeSelects cmd.key cmd.endKey key <;> cases m.find? key <;> simp [Option.filter]
  | @txn cmd =>
    have last := KvMap.find_applyOps (f.store.currentRev.main + 1) m (Engine.calls f.store.newWriter (.txn cmd)) key
    cases wrote : lastWrite key (Engine.calls f.store.newWriter (.txn cmd)) with
    | none =>
      rw [wrote] at last
      exact Or.inl last
    | some left =>
      refine Or.inr fun item found => ?_
      rw [(KvMap.modRev_applyOps (fun _ _ old => Int.lt_add_one_iff.mpr (holds.modRev_le old)) _ found).mpr (by simp [wrote])]
      exact Int.lt_succ _
  | remove =>
    rw [KvMap.Newer,SortedMap.find_foldl_erase]
    split
    · exact Or.inr fun _ found => by cases found
    · exact Or.inl rfl

/-- Along a log without compactions a key keeps its item, or gets newer ones for good. -/
theorem applyAll_keeps_or_renews {rev : Int} {was : Option Item} {entries : List (Env × Log)} (orderly : f.store.Orderly)
    (reached : rev ≤ f.store.currentRev.main) (current : f.store.Current m) (now : m.find? key = was ∨ m.Newer key rev)
    (uncompacted : ∀ e ∈ entries, e.2.Uncompacted) :
    ∃ m', (f.applyAll entries).store.Current m' ∧ (m'.find? key = was ∨ m'.Newer key rev) := by
  induction entries generalizing f m with
  | nil => exact ⟨m,current,now⟩
  | cons e rest ih =>
    obtain ⟨mine,uncompacted⟩ := List.forall_mem_cons.mp uncompacted
    have reached' : rev ≤ (f.apply e.1 e.2).1.store.currentRev.main := by
      rcases @Replica.step_current ⟨f,[]⟩ orderly (.apply e.1 e.2) (fun _ => nofun) with same | next
      · exact reached.trans same.ge
      · exact (reached.trans (Int.lt_succ _).le).trans next.ge
    have step : ∃ m', (f.apply e.1 e.2).1.store.Current m' ∧ (m'.find? key = was ∨ m'.Newer key rev) := by
      rcases apply_moves current e.1 mine with same | ⟨request,m',-,-,moves,after⟩
      · exact ⟨m,by rwa [same],now⟩
      · refine ⟨m',after,?_⟩
        rcases moves.leaves_or_renews current.holds key with same | newer
        · rwa [KvMap.Newer, same]
        · exact Or.inr fun item found => lt_of_le_of_lt reached (newer item found)
    obtain ⟨m',current',now'⟩ := step
    exact ih (apply_orderly orderly e.1 e.2) reached' current' now' uncompacted

end Fsm

/-- The modification revision stands for the whole entry: a comparison with the one a client has read holds exactly while the key has
    the entry that it has read. -/
theorem mod_comparison_holds_iff_unchanged (opts : OtOptions) (nodeID : String) (before after : List (Env × Log))
    (uncompacted : ∀ e ∈ before ++ after, e.2.Uncompacted) {key : Bytes} (nonempty : key ≠ []) {e : Entry}
    (read : ((Fsm.new opts nodeID).applyAll before).store.entryOf key = some e) :
    let s := ((Fsm.new opts nodeID).applyAll (before ++ after)).store
    Engine.evalCondition s.newWriter [⟨key,.equal,.mod,⟨[],0,e.modRev,0⟩⟩] = true ↔ s.entryOf key = some e := by
  obtain ⟨first,rest⟩ := List.forall_mem_append.mp uncompacted
  obtain ⟨m,current⟩ := Fsm.applyAll_current (f := Fsm.new opts nodeID) first KvStore.Current.new
  rw [current.holds.entryOf_eq] at read
  obtain ⟨item,found,rfl⟩ := Option.map_eq_some_iff.mp read
  have orderly : ((Fsm.new opts nodeID).applyAll before).store.Orderly :=
    Fsm.applyAll_invariant (P := fun f => f.store.Orderly) (fun _ env log orderly => Fsm.apply_orderly orderly env log) .new before
  obtain ⟨m',current',now⟩ := Fsm.applyAll_keeps_or_renews orderly (current.holds.modRev_le found) current (Or.inl found) rest
  intro s
  rw [Fsm.applyAll,Fsm.applyAll,← List.foldl_append] at current'
  have compared : Engine.evalCondition s.newWriter [⟨key,.equal,.mod,⟨[],0,item.modRev,0⟩⟩] =
      decide (((s.newWriter.get key 0).map (·.modRev)).getD 0 = item.modRev) := Bool.and_true _
  have holds : s.Holds m' := current'.holds
  change Engine.evalCondition s.newWriter [⟨key,.equal,.mod,⟨[],0,item.modRev,0⟩⟩] = true ↔ _
  rw [compared,decide_eq_true_iff,holds.get_eq nonempty,holds.entryOf_eq]
  cases there : m'.find? key with
  | none => simpa using (current.holds.modRev_pos found).ne
  | some item' =>
    rw [KvMap.Newer,there] at now
    rcases now with same | newer
    · simp [Option.some.inj same,Item.entry]
    · have less := newer item' rfl
      exact iff_of_false less.ne' fun same => less.ne' (congrArg Entry.modRev (Option.some.inj same))

theorem mod_comparison_holds_beside_other_key :
    let put := fun index key => ((.plain 0,.plain index (.kv (.put (.plain key [1] 0)))) : Env × Log)
    Engine.evalCondition ((Fsm.new defaultOtOptions "a").applyAll ([put 1 [97]] ++ [put 2 [98]])).store.newWriter
      [⟨[97],.equal,.mod,⟨[],0,1,0⟩⟩] = true := by
  intro put
  exact (mod_comparison_holds_iff_unchanged defaultOtOptions "a" [put 1 [97]] [put 2 [98]] (by decide) (by decide)
    (e := ⟨[97],some [1],1,1,1,0⟩) (by decide)).mpr (by decide)

end Kave
