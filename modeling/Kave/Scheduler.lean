import Kave.Schedules
import Kave.Runs

/-! The compaction scheduler of a node and the compactions it brings about. It proposes the revision that was current at its tick
    before, so that nothing newer is lost to a reader. -/

namespace Kave

/-- `CompactionScheduler` with its options. Both channels have room for one message; `ticking` tells whether the loop has a ticker. -/
structure CompactionScheduler where
  threshold : Int
  maxRevGap : Int
  candidateRev : Int
  leadershipC : Option Bool
  writePressureC : Bool
  ticking : Bool
deriving DecidableEq, Repr

/-- A case of the select that may be ready; the loop asks `isLeader` when it hears of leadership. -/
inductive Wake
  | leadership (isLeader : Bool)
  | writePressure
  | ticker
deriving DecidableEq, Repr

namespace CompactionScheduler

/-- `NewScheduler`, and `run` up to its loop. -/
def new (threshold maxRevGap : Int) (isLeader : Bool) : CompactionScheduler := ⟨threshold,maxRevGap,0,none,false,isLeader⟩

/-- `OnLeadershipGranted` and `OnLeadershipLost` take an old message out before they send theirs. -/
def onLeadership (cs : CompactionScheduler) (granted : Bool) : CompactionScheduler := { cs with leadershipC := some granted }

def onWrite (cs : CompactionScheduler) (s : KvStore) (currentRev : Int) : CompactionScheduler :=
  if currentRev - s.compactedMainRev ≥ cs.maxRevGap then { cs with writePressureC := true } else cs

/-- `tick`, with the target it proposes. -/
def tick (cs : CompactionScheduler) (s : KvStore) (force : Bool) : CompactionScheduler × Option Int :=
  let prev := cs.candidateRev
  let cs := { cs with candidateRev := s.currentRev.main }
  if cs.candidateRev < 0 then (cs,none)
  else if force = false ∧ s.currentRev.main - s.compactedMainRev < cs.threshold then (cs,none)
  else (cs,some prev)

/-- One round of the loop of `run`; a case that is not ready is not taken. -/
def wake (cs : CompactionScheduler) (s : KvStore) : Wake → CompactionScheduler × Option Int
  | .leadership isLeader =>
    match cs.leadershipC with
    | none => (cs,none)
    | some granted => ({ cs with leadershipC := none, ticking := granted && isLeader },none)
  | .writePressure =>
    if cs.writePressureC = false then (cs,none)
    else if cs.ticking then tick { cs with writePressureC := false } s true
    else ({ cs with writePressureC := false },none)
  | .ticker => if cs.ticking then cs.tick s false else (cs,none)

theorem tick_spec (cs : CompactionScheduler) (s : KvStore) (force : Bool) :
    (cs.tick s force).1.candidateRev = s.currentRev.main ∧ ∀ target ∈ (cs.tick s force).2, target = cs.candidateRev := by
  simp only [tick]
  split_ifs <;> simp

/-- A round that does not tick proposes nothing; one that does may propose the candidate of the tick before. -/
theorem wake_cases (cs : CompactionScheduler) (s : KvStore) (w : Wake) :
    (cs.wake s w).1.candidateRev = cs.candidateRev ∧ (cs.wake s w).2 = none ∨
      (cs.wake s w).1.candidateRev = s.currentRev.main ∧ ∀ target ∈ (cs.wake s w).2, target = cs.candidateRev := by
  obtain ⟨threshold,maxRevGap,candidateRev,leadershipC,writePressureC,ticking⟩ := cs
  cases w with
  | leadership isLeader => cases leadershipC <;> exact Or.inl ⟨rfl,rfl⟩
  | writePressure =>
    cases writePressureC
    · exact Or.inl ⟨rfl,rfl⟩
    · cases ticking
      · exact Or.inl ⟨rfl,rfl⟩
      · exact Or.inr (tick_spec _ s true)
  | ticker =>
    cases ticking
    · exact Or.inl ⟨rfl,rfl⟩
    · exact Or.inr (tick_spec _ s false)

end CompactionScheduler

/-- A node with the compactions its scheduler has proposed so far, which are the only ones. -/
structure CompactingNode where
  sys : Sys
  scheduler : CompactionScheduler
  proposed : List Int

/-- A proposal reaches the log at any later time, or never; `commit` is the place of one that does. The observers of writes are told
    a revision after every command. -/
inductive CompactingEvent
  | txn (ops : List Op)
  | advance (i : Nat)
  | write (currentRev : Int)
  | leadership (granted : Bool)
  | wake (w : Wake)
  | commit (i : Nat)
deriving DecidableEq, Repr

namespace CompactingNode

def new (threshold maxRevGap : Int) (isLeader : Bool) : CompactingNode := ⟨.new,.new threshold maxRevGap isLeader,[]⟩

def step (n : CompactingNode) : CompactingEvent → CompactingNode
  | .txn ops => { n with sys := n.sys.step (.txn ops) }
  | .advance i => { n with sys := n.sys.step (.advance i) }
  | .write currentRev => { n with scheduler := n.scheduler.onWrite n.sys.store currentRev }
  | .leadership granted => { n with scheduler := n.scheduler.onLeadership granted }
  | .wake w =>
    let (scheduler,target) := n.scheduler.wake n.sys.store w
    { n with scheduler := scheduler, proposed := n.proposed ++ target.toList }
  | .commit i => { n with sys := (n.proposed[i]?.map fun target => n.sys.step (.compact target)).getD n.sys }

def run (n : CompactingNode) (events : List CompactingEvent) : CompactingNode := events.foldl step n

variable {n : CompactingNode} {h : History}

/-- A compaction that the event starts meets no key that its target deleted and put again. -/
def Clean (n : CompactingNode) : CompactingEvent → Prop
  | .commit i => ∀ target ∈ n.proposed[i]?, n.sys.store.Accepts target → n.sys.store.CleanAt target
  | _ => True

instance (n : CompactingNode) (event : CompactingEvent) : Decidable (n.Clean event) := by
  cases event <;> unfold Clean KvStore.Accepts <;> infer_instance

/-- The transactions of a run. -/
def txnsOf (events : List CompactingEvent) : List (List Op) :=
  events.filterMap fun
    | .txn ops => some ops
    | _ => none

/-- The store answers the history from a proposed target on, or altogether, and nothing is proposed that came after the last tick. -/
structure Careful (h : History) (n : CompactingNode) : Prop where
  traced : ∃ top, n.sys.Traced top h ∧ (top = 0 ∨ top ∈ n.proposed)
  proposed : ∀ target ∈ n.proposed, target ≤ n.scheduler.candidateRev
  reached : n.scheduler.candidateRev ≤ h.current

theorem Careful.txn (careful : n.Careful h) (ops : List Op) : (n.step (.txn ops)).Careful (h.txn ops) := by
  obtain ⟨⟨top,traced,origin⟩,proposed,reached⟩ := careful
  exact ⟨⟨top,traced.txn ops (.refl _),origin⟩,proposed,(History.snap_txns reached [ops]).1⟩

theorem Careful.write (careful : n.Careful h) (currentRev : Int) : (n.step (.write currentRev)).Careful h := by
  have same : (n.step (.write currentRev)).scheduler.candidateRev = n.scheduler.candidateRev := by
    simp only [CompactingNode.step,CompactionScheduler.onWrite]
    split <;> rfl
  exact ⟨careful.traced,by rw [same]; exact careful.proposed,same.trans_le careful.reached⟩

theorem Careful.wake (careful : n.Careful h) (w : Wake) : (n.step (.wake w)).Careful h := by
  obtain ⟨⟨top,traced,origin⟩,proposed,reached⟩ := careful
  have current := traced.sound.refines_.current
  have later : ∀ target ∈ n.proposed ++ (n.scheduler.wake n.sys.store w).2.toList,
      target ≤ (n.scheduler.wake n.sys.store w).1.candidateRev := by
    intro target member
    rcases n.scheduler.wake_cases n.sys.store w with ⟨same,none_⟩ | ⟨now,old⟩
    · rw [none_,Option.toList_none,List.append_nil] at member
      exact (proposed target member).trans_eq same.symm
    · rw [now,current]
      rcases List.mem_append.mp member with before | new
      · exact (proposed target before).trans reached
      · exact (old target (Option.mem_toList.mp new)).trans_le reached
  refine ⟨⟨top,traced,origin.imp_right (List.mem_append_left _)⟩,later,?_⟩
  rcases n.scheduler.wake_cases n.sys.store w with ⟨same,-⟩ | ⟨now,-⟩
  · exact same.trans_le reached
  · exact now.trans_le current.le

theorem Careful.commit (careful : n.Careful h) {i : Nat} (clean : n.Clean (.commit i)) : (n.step (.commit i)).Careful h := by
  obtain ⟨⟨top,traced,origin⟩,proposed,reached⟩ := careful
  refine ⟨?_,proposed,reached⟩
  change ∃ top, ((n.proposed[i]?.map fun target => n.sys.step (.compact target)).getD n.sys).Traced top h ∧ _
  cases at_ : n.proposed[i]? with
  | none => exact ⟨top,traced,origin⟩
  | some target =>
    refine ⟨_,traced.compact (clean target at_),?_⟩
    rcases max_choice top target with old | new <;> split
    · rwa [old]
    · exact origin
    · rw [new]
      exact Or.inr (List.mem_of_getElem? at_)
    · exact origin

theorem Careful.run (careful : n.Careful h) {events : List CompactingEvent} (clean : Runs.Along step Clean n events) :
    (n.run events).Careful (h.txns (txnsOf events)) := by
  induction events generalizing n h with
  | nil => exact careful
  | cons event rest ih =>
    cases event with
    | txn ops => exact ih (careful.txn ops) clean.2
    | advance i =>
      obtain ⟨⟨top,traced,origin⟩,proposed,reached⟩ := careful
      exact ih ⟨⟨top,traced.advance i,origin⟩,proposed,reached⟩ clean.2
    | write currentRev => exact ih (careful.write currentRev) clean.2
    | leadership granted => exact ih ⟨careful.traced,careful.proposed,careful.reached⟩ clean.2
    | wake w => exact ih (careful.wake w) clean.2
    | commit i => exact ih (careful.commit clean.1) clean.2

end CompactingNode

/-- The scheduler proposes no revision newer than its last tick, and whenever its proposals are applied, a read at a revision that
    none of them exceeds is answered as if nothing had been compacted. -/
theorem scheduled_compactions_spare_reads (threshold maxRevGap : Int) (isLeader : Bool) (events : List CompactingEvent)
    (clean : Runs.Along CompactingNode.step CompactingNode.Clean (.new threshold maxRevGap isLeader) events) :
    let n := (CompactingNode.new threshold maxRevGap isLeader).run events
    (∀ target ∈ n.proposed, target ≤ n.scheduler.candidateRev) ∧ n.scheduler.candidateRev ≤ n.sys.store.currentRev.main ∧
      ∀ r key endKey limit, 0 < r → r ≤ n.sys.store.currentRev.main → (∀ target ∈ n.proposed, target ≤ r) →
        n.sys.store.range key endKey r limit =
          ((KvStore.new Backend.empty).txns (CompactingNode.txnsOf events)).range key endKey r limit := by
  intro n
  have start : (CompactingNode.new threshold maxRevGap isLeader).Careful History.empty :=
    ⟨⟨0,⟨Sys.Sound.new,KvStore.Orderly.new,le_rfl,nofun⟩,Or.inl rfl⟩,nofun,le_rfl⟩
  obtain ⟨⟨top,traced,origin⟩,proposed,reached⟩ := start.run clean
  have current := traced.sound.refines_.current
  refine ⟨proposed,reached.trans_eq current.symm,fun r key endKey limit positive past above => ?_⟩
  have low : top ≤ r := by
    rcases origin with rfl | member
    · exact positive.le
    · exact above top member
  obtain ⟨plain,never⟩ := refines_empty.txns (CompactingNode.txnsOf events)
  have same := traced.sound.refines_.range low positive past (traced.compacted.trans low) key endKey limit
  have past' : r ≤ ((KvStore.new Backend.empty).txns (CompactingNode.txnsOf events)).currentRev.main :=
    (past.trans_eq current).trans_eq plain.current.symm
  exact same.trans (plain.range positive.le positive past' (never.trans_le positive.le) key endKey limit).symm

theorem scheduled_compactions_spare_reads_at_target :
    let events := [.txn [.put [97] (some [1]) 0],.txn [.put [97] (some [2]) 0],.wake .ticker,.txn [.deleteKey [97]],.write 3,
      .wake .writePressure,.commit 1,.advance 0,.advance 0,.advance 0,.advance 0,.advance 0]
    ((CompactingNode.new 1 2 true).run events).sys.store.compactedMainRev = 2 ∧
      ((CompactingNode.new 1 2 true).run events).sys.store.range [97] none 2 0 = .ok ⟨[⟨[97],some [2],1,2,2,0⟩],1,2⟩ := by
  intro events
  have spared := scheduled_compactions_spare_reads 1 2 true events (by decide)
  exact ⟨by decide,(spared.2.2 2 [97] none 0 (by decide) (by decide) (by decide)).trans (by decide)⟩

end Kave
