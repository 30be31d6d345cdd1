import Kave.SortedMap

/-! Buffered channels. A channel keeps everything ever sent, so that what was delivered can be spoken about after it has been
    received. -/

/-- A channel with a buffer for `capacity` values: all values sent, of which the first `received` have been taken out. -/
structure Chan (α : Type*) where
  capacity : Nat
  sent : List α
  received : Nat
  closed : Bool
  taken : received ≤ sent.length
  fits : sent.length ≤ received + capacity

/-- Why a value cannot be sent at once. -/
inductive ChanError
  | full
  /-- Sending on a closed channel panics. -/
  | closed
deriving DecidableEq, Repr

namespace Chan

variable {α : Type*}

def new (capacity : Nat) : Chan α := ⟨capacity,[],0,false,le_rfl,Nat.zero_le _⟩

/-- How many values the buffer has room for. -/
def free (c : Chan α) : Nat := c.received + c.capacity - c.sent.length

def send (c : Chan α) (a : α) : Except ChanError (Chan α) :=
  if c.closed then .error .closed
  else if room : c.sent.length < c.received + c.capacity then
    .ok ⟨c.capacity,c.sent ++ [a],c.received,c.closed,by have := c.taken; simp; omega,by simp; omega⟩
  else .error .full

/-- The oldest value in the buffer, if there is one. -/
def receive (c : Chan α) : Chan α × Option α :=
  if more : c.received < c.sent.length then
    (⟨c.capacity,c.sent,c.received + 1,c.closed,more,by have := c.fits; omega⟩,c.sent[c.received]?)
  else (c,none)

def close (c : Chan α) : Chan α := ⟨c.capacity,c.sent,c.received,true,c.taken,c.fits⟩

@[simp] theorem sent_receive (c : Chan α) : c.receive.1.sent = c.sent := by
  rw [receive]
  split <;> rfl

@[simp] theorem closed_receive (c : Chan α) : c.receive.1.closed = c.closed := by
  rw [receive]
  split <;> rfl

@[simp] theorem capacity_receive (c : Chan α) : c.receive.1.capacity = c.capacity := by
  rw [receive]
  split <;> rfl

/-- It is closed, and all values have been taken out. -/
def Drained (c : Chan α) : Prop := c.closed = true ∧ c.received = c.sent.length

instance (c : Chan α) : Decidable c.Drained := inferInstanceAs (Decidable (_ ∧ _))

theorem Drained.receive {c : Chan α} (drained : c.Drained) : c.receive = (c,none) := by
  rw [Chan.receive,dif_neg (by rw [drained.2]; exact lt_irrefl _)]

/-- A value that is sent comes last, and the channel is as it was otherwise. -/
structure Sent (c : Chan α) (a : α) (c' : Chan α) : Prop where
  sent : c'.sent = c.sent ++ [a]
  closed : c'.closed = c.closed
  capacity : c'.capacity = c.capacity
  free : c'.free + 1 = c.free

/-- A send finds the channel closed or full, or queues the value. -/
theorem send_cases (c : Chan α) (a : α) :
    c.closed = true ∧ c.send a = .error .closed ∨
    c.closed = false ∧ c.free = 0 ∧ c.send a = .error .full ∨
    c.closed = false ∧ 0 < c.free ∧ ∃ c', c.send a = .ok c' ∧ c.Sent a c' := by
  rw [send]
  by_cases closed : c.closed = true
  · exact Or.inl ⟨closed,if_pos closed⟩
  · have opened : c.closed = false := Bool.eq_false_iff.mpr closed
    rw [if_neg closed]
    by_cases room : c.sent.length < c.received + c.capacity
    · refine Or.inr (Or.inr ⟨opened,by rw [free]; omega,_,dif_pos room,rfl,rfl,rfl,?_⟩)
      simp only [free,List.length_append,List.length_singleton]
      omega
    · exact Or.inr (Or.inl ⟨opened,by rw [free]; omega,dif_neg room⟩)

end Chan
