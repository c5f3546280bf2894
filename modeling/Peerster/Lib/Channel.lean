import Mathlib.Data.List.Basic

/-!
# Buffered channels

A channel with a buffer of fixed capacity, as of Go.  A send on a closed channel panics, and one on
a full channel waits.  A send that must not wait (`offer`) drops its message when the channel is
full: of the messages offered the first that fit are kept.
-/

universe u

/-- A channel. -/
structure Channel (α : Type u) where
  capacity : Nat
  buffer : List α
  closed : Bool

namespace Channel

variable {α : Type u}

/-- A new channel. -/
def make (capacity : Nat) : Channel α := ⟨capacity, [], false⟩

/-- The channel closed. -/
def close (c : Channel α) : Channel α := { c with closed := true }

/-- What comes of a send. -/
inductive Sending (α : Type u) : Type u
  | sends (c : Channel α)
  | waits
  | panics

/-- Send a message. -/
def send (c : Channel α) (x : α) : Sending α :=
  if c.closed then .panics
  else if c.buffer.length < c.capacity then .sends { c with buffer := c.buffer ++ [x] }
  else .waits

/-- A channel panics on a send when it is closed, and only then. -/
theorem send_eq_panics {c : Channel α} {x : α} : c.send x = .panics ↔ c.closed = true := by
  unfold send
  split
  · next closed => exact ⟨fun _ => closed, fun _ => rfl⟩
  · next opened =>
    refine ⟨fun panics => ?_, fun closed => (opened closed).elim⟩
    split at panics <;> cases panics

theorem send_eq_sends {c c' : Channel α} {x : α} (sent : c.send x = .sends c') :
    c.closed = false ∧ c' = { c with buffer := c.buffer ++ [x] } := by
  unfold send at sent
  split at sent
  · cases sent
  · next opened =>
    split at sent
    · exact ⟨Bool.eq_false_iff.mpr opened, (Sending.sends.inj sent).symm⟩
    · cases sent

/-- A channel that is open and empty takes a message. -/
theorem send_empty {c : Channel α} (opened : c.closed = false) (empty : c.buffer = [])
    (capacity : 0 < c.capacity) (x : α) : c.send x = .sends { c with buffer := [x] } := by
  unfold send
  rw [opened, empty, if_neg Bool.false_ne_true, List.length_nil, if_pos capacity]
  rfl

/-! ## Sends that do not wait -/

/-- Put a message into the buffer of an open channel if there is room. -/
def offer (c : Channel α) (x : α) : Channel α :=
  if c.buffer.length < c.capacity then { c with buffer := c.buffer ++ [x] } else c

@[simp] theorem offer_capacity (c : Channel α) (x : α) : (c.offer x).capacity = c.capacity := by
  unfold offer
  split <;> rfl

/-- Of the messages offered to an empty channel it keeps the first that fit. -/
theorem offer_buffer {c : Channel α} {xs : List α} (kept : c.buffer = xs.take c.capacity) (x : α) :
    (c.offer x).buffer = (xs ++ [x]).take c.capacity := by
  unfold offer
  rw [kept, List.length_take]
  split
  · next room =>
    have few : xs.length < c.capacity := by omega
    rw [List.take_of_length_le (Nat.le_of_lt few), List.take_of_length_le]
    rw [List.length_append, List.length_singleton]
    omega
  · next full =>
    rw [kept, List.take_append_of_le_length]
    omega

theorem foldl_offer_capacity (c : Channel α) (ys : List α) :
    (ys.foldl offer c).capacity = c.capacity := by
  induction ys generalizing c with
  | nil => rfl
  | cons y ys ih => rw [List.foldl_cons, ih, offer_capacity]

theorem foldl_offer_buffer {c : Channel α} {xs : List α} (kept : c.buffer = xs.take c.capacity)
    (ys : List α) : (ys.foldl offer c).buffer = (xs ++ ys).take c.capacity := by
  induction ys generalizing c xs with
  | nil => rw [List.foldl_nil, List.append_nil, kept]
  | cons y ys ih =>
      have first := offer_buffer kept y
      rw [← offer_capacity c y] at first
      rw [List.foldl_cons, ih first, offer_capacity, List.append_assoc, List.singleton_append]

/-- What is in the buffer stays there. -/
theorem buffer_subset_foldl_offer (c : Channel α) (ys : List α) :
    c.buffer ⊆ (ys.foldl offer c).buffer := by
  induction ys generalizing c with
  | nil => exact fun _ mem => mem
  | cons y ys ih =>
      intro x mem
      apply ih (c.offer y)
      unfold offer
      split
      · exact List.mem_append_left _ mem
      · exact mem

end Channel
