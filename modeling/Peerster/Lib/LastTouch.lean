import Mathlib.Data.List.Basic

/-!
# The last operation on a key

An operation on a map acts on each key separately: it leaves the entry of the key alone (`none`)
or replaces it (`some entry`, where the new entry may be no entry).  `lastTouch` is what a list
of operations does to a key, and `lastTouch_eq_some` says which operation did it.
-/

namespace LastTouch

variable {α K V : Type*} {effect : α → K → Option (Option V)}

/-- What a list of operations makes of a key: the effect of the last one that touches it. -/
def lastTouch (effect : α → K → Option (Option V)) : List α → K → Option (Option V)
  | [], _ => none
  | op :: ops, k => (lastTouch effect ops k).or (effect op k)

@[simp] theorem lastTouch_nil (k : K) : lastTouch effect [] k = none := rfl

@[simp] theorem lastTouch_cons (op : α) (ops : List α) (k : K) :
    lastTouch effect (op :: ops) k = (lastTouch effect ops k).or (effect op k) := rfl

theorem lastTouch_append (ops ops' : List α) (k : K) :
    lastTouch effect (ops ++ ops') k =
      (lastTouch effect ops' k).or (lastTouch effect ops k) := by
  induction ops with
  | nil => simp
  | cons op ops ih => simp only [List.cons_append, lastTouch_cons, ih, Option.or_assoc]

theorem lastTouch_eq_none {ops : List α} {k : K} :
    lastTouch effect ops k = none ↔ ∀ op ∈ ops, effect op k = none := by
  induction ops with
  | nil => simp
  | cons op ops ih => simp [Option.or_eq_none_iff, ih, and_comm]

/-- The last touch is one operation's effect, and no later operation touches the key. -/
theorem lastTouch_eq_some {ops : List α} {k : K} {entry : Option V} :
    lastTouch effect ops k = some entry ↔
      ∃ before op after, ops = before ++ op :: after ∧ effect op k = some entry ∧
        ∀ later ∈ after, effect later k = none := by
  constructor
  · induction ops with
    | nil => intro touched; cases touched
    | cons op ops ih =>
        intro touched
        cases rest : lastTouch effect ops k with
        | none =>
            rw [lastTouch_cons, rest, Option.none_or] at touched
            exact ⟨[], op, ops, rfl, touched, lastTouch_eq_none.mp rest⟩
        | some entry' =>
            rw [lastTouch_cons, rest, Option.some_or] at touched
            obtain ⟨before, op', after, split, effective, untouched⟩ := ih (rest.trans touched)
            exact ⟨op :: before, op', after, by rw [split]; rfl, effective, untouched⟩
  · intro last
    rcases last with ⟨before, op, after, rfl, effective, untouched⟩
    rw [lastTouch_append, lastTouch_cons, lastTouch_eq_none.mpr untouched, effective]
    rfl

/-- There is one last operation on a key. -/
theorem lastTouch_op_unique {before before' after after' : List α} {op op' : α} {k : K}
    (same : before ++ op :: after = before' ++ op' :: after')
    (touches : effect op k ≠ none) (touches' : effect op' k ≠ none)
    (untouched : ∀ later ∈ after, effect later k = none)
    (untouched' : ∀ later ∈ after', effect later k = none) : op = op' := by
  rcases List.append_eq_append_iff.mp same with ⟨gap, -, rest⟩ | ⟨gap, -, rest⟩
  · cases gap with
    | nil => exact (List.cons.inj rest).1
    | cons first gap =>
        obtain ⟨-, rest⟩ := List.cons.inj rest
        exact (touches' (untouched op' (by simp [rest]))).elim
  · cases gap with
    | nil => exact (List.cons.inj rest).1.symm
    | cons first gap =>
        obtain ⟨-, rest⟩ := List.cons.inj rest
        exact (touches (untouched' op (by simp [rest]))).elim

end LastTouch
