import Mathlib.Data.List.Basic

/-!
# Insertion into a slice

How a slice is grown in place: an element is appended to make room, the elements from an index on
are copied one place up, over themselves, and the new element is assigned to the index.  The result
is the list with the element in between (`insertShifted_eq`).
-/

namespace Slices

variable {α : Type*}

/-- `copy(xs[dst:], xs[src:])`: as many elements as both have.  The ranges may overlap, because the
elements are those from before the copy. -/
def copyWithin (xs : List α) (dst src : Nat) : List α :=
  let n := min (xs.length - dst) (xs.length - src)
  xs.take dst ++ ((xs.drop src).take n ++ xs.drop (dst + n))

/-- Appends an element, copies what is from the index on one place up, and assigns to the index. -/
def insertShifted (blank : α) (xs : List α) (index : Nat) (x : α) : List α :=
  (copyWithin (xs ++ [blank]) (index + 1) index).set index x

variable {xs : List α} {index : Nat}

/-- One place up, all but the appended element are copied. -/
theorem copyWithin_append (le : index ≤ xs.length) (blank : α) :
    copyWithin (xs ++ [blank]) (index + 1) index =
      (xs ++ [blank]).take (index + 1) ++ xs.drop index := by
  have length : (xs ++ [blank]).length = xs.length + 1 := List.length_append
  have moved : min (xs.length + 1 - (index + 1)) (xs.length + 1 - index) =
      (xs.drop index).length := by
    rw [List.length_drop]
    omega
  have past : (xs ++ [blank]).drop (index + 1 + (xs.drop index).length) = [] := by
    rw [List.drop_eq_nil_iff, length, List.length_drop]
    omega
  unfold copyWithin
  dsimp only
  rw [length, moved, past, List.append_nil, List.drop_append_of_le_length le, List.take_left]

theorem insertShifted_eq (le : index ≤ xs.length) (blank x : α) :
    insertShifted blank xs index x = xs.take index ++ x :: xs.drop index := by
  have front : ((xs ++ [blank]).take (index + 1)).length = index + 1 := by
    rw [List.length_take_of_le]
    rw [List.length_append]
    exact Nat.succ_le_succ le
  unfold insertShifted
  rw [copyWithin_append le, List.set_eq_take_append_cons_drop, if_pos (by
      rw [List.length_append, front]
      omega),
    List.drop_left' front, List.take_append_of_le_length (by omega), List.take_take,
    Nat.min_eq_left (Nat.le_succ index), List.take_append_of_le_length le]

end Slices
