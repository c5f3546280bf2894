import Mathlib.Algebra.Order.Floor.Div

/-!
# Chunks of a list

A list is cut into chunks of one size when the chunks make up the list, all but the last have that
size, and the last is not empty and not larger.  There are then as many as the length divided by
the size, rounded up.
-/

/-- `chunks` cuts `xs` into chunks of `size` elements; the last may be smaller. -/
structure Chunked {α : Type*} (size : Nat) (xs : List α) (chunks : List (List α)) : Prop where
  flatten_eq : chunks.flatten = xs
  full : ∀ chunk ∈ chunks.dropLast, chunk.length = size
  last : ∀ chunk ∈ chunks.getLast?, 1 ≤ chunk.length ∧ chunk.length ≤ size
  count : chunks.length = xs.length ⌈/⌉ size

namespace Chunked

variable {α : Type*} {size : Nat} {xs chunk : List α} {chunks : List (List α)}

theorem nil : Chunked size ([] : List α) [] where
  flatten_eq := rfl
  full _ mem := (List.not_mem_nil mem).elim
  last _ mem := by cases mem
  count := by rw [List.length_nil, List.length_nil, zero_ceilDiv]

/-- A list that is no longer than a chunk. -/
theorem single (some : 1 ≤ xs.length) (short : xs.length ≤ size) : Chunked size xs [xs] where
  flatten_eq := List.flatten_singleton
  full _ mem := (List.not_mem_nil mem).elim
  last chunk mem := by
    cases mem
    exact ⟨some, short⟩
  count := by
    rw [List.length_singleton, Nat.ceilDiv_eq_add_pred_div]
    exact (Nat.div_eq_of_lt_le (by omega) (by omega)).symm

/-- A chunk of full size in front. -/
theorem cons (cut : Chunked size xs chunks) (positive : 0 < size) (length : chunk.length = size) :
    Chunked size (chunk ++ xs) (chunk :: chunks) where
  flatten_eq := by rw [List.flatten_cons, cut.flatten_eq]
  full := by
    intro other mem
    cases chunks with
    | nil => cases mem
    | cons next chunks =>
        rw [List.dropLast_cons_cons] at mem
        rcases List.mem_cons.mp mem with rfl | later
        · exact length
        · exact cut.full other later
  last := by
    intro other mem
    cases chunks with
    | nil =>
        cases mem
        exact ⟨length ▸ positive, length.le⟩
    | cons next chunks =>
        rw [List.getLast?_cons_cons] at mem
        exact cut.last other mem
  count := by
    rw [List.length_cons, cut.count, List.length_append, length, Nat.ceilDiv_eq_add_pred_div,
      Nat.ceilDiv_eq_add_pred_div, Nat.add_assoc, Nat.add_sub_assoc (by omega) size,
      Nat.add_div_left _ positive]

theorem ne_nil_of_mem (cut : Chunked size xs chunks) (positive : 0 < size)
    (mem : chunk ∈ chunks) : chunk ≠ [] := by
  have some : 0 < chunk.length := by
    rcases List.eq_nil_or_concat chunks with rfl | ⟨front, back, rfl⟩
    · cases mem
    · rw [List.concat_eq_append] at cut mem
      rcases List.mem_append.mp mem with inFront | isBack
      · rw [cut.full chunk (by rwa [List.dropLast_concat])]
        exact positive
      · rw [List.mem_singleton.mp isBack]
        exact (cut.last back (by rw [List.getLast?_concat]; rfl)).1
  exact List.ne_nil_of_length_pos some

end Chunked
