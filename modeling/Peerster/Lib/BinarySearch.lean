import Mathlib.Data.List.Basic

/-!
# Binary search

`search n f` is the loop of Go's `sort.Search`: it halves the interval `[0, n)` by testing `f`.
When `f` is monotone on the interval the result separates the indices where `f` fails from those
where it holds (`search_spec`).
-/

namespace BinarySearch

/-- The loop over the interval from `i` to `j`. -/
def loop (f : Nat → Bool) : Nat → Nat → Nat → Nat
  | 0, i, _ => i
  | fuel + 1, i, j =>
      if i < j then
        if f ((i + j) / 2) then loop f fuel i ((i + j) / 2) else loop f fuel ((i + j) / 2 + 1) j
      else i

/-- The smallest index below `n` at which `f` holds, or `n`, for monotone `f`. -/
def search (n : Nat) (f : Nat → Bool) : Nat := loop f n 0 n

theorem loop_spec {f : Nat → Bool} {n fuel i j : Nat}
    (mono : ∀ a b, a ≤ b → b < n → f a = true → f b = true) (ordered : i ≤ j) (inside : j ≤ n)
    (enough : j - i ≤ fuel) (low : ∀ a, a < i → f a = false)
    (high : ∀ a, j ≤ a → a < n → f a = true) :
    (∀ a, a < loop f fuel i j → f a = false) ∧
      ∀ a, loop f fuel i j ≤ a → a < n → f a = true := by
  induction fuel generalizing i j with
  | zero =>
      have met : i = j := by omega
      exact ⟨low, fun a above => high a (met ▸ above)⟩
  | succ fuel ih =>
      unfold loop
      split
      · next apart =>
        cases middle : f ((i + j) / 2) with
        | true =>
            rw [if_pos rfl]
            refine ih (by omega) (by omega) (by omega) low ?_
            intro a above below
            exact mono _ a above below middle
        | false =>
            rw [if_neg (by simp)]
            refine ih (by omega) inside (by omega) ?_ high
            intro a below
            cases fails : f a with
            | false => rfl
            | true =>
                have holds := mono a ((i + j) / 2) (by omega) (by omega) fails
                rw [middle] at holds
                cases holds
      · next met =>
        have met : i = j := by omega
        exact ⟨low, fun a above => high a (met ▸ above)⟩

theorem loop_le (f : Nat → Bool) {fuel i j : Nat} (ordered : i ≤ j) : loop f fuel i j ≤ j := by
  induction fuel generalizing i j with
  | zero => exact ordered
  | succ fuel ih =>
      unfold loop
      split
      · split
        · exact Nat.le_trans (ih (by omega)) (by omega)
        · exact ih (by omega)
      · exact ordered

/-- The result is an index, or the length. -/
theorem search_le (n : Nat) (f : Nat → Bool) : search n f ≤ n := loop_le f (Nat.zero_le n)

/-- Below the result the test fails, from the result on it holds. -/
theorem search_spec {f : Nat → Bool} {n : Nat}
    (mono : ∀ a b, a ≤ b → b < n → f a = true → f b = true) :
    (∀ a, a < search n f → f a = false) ∧ ∀ a, search n f ≤ a → a < n → f a = true :=
  loop_spec mono (Nat.zero_le n) (Nat.le_refl n) (by omega) (by omega) (by omega)

end BinarySearch
