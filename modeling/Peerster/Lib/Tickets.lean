import Mathlib.Data.Fintype.Card
import Mathlib.Order.Interval.Finset.Nat

/-!
# Tickets

Holders draw consecutive numbers.  `Tickets start next held` says that the numbers held so far are
exactly those from `start` up to `next`, each held by one holder.
-/

/-- The numbers held are those from `start` up to `next`, each with one holder. -/
structure Tickets {ι : Type*} (start next : Nat) (held : ι → Option Nat) : Prop where
  unique : ∀ {i j k}, held i = some k → held j = some k → i = j
  filled : ∀ k, (∃ i, held i = some k) ↔ start ≤ k ∧ k < next
  le : start ≤ next

namespace Tickets

variable {ι : Type*} {start next : Nat} {held : ι → Option Nat}

/-- Nobody holds a number yet. -/
theorem none_held (start : Nat) : Tickets start start fun _ : ι => none where
  unique held := by cases held
  filled k := by
    constructor
    · intro ⟨_, held⟩
      cases held
    · omega
  le := le_rfl

/-- A number that is held was drawn. -/
theorem bounds (tickets : Tickets start next held) {i : ι} {k : Nat} (holds : held i = some k) :
    start ≤ k ∧ k < next :=
  (tickets.filled k).mp ⟨i, holds⟩

/-- A holder without a number draws the next one. -/
theorem draw [DecidableEq ι] (tickets : Tickets start next held) {i : ι} (free : held i = none) :
    Tickets start (next + 1) (Function.update held i (some next)) where
  unique {a b k} holdsA holdsB := by
    rw [Function.update_apply] at holdsA holdsB
    split at holdsA <;> split at holdsB
    · next here here' => rw [here, here']
    · cases holdsA
      have old := tickets.bounds holdsB
      omega
    · cases holdsB
      have old := tickets.bounds holdsA
      omega
    · exact tickets.unique holdsA holdsB
  filled k := by
    have le := tickets.le
    refine ⟨fun ⟨a, holds⟩ => ?_, fun drawn => ?_⟩
    · rw [Function.update_apply] at holds
      split at holds
      · cases holds
        omega
      · have old := tickets.bounds holds
        omega
    · rcases Nat.lt_or_eq_of_le (Nat.le_of_lt_succ drawn.2) with old | rfl
      · obtain ⟨a, holds⟩ := (tickets.filled k).mpr ⟨drawn.1, old⟩
        refine ⟨a, ?_⟩
        have other : a ≠ i := by
          intro same
          rw [same, free] at holds
          cases holds
        rw [Function.update_of_ne other, holds]
      · exact ⟨i, Function.update_self i _ held⟩
  le := tickets.le.trans (Nat.le_succ next)

/-- Once everyone holds a number, as many numbers are drawn as there are holders. -/
theorem next_eq [Fintype ι] (tickets : Tickets start next held) {number : ι → Nat}
    (all : ∀ i, held i = some (number i)) : next = start + Fintype.card ι := by
  have injective : Function.Injective number := by
    intro a b same
    refine tickets.unique (all a) ?_
    rw [all b, same]
  have image : Finset.univ.image number = Finset.Ico start next := by
    ext k
    rw [Finset.mem_Ico, ← tickets.filled k]
    simp [all]
  have card : Fintype.card ι = next - start := by
    rw [← Nat.card_Ico, ← image, Finset.card_image_of_injective _ injective, Finset.card_univ]
  have le := tickets.le
  omega

end Tickets
