import Mathlib.Data.Finset.Card
import Mathlib.Data.Nat.Find
import Mathlib.Order.Basic

/-!
# Walks along a pointer

A walk follows a partial successor function until it is undefined.  When every node with a
successor lies in a finite set, a walk that ends at all ends within one step more than the set has
elements (`after_eq_none_of_ends`): a longer walk has visited some node twice, and then it never
ends.  Changing the successor of one node keeps all walks finite exactly when the new successor does
not lead back to the node (`ends_update_iff`).  A walk whose steps all come closer, in some order,
visits no node twice (`eq_of_visits_of_closer`).
-/

namespace PointerWalk

variable {α : Type*} {next : α → Option α}

/-- The node after `n` steps, or `none` when the walk has ended before. -/
def after (next : α → Option α) : Nat → α → Option α
  | 0, a => some a
  | n + 1, a => (next a).bind (after next n)

theorem after_add (m n : Nat) (a : α) :
    after next (m + n) a = (after next m a).bind (after next n) := by
  induction m generalizing a with
  | zero => simp [after]
  | succ m ih =>
      rw [Nat.succ_add]
      cases edge : next a with
      | none => simp [after, edge]
      | some b => simp [after, edge, ih]

theorem after_eq_none_of_le {m n : Nat} {a : α} (le : m ≤ n) (ended : after next m a = none) :
    after next n a = none := by
  obtain ⟨k, rfl⟩ := Nat.exists_eq_add_of_le le
  rw [after_add, ended, Option.bind_none]

/-- A walk that visits a node again never ends. -/
theorem after_ne_none_of_repeat {a b : α} {i j : Nat} (lt : i < j)
    (first : after next i a = some b) (again : after next j a = some b) (n : Nat) :
    after next n a ≠ none := by
  induction n using Nat.strong_induction_on with
  | _ n ih =>
      rcases Nat.lt_or_ge n j with short | long
      · intro ended
        have := after_eq_none_of_le short.le ended
        rw [again] at this
        cases this
      · obtain ⟨k, rfl⟩ := Nat.exists_eq_add_of_le long
        have earlier : after next (j + k) a = after next (i + k) a := by
          rw [after_add, after_add, first, again]
        rw [earlier]
        exact ih (i + k) (by omega)

/-- A walk inside a finite set ends within one step more than the set has elements, or never. -/
theorem after_eq_none_of_ends {nodes : Finset α} (inside : ∀ a b, next a = some b → a ∈ nodes)
    {a : α} (ends : ∃ n, after next n a = none) : after next (nodes.card + 1) a = none := by
  by_contra unfinished
  have alive : ∀ i ∈ Finset.range (nodes.card + 1), ∃ b ∈ nodes, after next i a = some b := by
    intro i small
    have lt : i < nodes.card + 1 := Finset.mem_range.mp small
    cases here : after next i a with
    | none => exact (unfinished (after_eq_none_of_le lt.le here)).elim
    | some b =>
        refine ⟨b, ?_, rfl⟩
        cases edge : next b with
        | none =>
            have ended : after next (i + 1) a = none := by
              rw [after_add, here]
              simp [after, edge]
            exact (unfinished (after_eq_none_of_le lt ended)).elim
        | some c => exact inside b c edge
  have : Nonempty α := ⟨a⟩
  choose! node member reached using alive
  have crowded : nodes.card < (Finset.range (nodes.card + 1)).card := by simp
  obtain ⟨i, hi, j, hj, ne, same⟩ :=
    Finset.exists_ne_map_eq_of_card_lt_of_maps_to crowded (fun i hi => member i hi)
  obtain ⟨n, ended⟩ := ends
  rcases Nat.lt_or_gt_of_ne ne with lt | gt
  · exact after_ne_none_of_repeat lt (reached i hi) (same ▸ reached j hj) n ended
  · exact after_ne_none_of_repeat gt (reached j hj) (same ▸ reached i hi) n ended

/-! ## Changing one successor -/

/-- The walk from `a` ends. -/
def Ends (next : α → Option α) (a : α) : Prop := ∃ n, after next n a = none

/-- The walk from `a` comes to `b`. -/
def Reaches (next : α → Option α) (a b : α) : Prop := ∃ n, after next n a = some b

/-- A walk reaches where it starts, and what it reaches from its next node. -/
theorem reaches_iff {a b : α} :
    Reaches next a b ↔ a = b ∨ ∃ a', next a = some a' ∧ Reaches next a' b := by
  constructor
  · rintro ⟨n, arrives⟩
    cases n with
    | zero => exact .inl (Option.some.inj arrives)
    | succ n =>
        obtain ⟨a', edge, rest⟩ := Option.bind_eq_some_iff.mp arrives
        exact .inr ⟨a', edge, n, rest⟩
  · rintro (rfl | ⟨a', edge, n, arrives⟩)
    · exact ⟨0, rfl⟩
    · exact ⟨n + 1, Option.bind_eq_some_iff.mpr ⟨a', edge, arrives⟩⟩

/-- A walk that ends visits no node twice. -/
theorem Ends.eq_of_visits {a b : α} {i j : Nat} (ends : Ends next a)
    (first : after next i a = some b) (again : after next j a = some b) : i = j := by
  obtain ⟨n, ended⟩ := ends
  rcases Nat.lt_trichotomy i j with lt | same | gt
  · exact (after_ne_none_of_repeat lt first again n ended).elim
  · exact same
  · exact (after_ne_none_of_repeat gt again first n ended).elim

theorem Reaches.exists_first {a b : α} (reaches : Reaches next a b) :
    ∃ n, after next n a = some b ∧ ∀ m < n, after next m a ≠ some b := by
  classical
  exact ⟨Nat.find reaches, Nat.find_spec reaches, fun m lt => Nat.find_min reaches lt⟩

/-- A node that a walk has not come to when it ends is not reached. -/
theorem not_reaches {a b : α} {m : Nat} (ended : after next m a = none)
    (misses : ∀ i < m, after next i a ≠ some b) : ¬ Reaches next a b := by
  intro reaches
  obtain ⟨n, arrives⟩ := reaches
  rcases Nat.lt_or_ge n m with short | long
  · exact misses n short arrives
  · rw [after_eq_none_of_le long ended] at arrives
    cases arrives

/-- A walk that can always go on, to `d` or to a node closer in a well-founded order, comes to
`d`. -/
theorem reaches_of_wellFounded {closer : α → α → Prop} (wf : WellFounded closer) {P : α → Prop}
    {d : α} (goesOn : ∀ a, P a → a ≠ d → ∃ b, next a = some b ∧ P b ∧ (b ≠ d → closer b a)) {a : α}
    (start : P a) : Reaches next a d := by
  induction a using wf.induction with
  | _ a ih =>
      by_cases arrived : a = d
      · exact reaches_iff.mpr (.inl arrived)
      · obtain ⟨b, edge, here, nearer⟩ := goesOn a start arrived
        refine reaches_iff.mpr (.inr ⟨b, edge, ?_⟩)
        by_cases last : b = d
        · exact reaches_iff.mpr (.inl last)
        · exact ih b (nearer last) here

variable {next' : α → Option α}

/-- Walks agree as long as the successors of what they visit do. -/
theorem after_congr {n : Nat} {a : α}
    (agree : ∀ m < n, ∀ b, after next m a = some b → next' b = next b) :
    after next' n a = after next n a := by
  induction n generalizing a with
  | zero => rfl
  | succ n ih =>
      have here : next' a = next a := agree 0 (Nat.succ_pos n) a rfl
      simp only [after, here]
      cases edge : next a with
      | none => rfl
      | some b =>
          refine ih fun m lt c visits => agree (m + 1) (Nat.succ_lt_succ lt) c ?_
          simpa only [after, edge, Option.bind_some] using visits

section Update

variable {k : α} (off : ∀ a, a ≠ k → next' a = next a)

include off

theorem after_update {a : α} {n : Nat} (avoids : ∀ m < n, after next m a ≠ some k) :
    after next' n a = after next n a := by
  refine after_congr fun m lt b visits => off b ?_
  rintro rfl
  exact avoids m lt visits

/-- A walk that comes to the changed node still does. -/
theorem Reaches.update {a : α} (reaches : Reaches next a k) : Reaches next' a k := by
  obtain ⟨n, arrives, before⟩ := reaches.exists_first
  exact ⟨n, (after_update off before).trans arrives⟩

theorem ends_update_of_avoids {a : α} (ends : Ends next a) (avoids : ¬ Reaches next a k) :
    Ends next' a := by
  obtain ⟨n, ended⟩ := ends
  exact ⟨n, (after_update off fun m _ visits => avoids ⟨m, visits⟩).trans ended⟩

/-- The walk from the changed node ends exactly when its new successor does not lead back to it. -/
theorem ends_update_self_iff (ends : ∀ a, Ends next a) :
    Ends next' k ↔ ∀ p, next' k = some p → ¬ Reaches next p k := by
  constructor
  · intro finite p edge back
    obtain ⟨n, arrives⟩ := back.update off
    have again : after next' (n + 1) k = some k := by
      simpa only [after, edge, Option.bind_some] using arrives
    have same : 0 = n + 1 := finite.eq_of_visits rfl again
    cases same
  · intro away
    cases edge : next' k with
    | none => exact ⟨1, by simp only [after, edge, Option.bind_none]⟩
    | some p =>
        obtain ⟨n, ended⟩ := ends_update_of_avoids off (ends p) (away p edge)
        exact ⟨n + 1, by simpa only [after, edge, Option.bind_some] using ended⟩

/-- All walks end after the change exactly when the new successor does not lead back. -/
theorem ends_update_iff (ends : ∀ a, Ends next a) :
    (∀ a, Ends next' a) ↔ ∀ p, next' k = some p → ¬ Reaches next p k := by
  rw [← ends_update_self_iff off ends]
  constructor
  · intro finite
    exact finite k
  · intro here a
    by_cases meets : Reaches next a k
    · obtain ⟨n, arrives⟩ := meets.update off
      obtain ⟨m, ended⟩ := here
      refine ⟨n + m, ?_⟩
      rw [after_add, arrives, Option.bind_some, ended]
    · exact ends_update_of_avoids off (ends a) meets

end Update

/-! ## Walks that come closer -/

section Closer

variable {closer : α → α → Prop} (trans : ∀ a b c, closer c b → closer b a → closer c a)
  (edges : ∀ a b, next a = some b → closer b a)

include trans edges

theorem closer_of_after {n : Nat} {a b : α} (arrives : after next (n + 1) a = some b) :
    closer b a := by
  induction n generalizing a with
  | zero =>
      obtain ⟨c, edge, here⟩ := Option.bind_eq_some_iff.mp arrives
      rw [← Option.some.inj here]
      exact edges a c edge
  | succ n ih =>
      obtain ⟨c, edge, rest⟩ := Option.bind_eq_some_iff.mp arrives
      exact trans a c b (ih rest) (edges a c edge)

/-- When every step comes closer, in some order, no node is visited twice. -/
theorem eq_of_visits_of_closer (irrefl : ∀ a, ¬ closer a a) {a b : α} {i j : Nat}
    (first : after next i a = some b) (again : after next j a = some b) : i = j := by
  have apart : ∀ i j, after next i a = some b → after next j a = some b → ¬ i < j := by
    intro i j first again lt
    obtain ⟨k, rfl⟩ := Nat.exists_eq_add_of_lt lt
    rw [Nat.add_assoc, after_add, first, Option.bind_some] at again
    exact irrefl b (closer_of_after trans edges again)
  have notBefore := apart i j first again
  have notAfter := apart j i again first
  omega

end Closer

end PointerWalk
