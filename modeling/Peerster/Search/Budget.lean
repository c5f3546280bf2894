import Mathlib.Algebra.Order.BigOperators.Group.List
import Mathlib.Algebra.Order.Group.Nat
import Peerster.Search.Handlers

/-!
# The shares of a budget

`divideBudget` of `peer/impl/data_sharing.go` on `uint64`s and with every index checked, as the
source has it.  It never panics and does what `Search.divideBudget` does, whose shares are natural
numbers (`Words.divideBudget_refines`), and the shares are fair (`Words.divideBudget_fair`).
-/

namespace Peerster.Search

/-! ## Fair shares -/

/-- Adding one at each of some different indices adds one at these and leaves the others alone. -/
theorem getElem?_foldl_modify {indices : List Nat} (distinct : indices.Nodup) (budgets : List Nat)
    (j : Nat) :
    (indices.foldl (fun budgets index => budgets.modify index (· + 1)) budgets)[j]? =
      budgets[j]?.map (· + if j ∈ indices then 1 else 0) := by
  induction indices generalizing budgets with
  | nil => simp
  | cons index indices ih =>
      obtain ⟨new, distinct⟩ := List.nodup_cons.mp distinct
      rw [List.foldl_cons, ih distinct]
      by_cases here : index = j
      · subst here
        rw [List.getElem?_modify_eq, if_neg new, if_pos List.mem_cons_self]
        cases budgets[index]? <;> rfl
      · rw [List.getElem?_modify_ne _ _ here]
        simp only [List.mem_cons, Ne.symm here, false_or]

/-- A share is the quotient of the budget, or one more. -/
theorem of_mem_divideBudget {random : Randomness} {totalBudget numNeighbors budget : Nat}
    (mem : budget ∈ divideBudget random totalBudget numNeighbors) :
    totalBudget / numNeighbors ≤ budget ∧ budget ≤ totalBudget / numNeighbors + 1 := by
  obtain ⟨j, found⟩ := List.mem_iff_getElem?.mp mem
  unfold divideBudget at found
  split at found
  · next nothing =>
    have quotient : totalBudget / numNeighbors = 0 := by
      rcases nothing with zero | none
      · rw [zero, Nat.zero_div]
      · rw [none, Nat.div_zero]
    have share := List.eq_of_mem_replicate (List.mem_of_getElem? found)
    omega
  · have distinct := (random.isPerm numNeighbors).nodup_iff.mpr List.nodup_range
    rw [getElem?_foldl_modify (distinct.sublist (List.take_sublist _ _)),
      Option.map_eq_some_iff] at found
    obtain ⟨base, found, rfl⟩ := found
    have quotient := List.eq_of_mem_replicate (List.mem_of_getElem? found)
    split <;> omega

/-! ## Machine words -/

namespace Words

/-- The text of the panic of an index expression. -/
def outOfRange (index length : Nat) : GoString :=
  str "runtime error: index out of range [" ++ itoa index ++ str "] with length " ++ itoa length

/-- `budgets[index]++`. -/
def increment (budgets : List UInt64) (index : Nat) : Except GoString (List UInt64) :=
  match budgets[index]? with
  | none => .error (outOfRange index budgets.length)
  | some budget => .ok (budgets.set index (budget + 1))

/-- The rounds of the last loop of `divideBudget` that are left, from round `i` on. -/
def spreadExtra (indices : List Nat) : Nat → Nat → List UInt64 → Except GoString (List UInt64)
  | 0, _, budgets => .ok budgets
  | left + 1, i, budgets =>
      match indices[i]? with
      | none => .error (outOfRange i indices.length)
      | some index =>
          match increment budgets index with
          | .error panicked => .error panicked
          | .ok budgets => spreadExtra indices left (i + 1) budgets

/-- `divideBudget`; an error is the text of a panic.  Memory is not limited here. -/
def divideBudget (random : Randomness) (totalBudget numNeighbors : UInt64) :
    Except GoString (List UInt64) :=
  let budgets := List.replicate numNeighbors.toNat 0
  if totalBudget = 0 ∨ numNeighbors = 0 then .ok budgets
  else
    let baseBudget := totalBudget / numNeighbors
    let extraBudget := totalBudget % numNeighbors
    let budgets := budgets.map fun _ => baseBudget
    let indices := random.perm numNeighbors.toNat
    spreadExtra indices extraBudget.toNat 0 budgets

/-- The shares as natural numbers. -/
abbrev amounts (budgets : List UInt64) : List Nat := budgets.map UInt64.toNat

/-- An increment at an index in range, of shares whose sum leaves room for it. -/
theorem increment_ok {budgets : List UInt64} {index : Nat} (inside : index < budgets.length)
    (room : (amounts budgets).sum + 1 < 2 ^ 64) :
    ∃ budgets', increment budgets index = .ok budgets' ∧
      amounts budgets' = (amounts budgets).modify index (· + 1) := by
  refine ⟨_, by rw [increment, List.getElem?_eq_getElem inside], ?_⟩
  have part : budgets[index].toNat ≤ (amounts budgets).sum :=
    List.le_sum_of_mem (List.mem_map_of_mem (List.getElem_mem inside))
  have exact : (budgets[index] + 1).toNat = budgets[index].toNat + 1 := by
    rw [UInt64.toNat_add, UInt64.toNat_one, Nat.mod_eq_of_lt (by omega)]
  rw [amounts, List.map_set, exact, List.modify_eq_set, List.getElem?_map,
    List.getElem?_eq_getElem inside]
  rfl

/-- The loop adds one at each index that is left to it. -/
theorem spreadExtra_ok {indices : List Nat} {left i : Nat} {budgets : List UInt64}
    (inside : ∀ index ∈ indices, index < budgets.length) (enough : i + left ≤ indices.length)
    (room : (amounts budgets).sum + left < 2 ^ 64) :
    ∃ budgets', spreadExtra indices left i budgets = .ok budgets' ∧
      amounts budgets' = ((indices.drop i).take left).foldl
        (fun budgets index => budgets.modify index (· + 1)) (amounts budgets) := by
  induction left generalizing i budgets with
  | zero => exact ⟨budgets, rfl, rfl⟩
  | succ left ih =>
      have here : i < indices.length := by omega
      have target := inside _ (List.getElem_mem here)
      obtain ⟨next, incremented, amount⟩ := increment_ok target (by omega)
      have length : next.length = budgets.length := by
        have lengths := congrArg List.length amount
        rwa [List.length_map, List.length_modify, List.length_map] at lengths
      have sum : (amounts next).sum = (amounts budgets).sum + 1 := by
        rw [amount, sum_modify_succ (by rwa [List.length_map])]
      have inside' : ∀ index ∈ indices, index < next.length := fun index mem =>
        length ▸ inside index mem
      obtain ⟨budgets', spread, rest⟩ := ih inside' (by omega : i + 1 + left ≤ _) (by omega)
      refine ⟨budgets', ?_, ?_⟩
      · rw [spreadExtra, List.getElem?_eq_getElem here]
        simp only [incremented, spread]
      · rw [rest, amount, List.drop_eq_getElem_cons here, List.take_succ_cons, List.foldl_cons]

/-- `divideBudget` does not panic, and its shares are the shares that natural numbers give. -/
theorem divideBudget_refines (random : Randomness) (totalBudget numNeighbors : UInt64) :
    ∃ budgets, divideBudget random totalBudget numNeighbors = .ok budgets ∧
      amounts budgets =
        Search.divideBudget random totalBudget.toNat numNeighbors.toNat := by
  have zero (n : UInt64) : n = 0 ↔ n.toNat = 0 := UInt64.toNat_inj.symm
  unfold divideBudget Search.divideBudget
  by_cases nothing : totalBudget = 0 ∨ numNeighbors = 0
  · refine ⟨_, if_pos nothing, ?_⟩
    rw [zero, zero] at nothing
    rw [if_pos nothing, amounts, List.map_replicate]
    rfl
  · rw [if_neg nothing]
    rw [zero, zero, not_or] at nothing
    have perm := random.isPerm numNeighbors.toNat
    have extra := Nat.mod_lt totalBudget.toNat (Nat.pos_of_ne_zero nothing.2)
    have whole := Nat.div_add_mod totalBudget.toNat numNeighbors.toNat
    have width := totalBudget.toNat_lt
    -- the shares before the last loop
    have base : amounts ((List.replicate numNeighbors.toNat (0 : UInt64)).map
        fun _ => totalBudget / numNeighbors) =
          List.replicate numNeighbors.toNat (totalBudget.toNat / numNeighbors.toNat) := by
      rw [amounts, List.map_replicate, List.map_replicate, UInt64.toNat_div]
    have inside : ∀ index ∈ random.perm numNeighbors.toNat,
        index < ((List.replicate numNeighbors.toNat (0 : UInt64)).map
          fun _ => totalBudget / numNeighbors).length := by
      intro index mem
      rw [List.length_map, List.length_replicate]
      exact List.mem_range.mp (perm.mem_iff.mp mem)
    have enough : 0 + (totalBudget % numNeighbors).toNat ≤
        (random.perm numNeighbors.toNat).length := by
      rw [perm.length_eq, List.length_range, UInt64.toNat_mod]
      omega
    obtain ⟨budgets, spread, shares⟩ := spreadExtra_ok inside enough (by
      rw [base, List.sum_replicate_nat, UInt64.toNat_mod]
      omega)
    refine ⟨budgets, spread, ?_⟩
    rw [shares, base, if_neg (not_or.mpr nothing), List.drop_zero, UInt64.toNat_mod]

/-- **Fair shares.**  Whatever permutation `rand.Perm` returns, `divideBudget` returns without a
panic, with a share for every neighbor; the shares add up to the budget, and no two differ by more
than one. -/
theorem divideBudget_fair (random : Randomness) (totalBudget numNeighbors : UInt64)
    (some : 1 ≤ numNeighbors.toNat) :
    ∃ budgets, divideBudget random totalBudget numNeighbors = .ok budgets ∧
      budgets.length = numNeighbors.toNat ∧
      (amounts budgets).sum = totalBudget.toNat ∧
      ∀ a ∈ budgets, ∀ b ∈ budgets, a.toNat ≤ b.toNat + 1 := by
  obtain ⟨budgets, divided, shares⟩ := divideBudget_refines random totalBudget numNeighbors
  refine ⟨budgets, divided, ?_, ?_, fun a memA b memB => ?_⟩
  · have length := congrArg List.length shares
    rwa [List.length_map, length_divideBudget] at length
  · rw [shares]
    exact sum_divideBudget random totalBudget.toNat (by omega)
  · have share {c : UInt64} (mem : c ∈ budgets) :
        c.toNat ∈ Search.divideBudget random totalBudget.toNat numNeighbors.toNat :=
      shares ▸ List.mem_map_of_mem mem
    have upper := (of_mem_divideBudget (share memA)).2
    have lower := (of_mem_divideBudget (share memB)).1
    omega

theorem fair_seven_by_three :
    ∃ budgets, divideBudget sampleFanOut.random 7 3 = .ok budgets ∧ budgets.length = 3 ∧
      (amounts budgets).sum = 7 ∧ ∀ a ∈ budgets, ∀ b ∈ budgets, a.toNat ≤ b.toNat + 1 :=
  divideBudget_fair sampleFanOut.random 7 3 (by decide)

/-- The largest budget does not wrap around. -/
example : divideBudget sampleFanOut.random 0xffffffffffffffff 2 =
    .ok [0x8000000000000000, 0x7fffffffffffffff] := by
  decide +kernel

end Words

end Peerster.Search
