import Mathlib.Data.List.FinRange
import Mathlib.Data.List.Infix
import Mathlib.Logic.Function.Basic

/-!
# Exactly-once broadcast

A group of `k` processes broadcasts messages: a message goes to every process but its sender, each
copy is received at most once, and nothing else is received.  The log of a process holds what it
sent and received, in order.  When nothing is in flight all logs have one length
(`Bus.Balanced`), so logs that follow one sequence are equal (`Bus.log_eq_of_quiet`).
-/

/-- The copies under way, and what every process has sent and received. -/
structure Bus (k : Nat) (M : Type*) where
  inFlight : List (Fin k × M)
  log : Fin k → List M

namespace Bus

variable {k : Nat} {M : Type*}

def empty : Bus k M := ⟨[], fun _ => []⟩

/-- Process `i` takes `m` into its log. -/
def record (b : Bus k M) (i : Fin k) (m : M) : Bus k M :=
  { b with log := Function.update b.log i (b.log i ++ [m]) }

/-- Process `i` broadcasts `m`. -/
def publish (b : Bus k M) (i : Fin k) (m : M) : Bus k M :=
  { b.record i m with
    inFlight := b.inFlight ++ ((List.finRange k).filter (· ≠ i)).map fun j => (j, m) }

/-- Process `i` receives a copy of `m`. -/
def receive [DecidableEq M] (b : Bus k M) (i : Fin k) (m : M) : Bus k M :=
  { b.record i m with inFlight := b.inFlight.erase (i, m) }

/-- The copies under way to process `i`. -/
def pending (b : Bus k M) (i : Fin k) : Nat := b.inFlight.countP fun copy => copy.1 = i

/-- Every process has taken, or is still to receive, equally many messages. -/
def Balanced (b : Bus k M) : Prop := ∃ total, ∀ i, (b.log i).length + b.pending i = total

theorem empty_balanced : (empty : Bus k M).Balanced := ⟨0, fun _ => rfl⟩

@[simp] theorem publish_log (b : Bus k M) (i : Fin k) (m : M) :
    (b.publish i m).log = Function.update b.log i (b.log i ++ [m]) := rfl

@[simp] theorem publish_inFlight (b : Bus k M) (i : Fin k) (m : M) :
    (b.publish i m).inFlight =
      b.inFlight ++ ((List.finRange k).filter (· ≠ i)).map fun j => (j, m) := rfl

@[simp] theorem receive_log [DecidableEq M] (b : Bus k M) (i : Fin k) (m : M) :
    (b.receive i m).log = Function.update b.log i (b.log i ++ [m]) := rfl

@[simp] theorem receive_inFlight [DecidableEq M] (b : Bus k M) (i : Fin k) (m : M) :
    (b.receive i m).inFlight = b.inFlight.erase (i, m) := rfl

theorem count_others (i j : Fin k) (m : M) :
    ((((List.finRange k).filter (· ≠ i)).map fun j => (j, m)).countP fun copy => copy.1 = j) =
      if j = i then 0 else 1 := by
  rw [List.countP_map]
  have same : (fun copy : Fin k × M => decide (copy.1 = j)) ∘ (fun j => (j, m)) = (· == j) := by
    funext x
    simp [Function.comp, beq_eq_decide]
  rw [same, ← List.count_eq_countP]
  split
  · next eq =>
    rw [List.count_eq_zero, eq]
    simp
  · next other =>
    have nodup : ((List.finRange k).filter (· ≠ i)).Nodup := (List.nodup_finRange k).filter _
    exact List.count_eq_one_of_mem nodup (by simp [other])

theorem Balanced.publish {b : Bus k M} (balanced : b.Balanced) (i : Fin k) (m : M) :
    (b.publish i m).Balanced := by
  obtain ⟨total, all⟩ := balanced
  refine ⟨total + 1, fun j => ?_⟩
  have here := all j
  have copies := count_others i j m
  unfold pending at here ⊢
  simp only [publish_log, publish_inFlight, List.countP_append, copies]
  by_cases eq : j = i
  · rw [eq] at here ⊢
    simp only [Function.update_self, List.length_append, List.length_singleton, if_true]
    omega
  · simp only [Function.update_of_ne eq, if_neg eq]
    omega

theorem Balanced.receive [DecidableEq M] {b : Bus k M} (balanced : b.Balanced) {i : Fin k} {m : M}
    (underWay : (i, m) ∈ b.inFlight) : (b.receive i m).Balanced := by
  obtain ⟨total, all⟩ := balanced
  refine ⟨total, fun j => ?_⟩
  have here := all j
  have split := (List.perm_cons_erase underWay).countP_eq fun copy : Fin k × M => copy.1 = j
  unfold pending at here ⊢
  simp only [receive_log, receive_inFlight]
  rw [split, List.countP_cons] at here
  by_cases eq : j = i
  · rw [eq] at here ⊢
    simp only [Function.update_self, List.length_append, List.length_singleton, decide_true,
      if_true] at here ⊢
    omega
  · have other : ¬ i = j := fun h => eq h.symm
    simp only [Function.update_of_ne eq, other, decide_false, Bool.false_eq_true, if_false,
      Nat.add_zero] at here ⊢
    exact here

/-- With nothing in flight, logs that follow one sequence are equal. -/
theorem log_eq_of_quiet {b : Bus k M} (balanced : b.Balanced) (quiet : b.inFlight = [])
    {sequence : List M} (follows : ∀ i, b.log i <+: sequence) (i j : Fin k) :
    b.log i = b.log j := by
  obtain ⟨total, all⟩ := balanced
  have lengths : (b.log i).length = (b.log j).length := by
    have left := all i
    have right := all j
    simp only [pending, quiet, List.countP_nil, Nat.add_zero] at left right
    omega
  exact (List.prefix_of_prefix_length_le (follows i) (follows j) lengths.le).eq_of_length lengths

end Bus
