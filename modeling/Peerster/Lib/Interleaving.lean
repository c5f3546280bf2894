import Mathlib.Data.List.Perm.Basic
import Peerster.Lib.Run

/-!
# Interleaved threads

Threads work on a shared state in atomic steps, one thread at a time, and a schedule says which
thread takes each step.  `linearizes` is the induction over a schedule that compares it with a
sequential machine: at some of its steps a thread makes operations take effect, and a relation
between the sequential state and the threads says what the others have still to see of them.
-/

namespace Interleaving

variable {σ π ο τ : Type*}

/-- A shared state and the threads that work on it. -/
structure Threads (σ π : Type*) where
  shared : σ
  running : List π

/-- Thread `i`, if there is one, takes a step. -/
def step (act : σ → π → σ × π) (s : Threads σ π) (i : Nat) : Threads σ π :=
  match s.running[i]? with
  | none => s
  | some p => ⟨(act s.shared p).1, s.running.set i (act s.shared p).2⟩

theorem step_of_none {act : σ → π → σ × π} {s : Threads σ π} {i : Nat}
    (idle : s.running[i]? = none) :
    step act s i = s := by
  rw [step, idle]

/-- Up to their order, the thread that steps is one of the threads, and the others are the same
after its step. -/
theorem step_of_some (act : σ → π → σ × π) {s : Threads σ π} {i : Nat} {p : π}
    (acting : s.running[i]? = some p) :
    ∃ rest, s.running.Perm (p :: rest) ∧ (step act s i).shared = (act s.shared p).1 ∧
      (step act s i).running.Perm ((act s.shared p).2 :: rest) := by
  obtain ⟨inside, rfl⟩ := List.getElem?_eq_some_iff.mp acting
  refine ⟨s.running.eraseIdx i, (List.getElem_cons_eraseIdx_perm inside).symm, ?_⟩
  rw [step, acting]
  exact ⟨rfl, List.set_perm_cons_eraseIdx inside _⟩

/-- **Linearization.**  `effect` is what a step makes take effect on the sequential state, `todo`
the operations of a thread that have not.  A relation between the sequential state and the threads,
in any order, that every step keeps with its effects holds after the schedule, for the sequential
state after the operations that have taken effect. -/
theorem linearizes {act : σ → π → σ × π} {effect : σ → π → List ο} {todo : π → List ο}
    {apply : τ → ο → τ} {R : τ → σ → List π → Prop} {P : Threads σ π → Nat → Prop}
    {s : Threads σ π} {t : τ} {schedule : List Nat} (always : Run.Always (step act) P s schedule)
    (unordered : ∀ {t sh ps qs}, ps.Perm qs → R t sh ps → R t sh qs)
    (start : R t s.shared s.running)
    (kept : ∀ {t} {s : Threads σ π} {i p rest}, P s i → s.running[i]? = some p →
      s.running.Perm (p :: rest) → R t s.shared (p :: rest) →
      R (Run.run apply t (effect s.shared p)) (act s.shared p).1 ((act s.shared p).2 :: rest))
    (owed : ∀ sh p, (effect sh p ++ todo (act sh p).2).Perm (todo p)) :
    ∃ order, (order ++ (Run.run (step act) s schedule).running.flatMap todo).Perm
        (s.running.flatMap todo) ∧
      R (Run.run apply t order) (Run.run (step act) s schedule).shared
        (Run.run (step act) s schedule).running := by
  induction schedule generalizing s t with
  | nil => exact ⟨[], List.Perm.refl _, start⟩
  | cons i schedule ih =>
      rw [Run.run_cons]
      cases acting : s.running[i]? with
      | none =>
          have later := always.2
          rw [step_of_none acting] at later ⊢
          exact ih later start
      | some p =>
          obtain ⟨rest, before, shared, after⟩ := step_of_some act acting
          have next := kept always.1 acting before (unordered before start)
          rw [← shared] at next
          obtain ⟨order, all, related⟩ := ih always.2 (unordered after.symm next)
          refine ⟨effect s.shared p ++ order, ?_, by rwa [Run.run_append]⟩
          have here : (effect s.shared p ++ (step act s i).running.flatMap todo).Perm
              (s.running.flatMap todo) := by
            refine ((after.flatMap_right todo).append_left _).trans ?_
            rw [List.flatMap_cons, ← List.append_assoc]
            exact ((owed s.shared p).append_right _).trans (before.flatMap_right todo).symm
          rw [List.append_assoc]
          exact (all.append_left _).trans here

end Interleaving
