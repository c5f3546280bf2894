import Mathlib.Data.List.Basic

/-!
# Runs of an event-driven machine

A machine is a step function on states; a run is the state it reaches over a list of events.
`run_invariant` is the induction over a run, done once.  A machine that also emits output along
the way has a history (`collect`), and `run_collect_invariant` is the induction for a relation
between the history so far and the state reached.  `Always` says that every step of a run, seen
with the state it is taken in, has a property.
-/

namespace Run

variable {σ ε α : Type*}

/-- The state reached from `s` over a list of events. -/
def run (step : σ → ε → σ) (s : σ) (es : List ε) : σ := es.foldl step s

@[simp] theorem run_nil (step : σ → ε → σ) (s : σ) : run step s [] = s := rfl

@[simp] theorem run_cons (step : σ → ε → σ) (s : σ) (e : ε) (es : List ε) :
    run step s (e :: es) = run step (step s e) es := rfl

theorem run_append (step : σ → ε → σ) (s : σ) (es fs : List ε) :
    run step s (es ++ fs) = run step (run step s es) fs := by
  simp [run]

/-- A property of the start that every step keeps holds after every run. -/
theorem run_invariant {step : σ → ε → σ} {I : σ → Prop} {s : σ} (start : I s)
    (kept : ∀ s e, I s → I (step s e)) (es : List ε) : I (run step s es) := by
  induction es generalizing s with
  | nil => exact start
  | cons e es ih => exact ih (kept s e start)

/-- Two runs of the same steps stay related if every step keeps them related. -/
theorem run_simulates {τ : Type*} {step : σ → ε → σ} {step' : τ → ε → τ} {R : σ → τ → Prop} {s : σ}
    {t : τ} {es : List ε} (start : R s t)
    (kept : ∀ s t, ∀ e ∈ es, R s t → R (step s e) (step' t e)) :
    R (run step s es) (run step' t es) := by
  induction es generalizing s t with
  | nil => exact start
  | cons e es ih =>
      exact ih (kept s t e List.mem_cons_self start)
        fun s t e' mem => kept s t e' (List.mem_cons_of_mem e mem)

/-- Everything a run emits, in order. -/
def collect (step : σ → ε → σ) (out : σ → ε → List α) : σ → List ε → List α
  | _, [] => []
  | s, e :: es => out s e ++ collect step out (step s e) es

@[simp] theorem collect_nil (step : σ → ε → σ) (out : σ → ε → List α) (s : σ) :
    collect step out s [] = [] := rfl

theorem collect_append (step : σ → ε → σ) (out : σ → ε → List α) (s : σ) (es fs : List ε) :
    collect step out s (es ++ fs) =
      collect step out s es ++ collect step out (run step s es) fs := by
  induction es generalizing s with
  | nil => rfl
  | cons e es ih =>
      simp only [List.cons_append, collect, run_cons, ih, List.append_assoc]

/-- What holds of everything that any step emits holds of everything a run emits. -/
theorem forall_mem_collect {step : σ → ε → σ} {out : σ → ε → List α} {R : α → Prop}
    (here : ∀ s e, ∀ x ∈ out s e, R x) {s : σ} {es : List ε} :
    ∀ x ∈ collect step out s es, R x := by
  induction es generalizing s with
  | nil =>
      intro x mem
      cases mem
  | cons e es ih =>
      intro x mem
      rcases List.mem_append.mp mem with now | later
      · exact here s e x now
      · exact ih x later

/-- A relation between history and state that holds at the start and that every step of the run
keeps holds after the run. -/
theorem run_collect_invariant_mem {step : σ → ε → σ} {out : σ → ε → List α}
    {I : List α → σ → Prop} {s : σ} {es : List ε} (start : I [] s)
    (kept : ∀ h s, ∀ e ∈ es, I h s → I (h ++ out s e) (step s e)) :
    I (collect step out s es) (run step s es) := by
  have general : ∀ (fs : List ε) (h : List α) (s : σ), fs ⊆ es → I h s →
      I (h ++ collect step out s fs) (run step s fs) := by
    intro fs
    induction fs with
    | nil =>
        intro h s _ inv
        simpa only [collect_nil, List.append_nil, run_nil] using inv
    | cons e fs ih =>
        intro h s subset inv
        obtain ⟨mem, rest⟩ := List.cons_subset.mp subset
        have next := ih _ _ rest (kept h s e mem inv)
        simpa only [collect, List.append_assoc, run_cons] using next
  simpa only [List.nil_append] using general es [] s (List.Subset.refl es) start

/-- A relation between history and state that holds at the start and that every step keeps holds
after every run. -/
theorem run_collect_invariant {step : σ → ε → σ} {out : σ → ε → List α}
    {I : List α → σ → Prop} {s : σ} (start : I [] s)
    (kept : ∀ h s e, I h s → I (h ++ out s e) (step s e)) (es : List ε) :
    I (collect step out s es) (run step s es) :=
  run_collect_invariant_mem start fun h s e _ => kept h s e

/-- Every event of a run has the property `P` in the state it happens in. -/
def Always (step : σ → ε → σ) (P : σ → ε → Prop) : σ → List ε → Prop
  | _, [] => True
  | s, e :: es => P s e ∧ Always step P (step s e) es

instance decidableAlways (step : σ → ε → σ) (P : σ → ε → Prop) [∀ s e, Decidable (P s e)] :
    ∀ s es, Decidable (Always step P s es)
  | _, [] => instDecidableTrue
  | s, e :: es =>
      have := decidableAlways step P (step s e) es
      inferInstanceAs (Decidable (P s e ∧ Always step P (step s e) es))

theorem always_append {step : σ → ε → σ} {P : σ → ε → Prop} {s : σ} {es fs : List ε} :
    Always step P s (es ++ fs) ↔ Always step P s es ∧ Always step P (run step s es) fs := by
  induction es generalizing s with
  | nil => simp only [List.nil_append, Always, run_nil, true_and]
  | cons e es ih => simp only [List.cons_append, Always, ih, run_cons, and_assoc]

theorem Always.and {step : σ → ε → σ} {P Q : σ → ε → Prop} {s : σ} {es : List ε}
    (left : Always step P s es) (right : Always step Q s es) :
    Always step (fun s e => P s e ∧ Q s e) s es := by
  induction es generalizing s with
  | nil => trivial
  | cons e es ih => exact ⟨⟨left.1, right.1⟩, ih left.2 right.2⟩

/-- What holds of everything a run emits holds of what every step of it emits. -/
theorem always_of_collect {step : σ → ε → σ} {out : σ → ε → List α} {R : α → Prop} {s : σ}
    {es : List ε} (all : ∀ x ∈ collect step out s es, R x) :
    Always step (fun s e => ∀ x ∈ out s e, R x) s es := by
  induction es generalizing s with
  | nil => trivial
  | cons e es ih =>
      refine ⟨fun x mem => all x (List.mem_append_left _ mem), ih fun x mem => ?_⟩
      exact all x (List.mem_append_right _ mem)

/-- A property of the start that every step of a run with the property `P` keeps. -/
theorem Always.run_invariant {step : σ → ε → σ} {I : σ → Prop} {P : σ → ε → Prop} {s : σ}
    {es : List ε} (always : Always step P s es) (start : I s)
    (kept : ∀ s e, I s → P s e → I (step s e)) : I (run step s es) := by
  induction es generalizing s with
  | nil => exact start
  | cons e es ih => exact ih always.2 (kept s e start always.1)

/-- What holds of every step of a run follows from another property of its steps, in states that
have an invariant which such steps keep. -/
theorem Always.imp {step : σ → ε → σ} {I : σ → Prop} {P Q : σ → ε → Prop} {s : σ} {es : List ε}
    (always : Always step P s es) (start : I s) (kept : ∀ s e, I s → P s e → I (step s e))
    (here : ∀ s e, I s → P s e → Q s e) : Always step Q s es := by
  induction es generalizing s with
  | nil => trivial
  | cons e es ih =>
      exact ⟨here s e start always.1, ih always.2 (kept s e start always.1)⟩

/-- Two properties of steps that are equivalent in states with an invariant, which the steps with
the second property keep, hold along the same runs. -/
theorem always_congr {step : σ → ε → σ} {I : σ → Prop} {P Q : σ → ε → Prop} {s : σ} {es : List ε}
    (start : I s) (here : ∀ s e, I s → (P s e ↔ Q s e))
    (kept : ∀ s e, I s → Q s e → I (step s e)) :
    Always step P s es ↔ Always step Q s es := by
  constructor
  · intro always
    exact always.imp start (fun s e inv holds => kept s e inv ((here s e inv).mp holds))
      fun s e inv => (here s e inv).mp
  · intro always
    exact always.imp start kept fun s e inv => (here s e inv).mpr

/-- A property of the events alone. -/
theorem always_of_forall_mem {step : σ → ε → σ} {P : ε → Prop} {s : σ} {es : List ε}
    (all : ∀ e ∈ es, P e) : Always step (fun _ e => P e) s es := by
  induction es generalizing s with
  | nil => trivial
  | cons e es ih =>
      exact ⟨all e List.mem_cons_self, ih fun e' mem => all e' (List.mem_cons_of_mem e mem)⟩

/-- `always_congr` along runs whose steps have a further property. -/
theorem always_congr_along {step : σ → ε → σ} {I : σ → Prop} {P Q R : σ → ε → Prop} {s : σ}
    {es : List ε} (along : Always step R s es) (start : I s)
    (here : ∀ s e, I s → R s e → (P s e ↔ Q s e))
    (kept : ∀ s e, I s → R s e → Q s e → I (step s e)) :
    Always step P s es ↔ Always step Q s es := by
  induction es generalizing s with
  | nil => exact Iff.rfl
  | cons e es ih =>
      have now := here s e start along.1
      constructor
      · intro always
        have holds := now.mp always.1
        exact ⟨holds, (ih along.2 (kept s e start along.1 holds)).mp always.2⟩
      · intro always
        exact ⟨now.mpr always.1, (ih along.2 (kept s e start along.1 always.1)).mpr always.2⟩

end Run
