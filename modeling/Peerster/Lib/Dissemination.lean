import Peerster.Lib.Run
import Mathlib.Order.Basic

/-!
# What spreads along a run

The parties of a machine each know something, where knowledge is ordered.  No step takes knowledge
away, and along some parts of a run one party hands what it knows to another, whatever else happens
in between.  Then what a party knows comes to every party at the end of a chain of such parts
(`Comes.le`).
-/

namespace Dissemination

open Run

variable {σ ε ι : Type*}

/-- Along the events from `s`, what `a` knows comes to `b`: it stays with `a`, it waits for a step,
or it is handed on along the first events and goes on from there. -/
inductive Comes (step : σ → ε → σ) (hands : σ → List ε → ι → ι → Prop) :
    σ → List ε → ι → ι → Prop
  | stays (s : σ) (es : List ε) (a : ι) : Comes step hands s es a a
  | waits {s : σ} {e : ε} {es : List ε} {a b : ι} :
      Comes step hands (step s e) es a b → Comes step hands s (e :: es) a b
  | handed {s : σ} {es fs : List ε} {a b c : ι} :
      hands s es a b → Comes step hands (run step s es) fs b c → Comes step hands s (es ++ fs) a c

variable {step : σ → ε → σ} {hands : σ → List ε → ι → ι → Prop} {s : σ} {es fs : List ε} {a b c : ι}

/-- A single part of a run along which knowledge is handed on. -/
theorem Comes.hand (hand : hands s es a b) : Comes step hands s es a b := by
  have comes : Comes step hands s (es ++ []) a b := .handed hand (.stays _ _ _)
  rw [List.append_nil] at comes
  exact comes

/-- What is handed on later in a run waits until then. -/
theorem Comes.wait (es : List ε) (comes : Comes step hands (run step s es) fs a b) :
    Comes step hands s (es ++ fs) a b := by
  induction es generalizing s with
  | nil => exact comes
  | cons e es ih => exact .waits (ih comes)

section Knowledge

variable {K : Type*} [Preorder K] {know : σ → ι → K} {I : σ → Prop}
  (kept : ∀ s e, I s → I (step s e)) (grows : ∀ s e a, I s → know s a ≤ know (step s e) a)

include kept grows

theorem le_run (inv : I s) (es : List ε) (a : ι) : know s a ≤ know (run step s es) a := by
  induction es generalizing s with
  | nil => exact le_rfl
  | cons e es ih => exact (grows s e a inv).trans (ih (kept s e inv))

/-- **What comes to a party it knows.** -/
theorem Comes.le (inv : I s)
    (hand : ∀ s es a b, I s → hands s es a b → know s a ≤ know (run step s es) b)
    (comes : Comes step hands s es a b) : know s a ≤ know (run step s es) b := by
  induction comes with
  | stays s es a => exact le_run kept grows inv es a
  | @waits s e es a b _ ih => exact (grows s e a inv).trans (ih (kept s e inv))
  | @handed s es fs a b c hands _ ih =>
      rw [run_append]
      exact (hand s es a b inv hands).trans (ih (run_invariant inv kept es))

end Knowledge

end Dissemination
