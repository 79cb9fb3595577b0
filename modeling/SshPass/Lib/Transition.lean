import Mathlib.Data.Nat.Notation
import Mathlib.Tactic.Common

/-! # Labelled transition systems

`Run step s₀ hist s`: the system started in `s₀` is in the state `s`, and `hist` lists the states it
was in before with the action it took in each. `Run.safe_iff` turns a fact about one step, that an
action leads from a good state to a bad one exactly if it is not `Ok`, into one about runs: all
states of a run are good exactly if all its actions are `Ok`. -/

namespace SshPass.Lib.Transition

variable {σ α : Type}

/-- The runs of a system from `s₀`, with their history. -/
inductive Run (step : σ → α → σ → Prop) (s₀ : σ) : List (σ × α) → σ → Prop
  | start : Run step s₀ [] s₀
  | step {hist : List (σ × α)} {s s' : σ} {a : α} (h : Run step s₀ hist s) (hs : step s a s') :
      Run step s₀ (hist ++ [(s, a)]) s'

namespace Run

variable {step : σ → α → σ → Prop} {s₀ s : σ} {hist : List (σ × α)}

/-- **An invariant of the system**: it holds at the start and every step keeps it. -/
theorem invariant {I : σ → Prop} (h : Run step s₀ hist s) (h0 : I s₀)
    (hstep : ∀ s a s', I s → step s a s' → I s') : I s := by
  induction h with
  | start => exact h0
  | step _ hs ih => exact hstep _ _ _ ih hs

/-- Runs compose. -/
theorem trans {hist' : List (σ × α)} {s' : σ} (h : Run step s₀ hist s) (h' : Run step s hist' s') :
    Run step s₀ (hist ++ hist') s' := by
  induction h' with
  | start => rwa [List.append_nil]
  | step _ hs ih =>
    rw [← List.append_assoc]
    exact ih.step hs

/-- All states of a run satisfy `P`. -/
def Always (P : σ → Prop) (hist : List (σ × α)) (s : σ) : Prop := (∀ x ∈ hist, P x.1) ∧ P s

theorem always_concat {P : σ → Prop} {s' : σ} {a : α} :
    Always P (hist ++ [(s, a)]) s' ↔ Always P hist s ∧ P s' := by
  simp [Always, or_imp, forall_and]

/-- **Safety of a run** by its steps: if from a good state of an invariant `I` exactly the actions
that are not `Ok` lead to a bad one, then a run stays good exactly if all its actions are `Ok`. -/
theorem safe_iff {I Bad : σ → Prop} {Ok : σ → α → Prop} (h : Run step s₀ hist s) (h0 : I s₀)
    (hgood : ¬ Bad s₀) (hinv : ∀ s a s', I s → step s a s' → I s')
    (hstep : ∀ s a s', I s → ¬ Bad s → step s a s' → (¬ Bad s' ↔ Ok s a)) :
    Always (fun s => ¬ Bad s) hist s ↔ ∀ x ∈ hist, Ok x.1 x.2 := by
  induction h with
  | start => simp [Always, hgood]
  | @step hist s s' a h hs ih =>
    have hI := h.invariant h0 hinv
    rw [always_concat, ih]
    simp only [List.mem_append, List.mem_singleton, or_imp, forall_and, forall_eq]
    refine and_congr_right fun hok => ?_
    exact hstep s a s' hI (ih.mpr hok).2 hs

end Run

end SshPass.Lib.Transition
