import Mathlib.Logic.Function.Basic

/-!
Machines that take one labelled step after another. A label names the party
that moves and what its surroundings answer, so a list of labels is one
interleaving of the parties' steps. What a step preserves, a run preserves.

A log that grows at its end is grounded when each of its entries holds of what
is written before it.
-/

namespace Machine

variable {σ ℓ : Type}

/-- The state after the steps of a schedule. -/
def run (step : σ → ℓ → σ) (s : σ) (schedule : List ℓ) : σ := schedule.foldl step s

@[simp] theorem run_nil (step : σ → ℓ → σ) (s : σ) : run step s [] = s := rfl

@[simp] theorem run_cons (step : σ → ℓ → σ) (s : σ) (label : ℓ) (rest : List ℓ) :
    run step s (label :: rest) = run step (step s label) rest := rfl

theorem run_append (step : σ → ℓ → σ) (s : σ) (first second : List ℓ) :
    run step s (first ++ second) = run step (run step s first) second :=
  List.foldl_append

theorem run_invariant {step : σ → ℓ → σ} {I : σ → Prop}
    (hstep : ∀ s label, I s → I (step s label)) {s : σ} (hstart : I s) (schedule : List ℓ) :
    I (run step s schedule) := by
  induction schedule generalizing s with
  | nil => exact hstart
  | cons label rest ih => exact ih (hstep s label hstart)

section Log

variable {α : Type} {P : List α → α → Prop}

def Grounded (P : List α → α → Prop) (log : List α) : Prop :=
  ∀ before entry after, log = before ++ entry :: after → P before entry

theorem grounded_nil : Grounded P [] := by
  intro before entry after h
  simp at h

theorem Grounded.concat {log : List α} (h : Grounded P log) {entry : α} (hentry : P log entry) :
    Grounded P (log ++ [entry]) := by
  intro before other after hsplit
  rcases List.eq_nil_or_concat after with rfl | ⟨init, last, rfl⟩
  · obtain ⟨rfl, hsame⟩ := List.append_inj' hsplit rfl
    obtain rfl := List.singleton_inj.mp hsame
    exact hentry
  · have hlog : log = before ++ other :: init := by
      have hassoc : log ++ [entry] = (before ++ other :: init) ++ [last] := by simpa using hsplit
      exact (List.append_inj' hassoc rfl).1
    exact h before other init hlog

end Log

end Machine
