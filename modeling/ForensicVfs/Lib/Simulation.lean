import Mathlib.Data.List.Basic

/-!
# Runs and their reference

A machine answers one operation at a time. A reference for it is a relation that says, from a
reference state, which answers are right for an operation and where they lead. If every single step
of the machine is right, every run is (`run_refines`).
-/

namespace Simulation

variable {σ τ ω ρ : Type}

/-- The answers to a list of operations, and the state after them. -/
def run (step : σ → ω → ρ × σ) : σ → List ω → List ρ × σ
  | s, [] => ([], s)
  | s, o :: os =>
    let a := step s o
    let rest := run step a.2 os
    (a.1 :: rest.1, rest.2)

/-- A run of the reference. -/
inductive Runs (spec : τ → ω → ρ → τ → Prop) : τ → List ω → List ρ → τ → Prop
  | nil (t : τ) : Runs spec t [] [] t
  | cons {t u v : τ} {o : ω} {os : List ω} {r : ρ} {rs : List ρ} (h : spec t o r u)
      (hs : Runs spec u os rs v) : Runs spec t (o :: os) (r :: rs) v

/-- **Right steps make a right run.** -/
theorem run_refines {step : σ → ω → ρ × σ} {spec : τ → ω → ρ → τ → Prop} {rel : σ → τ → Prop}
    {P : ω → Prop}
    (hstep : ∀ s t o, rel s t → P o → ∃ u, spec t o (step s o).1 u ∧ rel (step s o).2 u)
    {s : σ} {t : τ} (h : rel s t) {os : List ω} (hos : ∀ o ∈ os, P o) :
    ∃ u, Runs spec t os (run step s os).1 u ∧ rel (run step s os).2 u := by
  induction os generalizing s t with
  | nil => exact ⟨t, .nil t, h⟩
  | cons o os ih =>
    obtain ⟨u, hspec, hrel⟩ := hstep s t o h (hos o List.mem_cons_self)
    obtain ⟨v, hruns, hrel⟩ := ih hrel fun o ho => hos o (List.mem_cons_of_mem _ ho)
    exact ⟨v, .cons hspec hruns, hrel⟩

end Simulation
