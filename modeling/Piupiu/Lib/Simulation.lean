import Mathlib

/-!
# Simulation

One machine answers each step of another with any number of steps of its own, none
included, and stays related to it. Then it can answer a whole run.
-/
namespace Simulation

variable {σ τ : Type*} {μ ν : Type*}

/-- Related states stay related: `g` answers each step of `f`. -/
def Simulates (f : σ → μ → σ) (g : τ → ν → τ) (R : σ → τ → Prop) : Prop :=
  ∀ s t m, R s t → ∃ answer : List ν, R (f s m) (answer.foldl g t)

variable {f : σ → μ → σ} {g : τ → ν → τ} {R : σ → τ → Prop}

theorem Simulates.run (h : Simulates f g R) {s : σ} {t : τ} (hst : R s t) (ms : List μ) :
    ∃ ns : List ν, R (ms.foldl f s) (ns.foldl g t) := by
  induction ms using List.reverseRecOn with
  | nil => exact ⟨[], hst⟩
  | append_singleton ms m ih =>
    obtain ⟨ns, hns⟩ := ih
    obtain ⟨answer, hanswer⟩ := h _ _ m hns
    refine ⟨ns ++ answer, ?_⟩
    rw [List.foldl_append, List.foldl_append]
    exact hanswer

end Simulation
