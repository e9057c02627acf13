import Mathlib

/-!
# Loops

`while` loops that may also be left from inside of their body. `Runs` has no bound:
it says that a loop ends, after how many passes and how. A variant gives such a run
with a bound on its passes, and a definition that unrolls the loop up to a number of
passes agrees with every run that has fewer.
-/
namespace Loops

/-- The body goes round again in a new state, or leaves the loop with a value. -/
structure While (σ ρ : Type) where
  test : σ → Bool
  body : σ → σ ⊕ ρ

namespace While

variable {σ ρ α : Type} {L : While σ ρ}

/-- The passes that are begun from a state, and the state in which the test fails or the
value with which the body leaves. -/
inductive Runs (L : While σ ρ) : σ → Nat → σ ⊕ ρ → Prop
  | stop {s : σ} (htest : L.test s = false) : Runs L s 0 (.inl s)
  | leave {s : σ} {r : ρ} (htest : L.test s = true) (hbody : L.body s = .inr r) :
      Runs L s 1 (.inr r)
  | again {s s' : σ} {n : Nat} {e : σ ⊕ ρ} (htest : L.test s = true)
      (hbody : L.body s = .inl s') (hrest : Runs L s' n e) : Runs L s (n + 1) e

/-- A loop ends when its invariant bounds the passes by a variant that each pass lowers. -/
theorem ends_of_variant (P : σ → Prop) (variant : σ → Nat)
    (hpos : ∀ s, P s → L.test s = true → 0 < variant s)
    (hpass : ∀ s s', P s → L.test s = true → L.body s = .inl s' → P s' ∧ variant s' < variant s)
    {s : σ} (hs : P s) : ∃ n e, L.Runs s n e ∧ n ≤ variant s := by
  induction hm : variant s using Nat.strong_induction_on generalizing s with
  | _ m ih =>
    cases htest : L.test s with
    | false => exact ⟨0, _, .stop htest, Nat.zero_le m⟩
    | true =>
      cases hbody : L.body s with
      | inr r =>
        have h := hpos s hs htest
        exact ⟨1, _, .leave htest hbody, by omega⟩
      | inl s' =>
        obtain ⟨hs', hlt⟩ := hpass s s' hs htest hbody
        rw [hm] at hlt
        obtain ⟨n, e, hrun, hle⟩ := ih (variant s') hlt hs' rfl
        exact ⟨n + 1, e, .again htest hbody hrun, by omega⟩

/-- A loop that is not left ends where its test fails. -/
theorem Runs.test_false {s s' : σ} {n : Nat} (h : L.Runs s n (.inl s')) : L.test s' = false := by
  generalize he : (Sum.inl s' : σ ⊕ ρ) = e at h
  induction h with
  | stop htest =>
    cases he
    exact htest
  | leave htest hbody => cases he
  | again htest hbody hrest ih => exact ih he

/-- What a loop is left with comes out of one of its passes. -/
theorem Runs.exists_pass {s : σ} {n : Nat} {r : ρ} (h : L.Runs s n (.inr r)) :
    ∃ s', L.test s' = true ∧ L.body s' = .inr r := by
  generalize he : (Sum.inr r : σ ⊕ ρ) = e at h
  induction h with
  | stop htest => cases he
  | leave htest hbody =>
    cases he
    exact ⟨_, htest, hbody⟩
  | again htest hbody hrest ih => exact ih he

/-- Unrolling a loop further than it runs makes no difference. -/
theorem Runs.unrolled (f : Nat → σ → α) (stop : σ → α) (leave : ρ → α)
    (hf : ∀ fuel s, f (fuel + 1) s =
      if L.test s then (L.body s).elim (f fuel) leave else stop s)
    {s : σ} {n : Nat} {e : σ ⊕ ρ} (h : L.Runs s n e) {fuel : Nat} (hfuel : n < fuel) :
    f fuel s = e.elim stop leave := by
  induction h generalizing fuel with
  | stop htest =>
    obtain ⟨fuel, rfl⟩ := Nat.exists_eq_succ_of_ne_zero (Nat.ne_of_gt hfuel)
    rw [hf, htest]
    rfl
  | leave htest hbody =>
    obtain ⟨fuel, rfl⟩ := Nat.exists_eq_succ_of_ne_zero (Nat.ne_of_gt (Nat.zero_lt_of_lt hfuel))
    rw [hf, if_pos htest, hbody]
    rfl
  | again htest hbody hrest ih =>
    obtain ⟨fuel, rfl⟩ := Nat.exists_eq_succ_of_ne_zero (Nat.ne_of_gt (Nat.zero_lt_of_lt hfuel))
    rw [hf, if_pos htest, hbody]
    exact ih (Nat.lt_of_succ_lt_succ hfuel)

end While

end Loops
