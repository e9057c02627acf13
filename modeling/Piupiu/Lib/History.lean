import Mathlib

/-!
# Conditions on the steps of a history

A history is the list of the steps that were taken, and a condition on a step may
speak about all steps before it.
-/
namespace History

variable {α : Type} {Q : List α → α → Prop}

/-- Every step meets the condition where it is taken. -/
def EachStep (Q : List α → α → Prop) (l : List α) : Prop := ∀ k a, l[k]? = some a → Q (l.take k) a

@[simp] theorem eachStep_nil : EachStep Q [] := fun k a h => by simp at h

/-- One more step is one more condition. -/
@[simp] theorem eachStep_concat (l : List α) (a : α) :
    EachStep Q (l ++ [a]) ↔ EachStep Q l ∧ Q l a := by
  constructor
  · intro h
    constructor
    · intro k b hk
      have hlt := (List.getElem?_eq_some_iff.mp hk).1
      have hb := h k b (by rw [List.getElem?_append_left hlt, hk])
      rwa [List.take_append_of_le_length hlt.le] at hb
    · have hlast := h l.length a (by simp)
      rwa [List.take_left] at hlast
  · rintro ⟨h, hlast⟩ k b hk
    have hlt := (List.getElem?_eq_some_iff.mp hk).1
    rw [List.length_append, List.length_singleton] at hlt
    by_cases he : k = l.length
    · subst he
      rw [List.getElem?_concat_length] at hk
      rw [List.take_left, ← Option.some.inj hk]
      exact hlast
    · have hold : k < l.length := by omega
      rw [List.getElem?_append_left hold] at hk
      rw [List.take_append_of_le_length hold.le]
      exact h k b hk

/-- A condition on each step is met along a history exactly when nothing has gone
wrong at its end, if a step goes wrong exactly when it does not meet it. -/
theorem not_wrong_iff (Wrong : List α → Prop) (hnil : ¬Wrong [])
    (hstep : ∀ l a, Wrong (l ++ [a]) ↔ Wrong l ∨ ¬Q l a) (l : List α) :
    ¬Wrong l ↔ EachStep Q l := by
  induction l using List.reverseRecOn with
  | nil => exact iff_of_true hnil eachStep_nil
  | append_singleton l a ih => rw [hstep, not_or, not_not, ih, eachStep_concat]

/-- Some step met the condition where it was taken. -/
def SomeStep (Q : List α → α → Prop) (l : List α) : Prop :=
  ∃ before a after, l = before ++ a :: after ∧ Q before a

theorem SomeStep.append {l : List α} (h : SomeStep Q l) (more : List α) : SomeStep Q (l ++ more) := by
  obtain ⟨before, a, after, rfl, hq⟩ := h
  exact ⟨before, a, after ++ more, by simp, hq⟩

theorem someStep_last {l : List α} {a : α} (h : Q l a) : SomeStep Q (l ++ [a]) := ⟨l, a, [], rfl, h⟩

/-- What there is at the end and was not there at the start came with some step. -/
theorem someStep_of_came {P : List α → Prop} {Q : List α → α → Prop} (hnil : ¬P [])
    (hstep : ∀ l a, P (l ++ [a]) → P l ∨ Q l a) {l : List α} (h : P l) : SomeStep Q l := by
  induction l using List.reverseRecOn with
  | nil => exact absurd h hnil
  | append_singleton l a ih =>
    cases hstep l a h with
    | inl hold => exact (ih hold).append [a]
    | inr hnew => exact someStep_last hnew

end History
