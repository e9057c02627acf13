import Piupiu.Lib.Atomic

/-!
# Programs with one write

A program that changes what `f` shows at most once shows at every moment what was
there before it or what will be there after it, if nobody else changes it meanwhile.
-/
namespace Atomic

namespace Prog

variable {σ α β δ : Type} {f : σ → δ}

/-- No action of the program changes what `f` shows. -/
def Keeps (f : σ → δ) (p : Prog σ α) : Prop := p.Always fun s s' => f s' = f s

/-- At most one action of the program changes what `f` shows. -/
def Once (f : σ → δ) : Prog σ α → Prop
  | .done _ => True
  | .act g k => ((∀ s, f (g s).1 = f s) ∧ ∀ b, (k b).Once f) ∨ ∀ b, (k b).Keeps f

theorem once_pure (a : α) : (pure a : Prog σ α).Once f := trivial

theorem Keeps.once {p : Prog σ α} (h : p.Keeps f) : p.Once f := by
  cases p with
  | done a => trivial
  | act g k => exact .inr h.2

theorem once_act {γ : Type} {g : σ → σ × γ} {k : γ → Prog σ α} (hg : ∀ s, f (g s).1 = f s)
    (hk : ∀ b, (k b).Once f) : (Prog.act g k).Once f := .inl ⟨hg, hk⟩

theorem once_write {γ : Type} {g : σ → σ × γ} {k : γ → Prog σ α} (hk : ∀ b, (k b).Keeps f) :
    (Prog.act g k).Once f := .inr hk

theorem Keeps.bind {p : Prog σ β} {g : β → Prog σ α} (hp : p.Keeps f) (hg : ∀ b, (g b).Keeps f) :
    (p.bind g).Keeps f := by
  induction p with
  | done b => exact hg b
  | act a k ih => exact ⟨hp.1, fun b => ih b (hp.2 b)⟩

/-- The write is in the first part, and the second part has none. -/
theorem Once.bind {p : Prog σ β} {g : β → Prog σ α} (hp : p.Once f) (hg : ∀ b, (g b).Keeps f) :
    (p.bind g).Once f := by
  induction p with
  | done b => exact (hg b).once
  | act a k ih =>
    cases hp with
    | inl hp => exact .inl ⟨hp.1, fun b => ih b (hp.2 b)⟩
    | inr hp => exact .inr fun b => (hp b).bind hg

theorem Keeps.exec {p : Prog σ α} (h : p.Keeps f) (s : σ) : f (p.exec s).1 = f s := by
  induction p generalizing s with
  | done a => rfl
  | act g k ih => exact (ih _ (h.2 _) _).trans (h.1 s)

end Prog

namespace Config

variable {σ δ : Type} {f : σ → δ} {x : δ} {c : Config σ}

/-- The running program, which began when `f` showed `x`, has still to write, or has
nothing to write any more. -/
def WritesOnce (f : σ → δ) (x : δ) (c : Config σ) : Prop :=
  f c.shared = x ∧ c.running.Once f ∨ c.running.Keeps f

theorem WritesOnce.advance (h : c.WritesOnce f x) : c.advance.WritesOnce f x := by
  obtain ⟨-, he⟩ | ⟨β, g, k, hp, -, he⟩ := c.advance_cases
  · rwa [he]
  · unfold WritesOnce at h ⊢
    rw [hp] at h
    rw [he]
    obtain ⟨hx, hwaits | hwrites⟩ | hkeeps := h
    · exact .inl ⟨(hwaits.1 _).trans hx, hwaits.2 _⟩
    · exact .inr (hwrites _)
    · exact .inr (hkeeps.2 _)

theorem WritesOnce.interfere (h : c.WritesOnce f x) {g : σ → σ} (hg : f (g c.shared) = f c.shared) :
    (c.interfere g).WritesOnce f x :=
  h.imp_left fun h => ⟨hg.trans h.1, h.2⟩

/-- What is shown was there before the program, or stays there to its end. -/
theorem WritesOnce.shows (h : c.WritesOnce f x) :
    f c.shared = x ∨ f c.shared = f (c.running.exec c.shared).1 :=
  h.imp (fun h => h.1) fun h => (h.exec _).symm

end Config

end Atomic
