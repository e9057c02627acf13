import Piupiu.Lib.Atomic

/-!
# Programs side by side

Any number of programs run on one shared state, and any of them may do the next
action. Each one is proved safe on its own, against the relation `R` that all of them
and their surroundings keep to.
-/
namespace Atomic

structure Threads (σ : Type) where
  shared : σ
  running : List (Prog σ Unit)

namespace Threads

variable {σ : Type}

def start (c : Threads σ) (p : Prog σ Unit) : Threads σ := ⟨c.shared, c.running ++ [p]⟩

/-- One action of the program at position `i`. -/
def advance (c : Threads σ) (i : Nat) : Threads σ :=
  match c.running[i]? with
  | some (.act f k) => ⟨(f c.shared).1, c.running.set i (k (f c.shared).2)⟩
  | _ => c

/-- One atomic step of another party. -/
def interfere (c : Threads σ) (f : σ → σ) : Threads σ := ⟨f c.shared, c.running⟩

/-- What one action can do. -/
theorem advance_cases (c : Threads σ) (i : Nat) : c.advance i = c ∨
    ∃ (β : Type) (f : σ → σ × β) (k : β → Prog σ Unit), c.running[i]? = some (.act f k) ∧
      c.advance i = ⟨(f c.shared).1, c.running.set i (k (f c.shared).2)⟩ := by
  unfold advance
  split
  · next f k h => exact .inr ⟨_, f, k, h, rfl⟩
  · exact .inl rfl

/-- The program that was started last is done when only it goes on. -/
theorem iterate_advance (running : List (Prog σ Unit)) (p : Prog σ Unit) (s : σ) :
    ∃ n, (fun c : Threads σ => c.advance running.length)^[n] ⟨s, running ++ [p]⟩ =
      ⟨(p.exec s).1, running ++ [.done ()]⟩ := by
  induction p generalizing s with
  | done a => exact ⟨0, rfl⟩
  | act f k ih =>
    obtain ⟨n, hn⟩ := ih (f s).2 (f s).1
    refine ⟨n + 1, ?_⟩
    have hone : (⟨s, running ++ [.act f k]⟩ : Threads σ).advance running.length =
        ⟨(f s).1, running ++ [k (f s).2]⟩ := by simp [advance]
    rw [Function.iterate_succ_apply, hone, hn]
    rfl

variable {R : σ → σ → Prop} {P : σ → Prop}

/-- `P` holds, and each program is safe whatever the others do. -/
structure Guarded (R : σ → σ → Prop) (P : σ → Prop) (c : Threads σ) : Prop where
  holds : P c.shared
  safe : ∀ p ∈ c.running, p.Safe R R (fun _ _ => True) c.shared

theorem guarded_init {s : σ} (h : P s) : Guarded R P ⟨s, []⟩ := ⟨h, fun _ hp => by cases hp⟩

theorem Guarded.start {c : Threads σ} {p : Prog σ Unit} (h : c.Guarded R P)
    (hp : p.Safe R R (fun _ _ => True) c.shared) : (c.start p).Guarded R P := by
  refine ⟨h.holds, fun q hq => ?_⟩
  obtain hq | hq := List.mem_append.mp hq
  · exact h.safe q hq
  · rw [List.mem_singleton.mp hq]
    exact hp

theorem Guarded.interfere {c : Threads σ} {f : σ → σ} (h : c.Guarded R P)
    (htrans : ∀ a b c, R a b → R b c → R a c) (hP : ∀ a b, R a b → P a → P b)
    (hf : R c.shared (f c.shared)) : (c.interfere f).Guarded R P :=
  ⟨hP _ _ hf h.holds, fun p hp => (h.safe p hp).rely htrans hf⟩

/-- The action of one program is interference for all others. -/
theorem Guarded.advance {c : Threads σ} (h : c.Guarded R P) (hrefl : ∀ a, R a a)
    (htrans : ∀ a b c, R a b → R b c → R a c) (hP : ∀ a b, R a b → P a → P b) (i : Nat) :
    (c.advance i).Guarded R P := by
  obtain he | ⟨β, f, k, hi, he⟩ := c.advance_cases i <;> rw [he]
  · exact h
  · have hsafe := h.safe _ (List.mem_of_getElem? hi)
    obtain ⟨hg, hk⟩ := hsafe c.shared (hrefl _)
    refine ⟨hP _ _ hg h.holds, fun p hp => ?_⟩
    obtain hp | rfl := List.mem_or_eq_of_mem_set hp
    · exact (h.safe p hp).rely htrans hg
    · exact hk

/-- An action of one of the programs keeps to the relation. -/
theorem Guarded.advance_rel {c : Threads σ} (h : c.Guarded R P) (hrefl : ∀ a, R a a) (i : Nat) :
    R c.shared (c.advance i).shared := by
  obtain he | ⟨β, f, k, hi, he⟩ := c.advance_cases i <;> rw [he]
  · exact hrefl _
  · exact (h.safe _ (List.mem_of_getElem? hi) c.shared (hrefl _)).1

end Threads

end Atomic
