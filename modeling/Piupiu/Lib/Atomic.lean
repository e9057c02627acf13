import Mathlib

/-!
# Programs of atomic actions

A program is a finite tree of atomic actions on one shared state. It has two
readings: `exec` runs it alone, and a `Config` runs it one action at a time, so
that another party may change the shared state between any two actions.
`Safe` is the rely-guarantee rule that covers both readings with one proof.
-/
namespace Atomic

/-- A program over the shared state `σ`: it is finished, or it performs one
atomic action and goes on with what the action returned. -/
inductive Prog (σ : Type) (α : Type) : Type 1 where
  | done (a : α) : Prog σ α
  | act {β : Type} (f : σ → σ × β) (k : β → Prog σ α) : Prog σ α

namespace Prog

variable {σ α β : Type}

def bind : Prog σ α → (α → Prog σ β) → Prog σ β
  | .done a, g => g a
  | .act f k, g => .act f fun b => (k b).bind g

instance : Monad (Prog σ) where
  pure := .done
  bind := .bind

/-- One action that looks at the shared state and leaves it as it is. -/
def read (f : σ → β) : Prog σ β := .act (fun s => (s, f s)) .done

/-- One action that changes the shared state and returns nothing. -/
def update (f : σ → σ) : Prog σ Unit := .act (fun s => (f s, ())) .done

/-- One action that changes the shared state and returns a value. -/
def atomic (f : σ → σ × β) : Prog σ β := .act f .done

/-- The program run alone, from start to end. -/
def exec : Prog σ α → σ → σ × α
  | .done a, s => (s, a)
  | .act f k, s => (k (f s).2).exec (f s).1

@[simp] theorem pure_eq (a : α) : (pure a : Prog σ α) = .done a := rfl
@[simp] theorem bind_eq (p : Prog σ α) (g : α → Prog σ β) : (p >>= g) = p.bind g := rfl
@[simp] theorem done_bind (a : α) (g : α → Prog σ β) : (Prog.done a).bind g = g a := rfl
@[simp] theorem act_bind {γ : Type} (f : σ → σ × γ) (k : γ → Prog σ α) (g : α → Prog σ β) :
    (Prog.act f k).bind g = .act f fun b => (k b).bind g := rfl
@[simp] theorem read_bind (f : σ → β) (g : β → Prog σ α) :
    (read f).bind g = .act (fun s => (s, f s)) g := rfl
@[simp] theorem update_bind (f : σ → σ) (g : Unit → Prog σ α) :
    (update f).bind g = .act (fun s => (f s, ())) g := rfl
@[simp] theorem atomic_bind (f : σ → σ × β) (g : β → Prog σ α) : (atomic f).bind g = .act f g := rfl

@[simp] theorem exec_done (a : α) (s : σ) : (Prog.done a).exec s = (s, a) := rfl
@[simp] theorem exec_act {γ : Type} (f : σ → σ × γ) (k : γ → Prog σ α) (s : σ) :
    (Prog.act f k).exec s = (k (f s).2).exec (f s).1 := rfl
@[simp] theorem exec_read (f : σ → β) (s : σ) : (read f).exec s = (s, f s) := rfl
@[simp] theorem exec_update (f : σ → σ) (s : σ) : (update f).exec s = (f s, ()) := rfl
@[simp] theorem exec_atomic (f : σ → σ × β) (s : σ) : (atomic f).exec s = f s := rfl

@[simp] theorem exec_bind (p : Prog σ α) (g : α → Prog σ β) (s : σ) :
    (p.bind g).exec s = (g (p.exec s).2).exec (p.exec s).1 := by
  induction p generalizing s with
  | done a => rfl
  | act f k ih => exact ih _ _

/-- From `s`, and with interference `R` before every action and at the end, each
action of the program keeps the guarantee `G` and the program ends in `Q`. -/
def Safe (R G : σ → σ → Prop) (Q : α → σ → Prop) : Prog σ α → σ → Prop
  | .done a, s => ∀ s', R s s' → Q a s'
  | .act f k, s => ∀ s', R s s' → G s' (f s').1 ∧ (k (f s').2).Safe R G Q (f s').1

variable {R G : σ → σ → Prop} {Q : α → σ → Prop}

theorem safe_read_bind {f : σ → β} {k : β → Prog σ α} {s : σ}
    (h : ∀ s', R s s' → G s' s' ∧ (k (f s')).Safe R G Q s') : (read f >>= k).Safe R G Q s := h

theorem safe_update_bind {f : σ → σ} {k : Unit → Prog σ α} {s : σ}
    (h : ∀ s', R s s' → G s' (f s') ∧ (k ()).Safe R G Q (f s')) :
    (update f >>= k).Safe R G Q s := h

theorem safe_atomic_bind {f : σ → σ × β} {k : β → Prog σ α} {s : σ}
    (h : ∀ s', R s s' → G s' (f s').1 ∧ (k (f s').2).Safe R G Q (f s').1) :
    (atomic f >>= k).Safe R G Q s := h

theorem safe_update {f : σ → σ} {Q : Unit → σ → Prop} {s : σ}
    (h : ∀ s', R s s' → G s' (f s') ∧ ∀ t, R (f s') t → Q () t) : (update f).Safe R G Q s := h

/-- A weaker guarantee and a weaker result follow from stronger ones. -/
theorem Safe.mono {G' : σ → σ → Prop} {Q' : α → σ → Prop} {p : Prog σ α} {s : σ}
    (hG : ∀ a b, G a b → G' a b) (hQ : ∀ a t, Q a t → Q' a t) (h : p.Safe R G Q s) :
    p.Safe R G' Q' s := by
  induction p generalizing s with
  | done a => exact fun s' hr => hQ a s' (h s' hr)
  | act f k ih =>
    intro s' hr
    obtain ⟨hg, hk⟩ := h s' hr
    exact ⟨hG _ _ hg, ih _ hk⟩

/-- Interference that has already happened does no harm. -/
theorem Safe.rely {p : Prog σ α} {s t : σ} (htrans : ∀ a b c, R a b → R b c → R a c)
    (h : p.Safe R G Q s) (hr : R s t) : p.Safe R G Q t := by
  cases p with
  | done a => exact fun s' hr' => h s' (htrans _ _ _ hr hr')
  | act f k => exact fun s' hr' => h s' (htrans _ _ _ hr hr')

theorem Safe.bind {Q' : β → σ → Prop} {p : Prog σ α} {g : α → Prog σ β} {s : σ}
    (hrefl : ∀ a, R a a) (h : p.Safe R G (fun a t => (g a).Safe R G Q' t) s) :
    (p.bind g).Safe R G Q' s := by
  induction p generalizing s with
  | done a => exact h s (hrefl s)
  | act f k ih =>
    intro s' hr
    obtain ⟨hg, hk⟩ := h s' hr
    exact ⟨hg, ih _ hk⟩

/-- Two results proved of one program hold together. -/
theorem Safe.and {G' : σ → σ → Prop} {Q' : α → σ → Prop} {p : Prog σ α} {s : σ}
    (h : p.Safe R G Q s) (h' : p.Safe R G' Q' s) :
    p.Safe R (fun a b => G a b ∧ G' a b) (fun a t => Q a t ∧ Q' a t) s := by
  induction p generalizing s with
  | done a => exact fun s' hr => ⟨h s' hr, h' s' hr⟩
  | act f k ih =>
    intro s' hr
    obtain ⟨hg, hk⟩ := h s' hr
    obtain ⟨hg', hk'⟩ := h' s' hr
    exact ⟨⟨hg, hg'⟩, ih _ hk hk'⟩

/-- What the others and the guaranteed actions keep still holds in the end. -/
theorem Safe.invariant {P : σ → Prop} {p : Prog σ α} {s : σ} (hR : ∀ a b, R a b → P a → P b)
    (hG : ∀ a b, G a b → P a → P b) (h : p.Safe R G Q s) (hs : P s) :
    p.Safe R G (fun a t => Q a t ∧ P t) s := by
  induction p generalizing s with
  | done a => exact fun s' hr => ⟨h s' hr, hR _ _ hr hs⟩
  | act f k ih =>
    intro s' hr
    obtain ⟨hg, hk⟩ := h s' hr
    exact ⟨hg, ih _ hk (hG _ _ hg (hR _ _ hr hs))⟩

/-- Run alone, a safe program ends in its result. -/
theorem Safe.exec {p : Prog σ α} {s : σ} (hrefl : ∀ a, R a a) (h : p.Safe R G Q s) :
    Q (p.exec s).2 (p.exec s).1 := by
  induction p generalizing s with
  | done a => exact h s (hrefl s)
  | act f k ih => exact ih _ (h s (hrefl s)).2

/-- Run alone, a safe program moves the state by guaranteed actions only. -/
theorem Safe.exec_guarantee {p : Prog σ α} {s : σ} (hrefl : ∀ a, R a a) (h : p.Safe R G Q s) :
    Relation.ReflTransGen G s (p.exec s).1 := by
  induction p generalizing s with
  | done a => exact .refl
  | act f k ih =>
    obtain ⟨hg, hk⟩ := h s (hrefl s)
    exact (Relation.ReflTransGen.single hg).trans (ih _ hk)

/-- Every action of the program keeps the guarantee, whatever state it is done in. -/
def Always (G : σ → σ → Prop) : Prog σ α → Prop
  | .done _ => True
  | .act f k => (∀ s, G s (f s).1) ∧ ∀ b, (k b).Always G

theorem always_pure (a : α) : (pure a : Prog σ α).Always G := trivial

theorem always_act {γ : Type} {f : σ → σ × γ} {k : γ → Prog σ α} (h : ∀ s, G s (f s).1)
    (hk : ∀ b, (k b).Always G) : (Prog.act f k).Always G := ⟨h, hk⟩

theorem always_update {f : σ → σ} (h : ∀ s, G s (f s)) : (update f).Always G :=
  ⟨h, fun _ => trivial⟩

theorem Always.mono {G' : σ → σ → Prop} {p : Prog σ α} (hG : ∀ a b, G a b → G' a b)
    (h : p.Always G) : p.Always G' := by
  induction p with
  | done a => trivial
  | act f k ih => exact ⟨fun s => hG _ _ (h.1 s), fun b => ih b (h.2 b)⟩

theorem Always.safe {p : Prog σ α} (h : p.Always G) (s : σ) : p.Safe R G (fun _ _ => True) s := by
  induction p generalizing s with
  | done a => exact fun _ _ => trivial
  | act f k ih => exact fun s' _ => ⟨h.1 s', ih _ (h.2 _) _⟩

end Prog

/-- A shared state and the one program that is running on it. -/
structure Config (σ : Type) where
  shared : σ
  running : Prog σ Unit

namespace Config

variable {σ : Type}

/-- The program that was started last has finished. -/
def idle (c : Config σ) : Bool :=
  match c.running with
  | .done _ => true
  | .act _ _ => false

/-- One program starts after another: nothing happens while one is running. -/
def start (c : Config σ) (p : Prog σ Unit) : Config σ := if c.idle then ⟨c.shared, p⟩ else c

/-- One action of the running program. -/
def advance (c : Config σ) : Config σ :=
  match c.running with
  | .done _ => c
  | .act f k => ⟨(f c.shared).1, k (f c.shared).2⟩

/-- One atomic step of another party. -/
def interfere (c : Config σ) (f : σ → σ) : Config σ := ⟨f c.shared, c.running⟩

@[simp] theorem start_shared (c : Config σ) (p : Prog σ Unit) : (c.start p).shared = c.shared := by
  unfold start
  split <;> rfl

@[simp] theorem interfere_shared (c : Config σ) (f : σ → σ) :
    (c.interfere f).shared = f c.shared := rfl
@[simp] theorem interfere_running (c : Config σ) (f : σ → σ) :
    (c.interfere f).running = c.running := rfl

theorem start_of_idle {c : Config σ} (h : c.idle = true) (p : Prog σ Unit) :
    c.start p = ⟨c.shared, p⟩ := by simp [start, h]

theorem start_of_busy {c : Config σ} (h : c.idle = false) (p : Prog σ Unit) : c.start p = c := by
  simp [start, h]

theorem running_of_idle {c : Config σ} (h : c.idle = true) : c.running = .done () := by
  unfold idle at h
  split at h
  · assumption
  · cases h

/-- What one action of the running program can do. -/
theorem advance_cases (c : Config σ) :
    (c.idle = true ∧ c.advance = c) ∨
      ∃ (β : Type) (f : σ → σ × β) (k : β → Prog σ Unit), c.running = .act f k ∧ c.idle = false ∧
        c.advance = ⟨(f c.shared).1, k (f c.shared).2⟩ := by
  obtain ⟨s, p⟩ := c
  cases p with
  | done a => exact .inl ⟨rfl, rfl⟩
  | act f k => exact .inr ⟨_, f, k, rfl, rfl, rfl⟩

section rely

variable {R G : σ → σ → Prop} {Q : Unit → σ → Prop}

theorem safe_advance {c : Config σ} (hrefl : ∀ a, R a a) (h : c.running.Safe R G Q c.shared) :
    c.advance.running.Safe R G Q c.advance.shared := by
  obtain ⟨-, he⟩ | ⟨β, f, k, hp, -, he⟩ := c.advance_cases
  · rwa [he]
  · rw [hp] at h
    rw [he]
    exact (h c.shared (hrefl _)).2

theorem guarantee_advance {c : Config σ} (hrefl : ∀ a, R a a)
    (h : c.running.Safe R G Q c.shared) :
    c.advance.shared = c.shared ∨ G c.shared c.advance.shared := by
  obtain ⟨-, he⟩ | ⟨β, f, k, hp, -, he⟩ := c.advance_cases
  · exact .inl (by rw [he])
  · rw [hp] at h
    rw [he]
    exact .inr (h c.shared (hrefl _)).1

theorem safe_interfere {c : Config σ} {f : σ → σ} (htrans : ∀ a b c, R a b → R b c → R a c)
    (h : c.running.Safe R G Q c.shared) (hr : R c.shared (f c.shared)) :
    (c.interfere f).running.Safe R G Q (c.interfere f).shared := h.rely htrans hr

/-- A finished program has reached its result. -/
theorem result_of_idle {c : Config σ} (hrefl : ∀ a, R a a) (hi : c.idle = true)
    (h : c.running.Safe R G Q c.shared) : Q () c.shared := by
  rw [running_of_idle hi] at h
  exact h c.shared (hrefl _)

end rely

section tracked

variable {R : σ → σ → Prop} {G : σ → σ → σ → Prop} {Rest P : σ → Prop}

/-- `Rest` holds between programs and `P` always. The guarantee `G` of a program may
speak about the state in which the program was started. -/
structure Tracked (R : σ → σ → Prop) (G : σ → σ → σ → Prop) (Rest P : σ → Prop)
    (c : Config σ) : Prop where
  holds : P c.shared
  safe : ∃ s₀, Rest s₀ ∧ P s₀ ∧ c.running.Safe R (G s₀) (fun _ => Rest) c.shared

theorem tracked_init {s : σ} (hrest : Rest s) (hp : P s) (hstable : ∀ t, R s t → Rest t) :
    Tracked R G Rest P ⟨s, .done ()⟩ := ⟨hp, s, hrest, hp, hstable⟩

theorem Tracked.rest {c : Config σ} (h : c.Tracked R G Rest P) (hrefl : ∀ a, R a a)
    (hi : c.idle = true) : Rest c.shared := by
  obtain ⟨s₀, -, -, hsafe⟩ := h.safe
  exact result_of_idle hrefl hi hsafe

theorem Tracked.start {c : Config σ} {p : Prog σ Unit} (h : c.Tracked R G Rest P)
    (hrefl : ∀ a, R a a) (hp : c.idle = true → Rest c.shared → P c.shared →
      p.Safe R (G c.shared) (fun _ => Rest) c.shared) : (c.start p).Tracked R G Rest P := by
  cases hi : c.idle with
  | true =>
    rw [start_of_idle hi]
    have hrest := h.rest hrefl hi
    exact ⟨h.holds, c.shared, hrest, h.holds, hp hi hrest h.holds⟩
  | false => rwa [start_of_busy hi]

theorem Tracked.advance {c : Config σ} (h : c.Tracked R G Rest P) (hrefl : ∀ a, R a a)
    (hG : ∀ s₀ s s', Rest s₀ → P s₀ → P s → G s₀ s s' → P s') :
    c.advance.Tracked R G Rest P := by
  obtain ⟨s₀, hrest, hp, hsafe⟩ := h.safe
  refine ⟨?_, s₀, hrest, hp, safe_advance hrefl hsafe⟩
  rcases guarantee_advance hrefl hsafe with he | hg
  · rw [he]
    exact h.holds
  · exact hG s₀ _ _ hrest hp h.holds hg

theorem Tracked.interfere {c : Config σ} {f : σ → σ} (h : c.Tracked R G Rest P)
    (htrans : ∀ a b c, R a b → R b c → R a c) (hr : R c.shared (f c.shared))
    (hf : P c.shared → P (f c.shared)) : (c.interfere f).Tracked R G Rest P := by
  obtain ⟨s₀, hrest, hp, hsafe⟩ := h.safe
  exact ⟨hf h.holds, s₀, hrest, hp, safe_interfere htrans hsafe hr⟩

end tracked

/-- The sequential reading is the interleaved one with nobody interfering. -/
theorem exec_eq_iterate (p : Prog σ Unit) (s : σ) :
    ∃ n, (advance^[n]) ⟨s, p⟩ = ⟨(p.exec s).1, .done ()⟩ := by
  induction p generalizing s with
  | done a => exact ⟨0, rfl⟩
  | act f k ih =>
    obtain ⟨n, hn⟩ := ih (f s).2 (f s).1
    refine ⟨n + 1, ?_⟩
    rw [Function.iterate_succ_apply]
    exact hn

end Config

end Atomic
