import Mathlib

/-!
# Batches

Values arrive one by one, and from time to time all that came since the last time
are taken away at once. What is taken loses and repeats nothing, whatever the order
of arrivals and drains; sorting each batch sorts the whole exactly when no value
arrives after a drain that took a larger one.
-/
namespace Batches

variable {α : Type}

inductive Event (α : Type) where
  | arrive (a : α)
  | drain
  deriving DecidableEq

/-- What waits for the next drain, and the batches that were taken, first one first. -/
structure Buffer (α : Type) where
  waiting : List α
  taken : List (List α)

namespace Buffer

def empty : Buffer α := ⟨[], []⟩

def step (b : Buffer α) : Event α → Buffer α
  | .arrive a => { b with waiting := b.waiting ++ [a] }
  | .drain => ⟨[], b.taken ++ [b.waiting]⟩

end Buffer

def run (events : List (Event α)) : Buffer α := events.foldl Buffer.step .empty

def Event.arrival? : Event α → Option α
  | .arrive a => some a
  | .drain => none

def arrivals (events : List (Event α)) : List α := events.filterMap Event.arrival?

@[simp] theorem run_nil : run ([] : List (Event α)) = .empty := rfl

@[simp] theorem run_concat (events : List (Event α)) (e : Event α) :
    run (events ++ [e]) = (run events).step e := by
  simp [run]

@[simp] theorem arrivals_nil : arrivals ([] : List (Event α)) = [] := rfl

@[simp] theorem arrivals_arrive (events : List (Event α)) (a : α) :
    arrivals (events ++ [.arrive a]) = arrivals events ++ [a] := by
  simp [arrivals, Event.arrival?]

@[simp] theorem arrivals_drain (events : List (Event α)) :
    arrivals (events ++ [.drain]) = arrivals events := by
  simp [arrivals, Event.arrival?]

/-- Nothing is lost, repeated or reordered on the way into the batches. -/
theorem run_conserves (events : List (Event α)) :
    (run events).taken.flatten ++ (run events).waiting = arrivals events := by
  induction events using List.reverseRecOn with
  | nil => rfl
  | append_singleton events e ih =>
    cases e with
    | arrive a => simp [Buffer.step, ← ih]
    | drain => simpa [Buffer.step] using ih

/-- What arrived after the last drain. -/
def sinceDrain (events : List (Event α)) : List α :=
  arrivals (events.rtakeWhile fun e => e.arrival?.isSome)

theorem run_waiting (events : List (Event α)) : (run events).waiting = sinceDrain events := by
  induction events using List.reverseRecOn with
  | nil => rfl
  | append_singleton events e ih =>
    rw [run_concat, sinceDrain]
    cases e with
    | arrive a =>
      rw [List.rtakeWhile_concat_pos _ _ _ rfl, arrivals_arrive]
      exact congrArg (· ++ [a]) ih
    | drain =>
      rw [List.rtakeWhile_concat_neg _ _ _ (by simp [Event.arrival?])]
      rfl

theorem sublist_concat {e d : Event α} (front events : List (Event α)) (h : e ≠ d) :
    (front ++ [e]).Sublist (events ++ [d]) ↔ (front ++ [e]).Sublist events := by
  constructor
  · intro hs
    obtain ⟨first, last, he, hfirst, hlast⟩ := List.sublist_append_iff.mp hs
    obtain rfl | ⟨rest, x, rfl⟩ := List.eq_nil_or_concat' last
    · rwa [he, List.append_nil]
    · rw [← List.append_assoc] at he
      have hx := List.append_inj_right' he rfl
      have hmem := hlast.subset (List.mem_append_right rest (List.mem_singleton_self x))
      rw [List.mem_singleton] at hmem
      rw [List.singleton_inj] at hx
      exact absurd (hx.trans hmem) h
  · exact fun hs => hs.trans (List.sublist_append_left events [d])

theorem sublist_concat_self {e : Event α} (front events : List (Event α)) :
    (front ++ [e]).Sublist (events ++ [e]) ↔ front.Sublist events :=
  List.append_sublist_append_right [e]

theorem arrive_sublist (events : List (Event α)) (a : α) :
    [.arrive a].Sublist events ↔ a ∈ arrivals events := by
  rw [List.singleton_sublist, arrivals, List.mem_filterMap]
  constructor
  · exact fun h => ⟨_, h, rfl⟩
  · rintro ⟨e, he, hm⟩
    cases e with
    | arrive b =>
      cases hm
      exact he
    | drain => cases hm

/-- A value was taken when a drain came after it. -/
theorem mem_taken (events : List (Event α)) (a : α) :
    a ∈ (run events).taken.flatten ↔ [.arrive a, .drain].Sublist events := by
  induction events using List.reverseRecOn with
  | nil => simp [Buffer.empty]
  | append_singleton events e ih =>
    cases e with
    | arrive b =>
      have hsub := sublist_concat (d := .arrive b) [.arrive a] events (e := .drain) nofun
      rw [List.singleton_append] at hsub
      rw [hsub, run_concat]
      exact ih
    | drain =>
      have hsub := sublist_concat_self (e := .drain) [.arrive a] events
      rw [List.singleton_append] at hsub
      rw [hsub, arrive_sublist, run_concat, ← run_conserves]
      simp [Buffer.step]

variable {R : α → α → Prop}

/-- Each value of a batch stands in the relation to each value of a later one. -/
def Apart (R : α → α → Prop) (batches : List (List α)) : Prop :=
  batches.Pairwise fun l l' => ∀ a ∈ l, ∀ b ∈ l', R a b

theorem apart_concat (batches : List (List α)) (l : List α) :
    Apart R (batches ++ [l]) ↔ Apart R batches ∧ ∀ a ∈ batches.flatten, ∀ b ∈ l, R a b := by
  simp only [Apart, List.pairwise_append, List.pairwise_singleton, true_and, List.mem_singleton,
    forall_eq, List.mem_flatten]
  refine and_congr_right fun _ => ⟨?_, ?_⟩
  · rintro h a ⟨l', hl', ha⟩
    exact h l' hl' a ha
  · exact fun h l' hl' a ha => h a ⟨l', hl', ha⟩

/-- The batches and what waits are apart exactly when the values on the two sides
of each drain are related. -/
theorem apart_waiting_iff (events : List (Event α)) :
    Apart R ((run events).taken ++ [(run events).waiting]) ↔
      ∀ a b, [.arrive a, .drain, .arrive b].Sublist events → R a b := by
  induction events using List.reverseRecOn with
  | nil => simp [Apart, Buffer.empty]
  | append_singleton events e ih =>
    cases e with
    | arrive c =>
      have hsub : ∀ a b, [.arrive a, .drain, .arrive b].Sublist (events ++ [.arrive c]) ↔
          [.arrive a, .drain, .arrive b].Sublist events ∨
            (b = c ∧ a ∈ (run events).taken.flatten) := by
        intro a b
        by_cases hb : b = c
        · have hlast := sublist_concat_self (e := .arrive c) [.arrive a, .drain] events
          rw [List.cons_append, List.singleton_append] at hlast
          rw [hb, hlast, ← mem_taken]
          refine ⟨fun h => .inr ⟨rfl, h⟩, fun h => h.elim (fun hs => ?_) And.right⟩
          rw [mem_taken]
          have hfront : [Event.arrive a, .drain].Sublist [.arrive a, .drain, .arrive c] :=
            List.sublist_append_left _ _
          exact hfront.trans hs
        · have hlast := sublist_concat (e := .arrive b) (d := .arrive c) [.arrive a, .drain] events
            fun h => hb (Event.arrive.inj h)
          rw [List.cons_append, List.singleton_append] at hlast
          simp [hlast, hb]
      simp only [hsub, or_imp, forall_and, ← ih, run_concat, Buffer.step, apart_concat]
      rw [and_assoc]
      refine and_congr_right fun _ => ?_
      simp only [List.mem_append, List.mem_singleton, or_imp, forall_and]
      refine and_congr_right fun _ => ⟨?_, ?_⟩
      · rintro h a b ⟨rfl, ha⟩
        exact h a ha b rfl
      · rintro h a ha b rfl
        exact h a b ⟨rfl, ha⟩
    | drain =>
      have hsub : ∀ a b, [.arrive a, .drain, .arrive b].Sublist (events ++ [.drain]) ↔
          [.arrive a, .drain, .arrive b].Sublist events := fun a b =>
        sublist_concat (e := .arrive b) (d := .drain) [.arrive a, .drain] events nofun
      simp only [hsub, ← ih, run_concat, Buffer.step, apart_concat]
      simp

/-- The batches are apart exactly when the values that two drains took one after
the other are related. -/
theorem apart_iff (events : List (Event α)) :
    Apart R (run events).taken ↔
      ∀ a b, [.arrive a, .drain, .arrive b, .drain].Sublist events → R a b := by
  induction events using List.reverseRecOn with
  | nil => simp [Apart, Buffer.empty]
  | append_singleton events e ih =>
    cases e with
    | arrive c =>
      have hsub : ∀ a b, [.arrive a, .drain, .arrive b, .drain].Sublist (events ++ [.arrive c]) ↔
          [.arrive a, .drain, .arrive b, .drain].Sublist events := fun a b =>
        sublist_concat (e := .drain) (d := .arrive c) [.arrive a, .drain, .arrive b] events nofun
      simp only [hsub, ← ih, run_concat, Buffer.step]
    | drain =>
      have hsub : ∀ a b, [.arrive a, .drain, .arrive b, .drain].Sublist (events ++ [.drain]) ↔
          [.arrive a, .drain, .arrive b].Sublist events := fun a b =>
        sublist_concat_self (e := .drain) [.arrive a, .drain, .arrive b] events
      simp only [hsub, ← apart_waiting_iff, run_concat, Buffer.step]

/-- What a sort by a comparator promises: all the values again, and none that is
less than one before it. Equivalent values may come out in any order. -/
structure Sorter (less : α → α → Bool) where
  sort : List α → List α
  perm : ∀ l, (sort l).Perm l
  sorted : ∀ l, (sort l).Pairwise fun a b => less b a = false

variable {less : α → α → Bool}

/-- What was taken, batch by batch in the order of the sort. -/
def handed (s : Sorter less) (events : List (Event α)) : List (List α) :=
  (run events).taken.map s.sort

theorem handed_perm (s : Sorter less) (events : List (Event α)) :
    (handed s events).flatten.Perm (run events).taken.flatten := by
  unfold handed
  induction (run events).taken with
  | nil => exact List.Perm.refl _
  | cons l taken ih => exact (s.perm l).append ih

/-- Sorting the batches conserves the values. -/
theorem handed_conserves (s : Sorter less) (events : List (Event α)) :
    ((handed s events).flatten ++ (run events).waiting).Perm (arrivals events) := by
  rw [← run_conserves]
  exact (handed_perm s events).append_right _

theorem apart_handed (s : Sorter less) (events : List (Event α)) :
    Apart R (handed s events) ↔ Apart R (run events).taken := by
  simp only [Apart, handed, List.pairwise_map, (s.perm _).mem_iff]

/-- Of values that are all comparable, what is handed on is in order exactly when
no value arrives after a drain that took a larger one, and is taken itself. -/
theorem handed_sorted_iff (s : Sorter less) (events : List (Event α))
    (hdistinct : (arrivals events).Pairwise fun a b => less a b = true ∨ less b a = true) :
    (handed s events).flatten.Pairwise (fun a b => less a b = true) ↔
      ∀ a b, [.arrive a, .drain, .arrive b, .drain].Sublist events → less a b = true := by
  have hbatches : ∀ l ∈ handed s events, l.Pairwise fun a b => less a b = true := by
    intro l hl
    obtain ⟨l, htaken, rfl⟩ := List.mem_map.mp hl
    rw [← run_conserves] at hdistinct
    have hbatch := (List.pairwise_flatten.mp (List.pairwise_append.mp hdistinct).1).1 l htaken
    have hsorted := ((s.perm l).pairwise_iff fun h => h.symm).mpr hbatch
    refine (hsorted.and (s.sorted l)).imp fun h => h.1.resolve_right fun hba => ?_
    rw [h.2] at hba
    cases hba
  rw [List.pairwise_flatten, and_iff_right hbatches, ← apart_iff, ← apart_handed s]
  rfl

end Batches
