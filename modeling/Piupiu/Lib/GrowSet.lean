import Mathlib

/-!
# A grow-only set and its replica

A source sends each element that it adds to its set. The channel delivers what was
ever sent, in any order, any number of times or never, and the replica adds what
comes out of it.
-/
namespace GrowSet

variable {α : Type*}

structure Link (α : Type*) where
  source : Set α
  sent : Set α
  replica : Set α
  seen : Set α

inductive Step (l : Link α) : Link α → Prop
  | add (a : α) : Step l { l with source := insert a l.source, sent := insert a l.sent }
  | deliver (a : α) (h : a ∈ l.sent) :
    Step l { l with replica := insert a l.replica, seen := insert a l.seen }

/-- What both ends had before the first element was sent. -/
structure Tracks (initial : Set α) (l : Link α) : Prop where
  source : l.source = initial ∪ l.sent
  replica : l.replica = initial ∪ l.seen
  seen : l.seen ⊆ l.sent

variable {initial : Set α} {l l' : Link α}

theorem Tracks.step (h : Tracks initial l) (hstep : Step l l') : Tracks initial l' := by
  cases hstep with
  | add a =>
    constructor
    · simp only [h.source, Set.union_insert]
    · exact h.replica
    · exact h.seen.trans (Set.subset_insert a l.sent)
  | deliver a ha =>
    constructor
    · exact h.source
    · simp only [h.replica, Set.union_insert]
    · exact Set.insert_subset ha h.seen

theorem Tracks.run (h : Tracks initial l) (hsteps : Relation.ReflTransGen Step l l') :
    Tracks initial l' := by
  induction hsteps with
  | refl => exact h
  | tail _ hstep ih => exact ih.step hstep

/-- The replica is never ahead of its source. -/
theorem Tracks.subset (h : Tracks initial l) : l.replica ⊆ l.source := by
  rw [h.source, h.replica]
  exact Set.union_subset_union_right initial h.seen

/-- The replica has caught up once everything sent has come out. -/
theorem Tracks.converged (h : Tracks initial l) (hall : l.sent ⊆ l.seen) :
    l.replica = l.source := by
  rw [h.source, h.replica, hall.antisymm h.seen]

end GrowSet
