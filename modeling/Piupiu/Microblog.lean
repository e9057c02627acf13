import Piupiu.Lib.History

/-!
# A microblog

What a server is for, without its pointers, its file and its threads: users have
devices and followers, and a post waits until its reader has a device. A request
takes effect at once. Users, devices and bodies are of any types; a device that is
there for several users speaks for the first of them in the order of the users.
-/
namespace Piupiu

open History

inductive Request (U M : Type) where
  | connect (user : U)
  | disconnect (user : U)
  | follow (user : U)
  | send (body : M)

structure Post (U M : Type) where
  author : U
  body : M
  reader : U

/-- `outgoing` are the posts of the last sender that do not wait yet. -/
structure Microblog (U A M : Type) where
  users : Set U
  devices : U → List A
  followers : U → List U
  outgoing : List (Post U M)
  waiting : List (Post U M)
  shown : List (A × Post U M)

namespace Microblog

variable {U A M : Type}

def empty : Microblog U A M := ⟨∅, fun _ => [], fun _ => [], [], [], []⟩

/-- What can happen: a request, a post begins to wait, or the post in front gets its turn. -/
inductive Op (U A M : Type) where
  | request (r : Request U M) (device : A)
  | queue
  | turn

def queue (b : Microblog U A M) : Microblog U A M :=
  match b.outgoing with
  | [] => b
  | p :: rest => { b with outgoing := rest, waiting := b.waiting ++ [p] }

theorem queue_cases (b : Microblog U A M) : b.queue = b ∨ ∃ p rest, b.outgoing = p :: rest ∧
    b.queue = { b with outgoing := rest, waiting := b.waiting ++ [p] } := by
  unfold queue
  split
  · exact .inl rfl
  · next p rest hout => exact .inr ⟨p, rest, hout, rfl⟩

/-- The post in front is shown on all devices of its reader, or goes to the end. -/
def turn (b : Microblog U A M) : Microblog U A M :=
  match b.waiting with
  | [] => b
  | p :: rest =>
    if b.devices p.reader = [] then { b with waiting := rest ++ [p] }
    else { b with waiting := rest, shown := b.shown ++ (b.devices p.reader).map fun a => (a, p) }

theorem turn_cases (b : Microblog U A M) : b.turn = b ∨ ∃ p rest, b.waiting = p :: rest ∧
    (b.turn = { b with waiting := rest ++ [p] } ∨
      b.turn = { b with
        waiting := rest, shown := b.shown ++ (b.devices p.reader).map fun a => (a, p) }) := by
  unfold turn
  split
  · exact .inl rfl
  · next p rest hwait =>
    refine .inr ⟨p, rest, hwait, ?_⟩
    split
    · exact .inl rfl
    · exact .inr rfl

section order

variable [Ord U]

/-- The first user that the device is there for. -/
def Speaks (b : Microblog U A M) (a : A) (u : U) : Prop :=
  a ∈ b.devices u ∧ ∀ v, compare v u = .lt → a ∉ b.devices v

open Classical in
noncomputable def speaker (b : Microblog U A M) (a : A) : Option U :=
  if h : ∃ u, b.Speaks a u then some h.choose else none

theorem Speaks.unique [Std.OrientedOrd U] [Std.LawfulEqOrd U] {b : Microblog U A M} {a : A} {u v : U}
    (hu : b.Speaks a u) (hv : b.Speaks a v) : u = v := by
  cases hc : compare u v with
  | lt => exact absurd hu.1 (hv.2 u hc)
  | eq => exact Std.LawfulEqOrd.compare_eq_iff_eq.mp hc
  | gt => exact absurd hv.1 (hu.2 v (Std.OrientedCmp.lt_of_gt hc))

theorem speaker_eq_some [Std.OrientedOrd U] [Std.LawfulEqOrd U] {b : Microblog U A M} {a : A} {u : U} :
    b.speaker a = some u ↔ b.Speaks a u := by
  unfold speaker
  split
  · next h =>
    have hchosen := h.choose_spec
    constructor
    · intro he
      rwa [← Option.some.inj he]
    · intro hu
      rw [hchosen.unique hu]
  · next h =>
    constructor
    · intro he
      cases he
    · exact fun hu => absurd ⟨u, hu⟩ h

open Classical in
noncomputable def follow [DecidableEq U] (b : Microblog U A M) (u : U) (a : A) : Microblog U A M :=
  match b.speaker a with
  | some v =>
    if u ≠ v ∧ u ∈ b.users ∧ v ∉ b.followers u then
      { b with followers := Function.update b.followers u (b.followers u ++ [v]) }
    else b
  | none => b

theorem follow_cases [DecidableEq U] [Std.OrientedOrd U] [Std.LawfulEqOrd U] (b : Microblog U A M) (u : U) (a : A) :
    b.follow u a = b ∨ ∃ v, b.Speaks a v ∧ u ≠ v ∧
      b.follow u a = { b with followers := Function.update b.followers u (b.followers u ++ [v]) } := by
  unfold follow
  split
  · next v hv =>
    split
    · next hnew => exact .inr ⟨v, speaker_eq_some.mp hv, hnew.1, rfl⟩
    · exact .inl rfl
  · exact .inl rfl

noncomputable def send (b : Microblog U A M) (body : M) (a : A) : Microblog U A M :=
  match b.speaker a with
  | some v => { b with outgoing := b.outgoing ++ (b.followers v).map fun r => ⟨v, body, r⟩ }
  | none => b

theorem send_cases [Std.OrientedOrd U] [Std.LawfulEqOrd U] (b : Microblog U A M) (body : M) (a : A) :
    b.send body a = b ∨ ∃ v, b.Speaks a v ∧ b.send body a =
      { b with outgoing := b.outgoing ++ (b.followers v).map fun r => ⟨v, body, r⟩ } := by
  unfold send
  split
  · next v hv => exact .inr ⟨v, speaker_eq_some.mp hv, rfl⟩
  · exact .inl rfl

end order

section machine

variable [DecidableEq U] [DecidableEq A]

def connect (capacity : Nat) (b : Microblog U A M) (u : U) (a : A) : Microblog U A M :=
  { b with
    users := insert u b.users
    devices := if (b.devices u).length < capacity then
      Function.update b.devices u (b.devices u ++ [a]) else b.devices }

def disconnect (b : Microblog U A M) (u : U) (a : A) : Microblog U A M :=
  { b with devices := Function.update b.devices u ((b.devices u).erase a) }

noncomputable def request [Ord U] (capacity : Nat) (b : Microblog U A M) (a : A) :
    Request U M → Microblog U A M
  | .connect u => b.connect capacity u a
  | .disconnect u => b.disconnect u a
  | .follow u => b.follow u a
  | .send body => b.send body a

noncomputable def apply [Ord U] (capacity : Nat) (b : Microblog U A M) :
    Op U A M → Microblog U A M
  | .request r a => b.request capacity a r
  | .queue => b.queue
  | .turn => b.turn

noncomputable def run [Ord U] (capacity : Nat) (ops : List (Op U A M)) : Microblog U A M :=
  ops.foldl (apply capacity) empty

/-- No request moves a post that waits or was shown. -/
theorem request_waiting [Ord U] [Std.OrientedOrd U] [Std.LawfulEqOrd U] (capacity : Nat)
    (b : Microblog U A M) (a : A) (r : Request U M) :
    (b.request capacity a r).waiting = b.waiting ∧ (b.request capacity a r).shown = b.shown := by
  cases r with
  | connect | disconnect => exact ⟨rfl, rfl⟩
  | follow u =>
    obtain he | ⟨v, -, -, he⟩ := b.follow_cases u a <;> simp only [request, he, and_self]
  | send body =>
    obtain he | ⟨v, -, he⟩ := b.send_cases body a <;> simp only [request, he, and_self]

section came

variable [Ord U] [Std.OrientedOrd U] [Std.LawfulEqOrd U] {capacity : Nat}
  {b : Microblog U A M} {op : Op U A M} {a : A} {u v : U}

theorem apply_devices (h : a ∈ (b.apply capacity op).devices u) :
    a ∈ b.devices u ∨ op = .request (.connect u) a := by
  cases op with
  | request r a' =>
    cases r with
    | connect u' =>
      simp only [apply, request, connect] at h
      split at h
      · by_cases hu : u = u'
        · subst hu
          rw [Function.update_self, List.mem_append, List.mem_singleton] at h
          exact h.imp_right fun ha => by rw [ha]
        · rw [Function.update_of_ne hu] at h
          exact .inl h
      · exact .inl h
    | disconnect u' =>
      simp only [apply, request, disconnect] at h
      by_cases hu : u = u'
      · subst hu
        rw [Function.update_self] at h
        exact .inl (List.mem_of_mem_erase h)
      · rw [Function.update_of_ne hu] at h
        exact .inl h
    | follow u' =>
      obtain he | ⟨v, -, -, he⟩ := b.follow_cases u' a' <;> simp only [apply, request, he] at h <;>
        exact .inl h
    | send body =>
      obtain he | ⟨v, -, he⟩ := b.send_cases body a' <;> simp only [apply, request, he] at h <;>
        exact .inl h
  | queue =>
    obtain he | ⟨p, rest, -, he⟩ := b.queue_cases <;> simp only [apply, he] at h <;> exact .inl h
  | turn =>
    obtain he | ⟨p, rest, -, he | he⟩ := b.turn_cases <;> simp only [apply, he] at h <;> exact .inl h

theorem apply_followers (h : v ∈ (b.apply capacity op).followers u) :
    v ∈ b.followers u ∨ ∃ a, op = .request (.follow u) a ∧ b.Speaks a v ∧ u ≠ v := by
  cases op with
  | request r a' =>
    cases r with
    | connect | disconnect => exact .inl h
    | follow u' =>
      obtain he | ⟨v', hv', hne, he⟩ := b.follow_cases u' a' <;> simp only [apply, request, he] at h
      · exact .inl h
      · by_cases hu : u = u'
        · subst hu
          rw [Function.update_self, List.mem_append, List.mem_singleton] at h
          refine h.imp_right fun hv => ?_
          subst hv
          exact ⟨a', rfl, hv', hne⟩
        · rw [Function.update_of_ne hu] at h
          exact .inl h
    | send body =>
      obtain he | ⟨v, -, he⟩ := b.send_cases body a' <;> simp only [apply, request, he] at h <;>
        exact .inl h
  | queue =>
    obtain he | ⟨p, rest, -, he⟩ := b.queue_cases <;> simp only [apply, he] at h <;> exact .inl h
  | turn =>
    obtain he | ⟨p, rest, -, he | he⟩ := b.turn_cases <;> simp only [apply, he] at h <;> exact .inl h

/-- The posts that are on their way or were shown. -/
def Has (b : Microblog U A M) (p : Post U M) : Prop :=
  p ∈ b.outgoing ∨ p ∈ b.waiting ∨ ∃ a, (a, p) ∈ b.shown

theorem apply_has {p : Post U M} (h : (b.apply capacity op).Has p) : b.Has p ∨
    ∃ a, op = .request (.send p.body) a ∧ b.Speaks a p.author ∧ p.reader ∈ b.followers p.author := by
  cases op with
  | request r a' =>
    cases r with
    | connect | disconnect => exact .inl h
    | follow u' =>
      obtain he | ⟨v, -, -, he⟩ := b.follow_cases u' a' <;> simp only [apply, request, he] at h <;>
        exact .inl h
    | send body =>
      obtain he | ⟨v, hv, he⟩ := b.send_cases body a' <;> simp only [apply, request, he] at h
      · exact .inl h
      · obtain h | h := h
        · obtain h | h := List.mem_append.mp h
          · exact .inl (.inl h)
          · obtain ⟨r, hr, rfl⟩ := List.mem_map.mp h
            exact .inr ⟨a', rfl, hv, hr⟩
        · exact .inl (.inr h)
  | queue =>
    left
    obtain he | ⟨q, rest, hout, he⟩ := b.queue_cases <;> simp only [apply, he] at h
    · exact h
    · unfold Has at h ⊢
      simp only [List.mem_append, List.mem_singleton] at h
      rw [hout, List.mem_cons]
      tauto
  | turn =>
    left
    obtain he | ⟨q, rest, hwait, he | he⟩ := b.turn_cases <;> simp only [apply, he] at h
    · exact h
    · unfold Has at h ⊢
      simp only [List.mem_append, List.mem_singleton] at h
      rw [hwait, List.mem_cons]
      tauto
    · unfold Has at h ⊢
      rw [hwait]
      obtain h | h | ⟨a, h⟩ := h
      · exact .inl h
      · exact .inr (.inl (List.mem_cons_of_mem q h))
      · obtain h | h := List.mem_append.mp h
        · exact .inr (.inr ⟨a, h⟩)
        · obtain ⟨a', -, hp⟩ := List.mem_map.mp h
          cases hp
          exact .inr (.inl List.mem_cons_self)

theorem apply_shown {p : Post U M} (h : (a, p) ∈ (b.apply capacity op).shown) :
    (a, p) ∈ b.shown ∨ op = .turn ∧ a ∈ b.devices p.reader := by
  cases op with
  | request r a' =>
    cases r with
    | connect | disconnect => exact .inl h
    | follow u' =>
      obtain he | ⟨v, -, -, he⟩ := b.follow_cases u' a' <;> simp only [apply, request, he] at h <;>
        exact .inl h
    | send body =>
      obtain he | ⟨v, -, he⟩ := b.send_cases body a' <;> simp only [apply, request, he] at h <;>
        exact .inl h
  | queue =>
    obtain he | ⟨p, rest, -, he⟩ := b.queue_cases <;> simp only [apply, he] at h <;> exact .inl h
  | turn =>
    obtain he | ⟨q, rest, -, he | he⟩ := b.turn_cases <;> simp only [apply, he] at h
    · exact .inl h
    · exact .inl h
    · obtain h | h := List.mem_append.mp h
      · exact .inl h
      · obtain ⟨a', ha', hp⟩ := List.mem_map.mp h
        cases hp
        exact .inr ⟨rfl, ha'⟩

end came

section history

variable [Ord U] {capacity : Nat} {ops : List (Op U A M)}

theorem run_concat (ops : List (Op U A M)) (op : Op U A M) :
    run capacity (ops ++ [op]) = (run capacity ops).apply capacity op := by
  simp [run]

variable [Std.OrientedOrd U] [Std.LawfulEqOrd U]

/-- A device is there for a user since some request to connect. -/
theorem device_came {a : A} {u : U} (h : a ∈ (run capacity ops).devices u) :
    SomeStep (fun _ (op : Op U A M) => op = .request (.connect u) a) ops := by
  refine someStep_of_came (P := fun ops => a ∈ (run capacity ops).devices u) List.not_mem_nil
    (fun l op h => ?_) h
  rw [run_concat] at h
  exact apply_devices h

/-- Who follows a user has asked for it, from a device that spoke for it then. -/
theorem follower_came {u v : U} (h : v ∈ (run capacity ops).followers u) :
    SomeStep (fun before (op : Op U A M) => ∃ a, op = .request (.follow u) a ∧
      (run capacity before).Speaks a v ∧ u ≠ v) ops := by
  refine someStep_of_came (P := fun ops => v ∈ (run capacity ops).followers u) List.not_mem_nil
    (fun l op h => ?_) h
  rw [run_concat] at h
  exact apply_followers h

/-- A post was sent from a device that spoke for its author then, when its reader
followed the author. -/
theorem post_came {p : Post U M} (h : (run capacity ops).Has p) :
    SomeStep (fun before (op : Op U A M) => ∃ a, op = .request (.send p.body) a ∧
      (run capacity before).Speaks a p.author ∧
      p.reader ∈ (run capacity before).followers p.author) ops := by
  refine someStep_of_came (P := fun ops => (run capacity ops).Has p) ?_ (fun l op h => ?_) h
  · rintro (h | h | ⟨a, h⟩) <;> cases h
  · rw [run_concat] at h
    exact apply_has h

/-- A post was shown on a device that was there for its reader then. -/
theorem shown_came {a : A} {p : Post U M} (h : (a, p) ∈ (run capacity ops).shown) :
    SomeStep (fun before (op : Op U A M) => op = .turn ∧
      a ∈ (run capacity before).devices p.reader) ops := by
  refine someStep_of_came (P := fun ops => (a, p) ∈ (run capacity ops).shown) List.not_mem_nil
    (fun l op h => ?_) h
  rw [run_concat] at h
  exact apply_shown h

end history

end machine

/-- The requests of a history, in order. -/
def requests (ops : List (Op U A M)) : List (Request U M × A) :=
  ops.filterMap fun
    | .request r a => some (r, a)
    | _ => none

end Microblog

end Piupiu
