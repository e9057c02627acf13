import Piupiu.SessionManager

/-!
# The confirmation buffer

A container holds `N` messages and a flag for each. `Confirm` walks over every
container that was ever pushed, sets the flags of the messages that carry the
number, and calls back for each container whose flags are all set. A container
is referred to by its position: containers are only ever added at the end.
-/
namespace Piupiu

structure BaseMessage where
  sequenceNumber : UInt64
  packet : Packet
  deriving DecidableEq

structure ConfirmableItem where
  item : BaseMessage
  confirmed : Bool
  deriving DecidableEq

def ConfirmableItem.confirm (i : ConfirmableItem) : ConfirmableItem := { i with confirmed := true }

structure ConfirmableContainer (N : Nat) where
  content : Vector ConfirmableItem N
  originalSeqn : UInt64
  originalHost : SocketAddress

abbrev ConfirmationBuffer (N : Nat) := List (ConfirmableContainer N)

variable {N : Nat}

namespace ConfirmableContainer

/-- The inner loop of `Confirm`, for one container. -/
def confirm (c : ConfirmableContainer N) (sequenceNumber : UInt64) : ConfirmableContainer N :=
  { c with content := c.content.map fun i =>
      if i.item.sequenceNumber = sequenceNumber then i.confirm else i }

/-- How many items of the container the inner loop confirms. -/
def hits (c : ConfirmableContainer N) (sequenceNumber : UInt64) : Nat :=
  c.content.toList.countP fun i => i.item.sequenceNumber = sequenceNumber

/-- `ContainerConfirmed`. -/
def isConfirmed (c : ConfirmableContainer N) : Bool := c.content.all fun i => i.confirmed

theorem isConfirmed_iff (c : ConfirmableContainer N) :
    c.isConfirmed = true ↔ ∀ i (h : i < N), c.content[i].confirmed = true := by
  simp [isConfirmed, Vector.all_eq_true]

@[simp] theorem confirm_item (c : ConfirmableContainer N) (n : UInt64) (i : Nat) (h : i < N) :
    (c.confirm n).content[i].item = c.content[i].item := by
  simp only [confirm, Vector.getElem_map]
  split <;> rfl

theorem confirm_confirmed (c : ConfirmableContainer N) (n : UInt64) (i : Nat) (h : i < N) :
    (c.confirm n).content[i].confirmed = true ↔
      c.content[i].item.sequenceNumber = n ∨ c.content[i].confirmed = true := by
  simp only [confirm, Vector.getElem_map]
  split <;> simp_all [ConfirmableItem.confirm]

@[simp] theorem confirm_originalSeqn (c : ConfirmableContainer N) (n : UInt64) :
    (c.confirm n).originalSeqn = c.originalSeqn := rfl
@[simp] theorem confirm_originalHost (c : ConfirmableContainer N) (n : UInt64) :
    (c.confirm n).originalHost = c.originalHost := rfl

/-- A complete container stays complete. -/
theorem isConfirmed_confirm {c : ConfirmableContainer N} (h : c.isConfirmed = true) (n : UInt64) :
    (c.confirm n).isConfirmed = true := by
  rw [isConfirmed_iff] at h ⊢
  exact fun i hi => (c.confirm_confirmed n i hi).mpr (.inr (h i hi))

end ConfirmableContainer

namespace ConfirmationBuffer

/-- `Push` with the original sequence number and host; the shorter overloads
leave these two at their defaults. -/
def push (b : ConfirmationBuffer N) (items : Vector BaseMessage N) (originalSeqn : UInt64)
    (address : SocketAddress) : ConfirmationBuffer N :=
  b ++ [⟨items.map fun item => ⟨item, false⟩, originalSeqn, address⟩]

/-- The outer loop of `Confirm` from the container at position `k` on: the
containers, the number of confirmed items, and whom the callback was called for. -/
def confirmFrom (sequenceNumber : UInt64) :
    Nat → ConfirmationBuffer N → ConfirmationBuffer N × Nat × List Nat
  | _, [] => ([], 0, [])
  | k, c :: rest =>
    let container := c.confirm sequenceNumber
    let (rest', confirmed, called) := confirmFrom sequenceNumber (k + 1) rest
    (container :: rest', c.hits sequenceNumber + confirmed,
      if container.isConfirmed then k :: called else called)

def confirm (b : ConfirmationBuffer N) (sequenceNumber : UInt64) :
    ConfirmationBuffer N × Nat × List Nat := confirmFrom sequenceNumber 0 b

theorem confirmFrom_containers (n : UInt64) (k : Nat) (b : ConfirmationBuffer N) :
    (confirmFrom n k b).1 = b.map fun c => c.confirm n := by
  induction b generalizing k with
  | nil => rfl
  | cons c rest ih => simp [confirmFrom, ih]

theorem mem_confirmFrom_called (n : UInt64) (k j : Nat) (b : ConfirmationBuffer N) :
    j ∈ (confirmFrom n k b).2.2 ↔
      k ≤ j ∧ ∃ c, b[j - k]? = some c ∧ (c.confirm n).isConfirmed = true := by
  induction b generalizing k with
  | nil => simp [confirmFrom]
  | cons c rest ih =>
    have hmem : j ∈ (confirmFrom n k (c :: rest)).2.2 ↔
        (j = k ∧ (c.confirm n).isConfirmed = true) ∨ j ∈ (confirmFrom n (k + 1) rest).2.2 := by
      simp only [confirmFrom]
      split <;> simp_all
    rw [hmem, ih]
    constructor
    · rintro (⟨rfl, hc⟩ | ⟨hle, c', hc', hd⟩)
      · exact ⟨Nat.le_refl _, c, by simp, hc⟩
      · refine ⟨by omega, c', ?_, hd⟩
        rw [show j - k = (j - (k + 1)) + 1 by omega, List.getElem?_cons_succ]
        exact hc'
    · rintro ⟨hle, c', hc', hd⟩
      by_cases hj : j = k
      · subst hj
        simp only [Nat.sub_self, List.getElem?_cons_zero, Option.some.injEq] at hc'
        exact .inl ⟨rfl, hc' ▸ hd⟩
      · rw [show j - k = (j - (k + 1)) + 1 by omega, List.getElem?_cons_succ] at hc'
        exact .inr ⟨by omega, c', hc', hd⟩

theorem confirmFrom_called_nodup (n : UInt64) (k : Nat) (b : ConfirmationBuffer N) :
    (confirmFrom n k b).2.2.Nodup := by
  induction b generalizing k with
  | nil => simp [confirmFrom]
  | cons c rest ih =>
    simp only [confirmFrom]
    split
    · refine List.nodup_cons.mpr ⟨fun h => ?_, ih _⟩
      have := ((mem_confirmFrom_called n (k + 1) k rest).mp h).1
      omega
    · exact ih _

variable (b : ConfirmationBuffer N) (n : UInt64)

@[simp] theorem confirm_containers : (b.confirm n).1 = b.map fun c => c.confirm n :=
  confirmFrom_containers n 0 b

/-- The callback is called for exactly the containers that are complete now. -/
theorem mem_confirm_called (k : Nat) :
    k ∈ (b.confirm n).2.2 ↔ ∃ c, (b.confirm n).1[k]? = some c ∧ c.isConfirmed = true := by
  simp only [confirm, mem_confirmFrom_called, confirmFrom_containers, Nat.zero_le, true_and,
    Nat.sub_zero, List.getElem?_map, Option.map_eq_some_iff]
  constructor
  · rintro ⟨c, hc, hd⟩
    exact ⟨_, ⟨c, hc, rfl⟩, hd⟩
  · rintro ⟨_, ⟨c, hc, rfl⟩, hd⟩
    exact ⟨c, hc, hd⟩

theorem confirm_called_nodup : (b.confirm n).2.2.Nodup := confirmFrom_called_nodup n 0 b

/-- A container with all its items confirmed is in the buffer. -/
def SomeConfirmed : Prop := ∃ c ∈ b, c.isConfirmed = true

instance : Decidable b.SomeConfirmed := by
  unfold SomeConfirmed
  infer_instance

inductive Call (N : Nat) where
  | push (items : Vector BaseMessage N) (originalSeqn : UInt64) (address : SocketAddress)
  | confirm (sequenceNumber : UInt64)

/-- A buffer and the containers its callback has been called for, first call first. -/
structure History (N : Nat) where
  buffer : ConfirmationBuffer N
  called : List Nat

def History.apply (h : History N) : Call N → History N
  | .push items originalSeqn address => ⟨h.buffer.push items originalSeqn address, h.called⟩
  | .confirm n => ⟨(h.buffer.confirm n).1, h.called ++ (h.buffer.confirm n).2.2⟩

def run (calls : List (Call N)) : History N := calls.foldl History.apply ⟨[], []⟩

@[simp] theorem run_nil : run ([] : List (Call N)) = ⟨[], []⟩ := rfl

@[simp] theorem run_append_singleton (calls : List (Call N)) (c : Call N) :
    run (calls ++ [c]) = (run calls).apply c := by
  simp [run]

/-- The callback is called at most once for each pushed container. -/
def AtMostOnce (calls : List (Call N)) : Prop := ∀ k, (run calls).called.count k ≤ 1

/-- No `Confirm` is called while a complete container is in the buffer. -/
def Quiet (calls : List (Call N)) : Prop :=
  ∀ before n after, calls = before ++ .confirm n :: after → ¬(run before).buffer.SomeConfirmed

theorem push_not_confirmed (hN : 0 < N) (items : Vector BaseMessage N) (seqn : UInt64)
    (address : SocketAddress) :
    (⟨items.map fun item => ⟨item, false⟩, seqn, address⟩ :
      ConfirmableContainer N).isConfirmed = false := by
  rw [Bool.eq_false_iff, ne_eq, ConfirmableContainer.isConfirmed_iff]
  intro h
  simpa using h 0 hN

/-- At every moment the callback has been called for the complete containers. -/
theorem called_iff (hN : 0 < N) (calls : List (Call N)) (k : Nat) :
    k ∈ (run calls).called ↔
      ∃ c, (run calls).buffer[k]? = some c ∧ c.isConfirmed = true := by
  induction calls using List.reverseRecOn with
  | nil => simp
  | append_singleton calls call ih =>
    rw [run_append_singleton]
    cases call with
    | push items seqn address =>
      simp only [History.apply, push, ih]
      constructor
      · rintro ⟨c, hc, hd⟩
        exact ⟨c, by rw [List.getElem?_append_left (List.getElem?_eq_some_iff.mp hc).1, hc], hd⟩
      · rintro ⟨c, hc, hd⟩
        by_cases hk : k < (run calls).buffer.length
        · exact ⟨c, by rwa [List.getElem?_append_left hk] at hc, hd⟩
        · have hmem := List.mem_of_getElem? hc
          rw [List.getElem?_append_right (by omega), List.getElem?_singleton] at hc
          split at hc
          · cases hc
            rw [push_not_confirmed hN] at hd
            cases hd
          · cases hc
    | confirm n =>
      simp only [History.apply, List.mem_append, mem_confirm_called, ih, or_iff_right_iff_imp]
      rintro ⟨c, hc, hd⟩
      exact ⟨c.confirm n, by simp [hc], ConfirmableContainer.isConfirmed_confirm hd n⟩

theorem called_mono (calls more : List (Call N)) :
    (run calls).called <+: (run (calls ++ more)).called := by
  induction more using List.reverseRecOn with
  | nil => simp
  | append_singleton more call ih =>
    rw [← List.append_assoc, run_append_singleton]
    refine ih.trans ?_
    cases call with
    | push items seqn address => exact List.prefix_rfl
    | confirm n => exact List.prefix_append _ _

theorem quiet_of_append {calls more : List (Call N)} (h : Quiet (calls ++ more)) : Quiet calls := by
  intro before n after he
  exact h before n (after ++ more) (by simp [he])

theorem quiet_append_confirm {calls : List (Call N)} (n : UInt64) :
    Quiet (calls ++ [.confirm n]) ↔ Quiet calls ∧ ¬(run calls).buffer.SomeConfirmed := by
  constructor
  · exact fun h => ⟨quiet_of_append h, h calls n [] rfl⟩
  · rintro ⟨h, hn⟩ before m after he
    rcases List.append_eq_append_iff.mp he with ⟨as, hb, ha⟩ | ⟨as, hb, ha⟩
    · cases as with
      | nil =>
        rw [List.append_nil] at hb
        rwa [hb]
      | cons a as => simp at ha
    · cases as with
      | nil =>
        rw [List.append_nil] at hb
        rwa [← hb]
      | cons a as =>
        simp only [List.cons_append, List.cons.injEq] at ha
        exact h before m as (by rw [hb, ha.1])

/-- The callback is called twice for some container exactly when `Confirm` is
called on a buffer that already holds a complete one. -/
theorem atMostOnce_iff_quiet (hN : 0 < N) (calls : List (Call N)) :
    AtMostOnce calls ↔ Quiet calls := by
  constructor
  · rintro h before n after rfl ⟨c, hc, hd⟩
    obtain ⟨k, hk⟩ := List.getElem?_of_mem hc
    have hfirst : k ∈ (run before).called := (called_iff hN before k).mpr ⟨c, hk, hd⟩
    have hagain : k ∈ ((run before).buffer.confirm n).2.2 :=
      (mem_confirm_called _ n k).mpr
        ⟨c.confirm n, by simp [hk], ConfirmableContainer.isConfirmed_confirm hd n⟩
    have htwice : 2 ≤ (run (before ++ [.confirm n])).called.count k := by
      rw [run_append_singleton, History.apply, List.count_append]
      have := List.count_pos_iff.mpr hfirst
      have := List.count_pos_iff.mpr hagain
      omega
    have hmono := (called_mono (before ++ [.confirm n]) after).sublist.count_le k
    rw [List.append_assoc] at hmono
    have := h k
    simp only [List.singleton_append] at hmono
    omega
  · intro h
    induction calls using List.reverseRecOn with
    | nil => simp [AtMostOnce]
    | append_singleton calls call ih =>
      have ih := ih (quiet_of_append h)
      intro k
      rw [run_append_singleton]
      cases call with
      | push items seqn address => exact ih k
      | confirm n =>
        have hnone : (run calls).called = [] := by
          refine List.eq_nil_iff_forall_not_mem.mpr fun j hj => ?_
          obtain ⟨c, hc, hd⟩ := (called_iff hN calls j).mp hj
          exact ((quiet_append_confirm n).mp h).2 ⟨c, List.mem_of_getElem? hc, hd⟩
        simp only [History.apply, hnone, List.nil_append]
        exact List.nodup_iff_count_le_one.mp (confirm_called_nodup _ n) k

def Call.confirmed? : Call N → Option UInt64
  | .push _ _ _ => none
  | .confirm n => some n

/-- The numbers that the calls confirm. -/
def confirmed (calls : List (Call N)) : List UInt64 := calls.filterMap Call.confirmed?

/-- The container at `k` is pushed by these calls, and `after` are the calls since. -/
def Pushed (calls : List (Call N)) (k : Nat) (items : Vector BaseMessage N) (seqn : UInt64)
    (address : SocketAddress) (after : List (Call N)) : Prop :=
  ∃ before, calls = before ++ .push items seqn address :: after ∧ (run before).buffer.length = k

/-- Each item of the container at `k` is confirmed after the container was pushed. -/
def Completes (calls : List (Call N)) (k : Nat) : Prop :=
  ∃ items seqn address after, Pushed calls k items seqn address after ∧
    ∀ i (h : i < N), items[i].sequenceNumber ∈ confirmed after

/-- A container as it stands after the calls that follow its push. -/
def settled (items : Vector BaseMessage N) (seqn : UInt64) (address : SocketAddress)
    (after : List (Call N)) : ConfirmableContainer N :=
  ⟨items.map fun item => ⟨item, item.sequenceNumber ∈ confirmed after⟩, seqn, address⟩

theorem settled_push (items : Vector BaseMessage N) (seqn : UInt64) (address : SocketAddress)
    (after : List (Call N)) (items' : Vector BaseMessage N) (seqn' : UInt64)
    (address' : SocketAddress) :
    settled items seqn address (after ++ [.push items' seqn' address']) =
      settled items seqn address after := by
  simp [settled, confirmed, Call.confirmed?]

theorem settled_confirm (items : Vector BaseMessage N) (seqn : UInt64) (address : SocketAddress)
    (after : List (Call N)) (n : UInt64) :
    settled items seqn address (after ++ [.confirm n]) =
      (settled items seqn address after).confirm n := by
  simp only [settled, ConfirmableContainer.confirm, Vector.map_map]
  congr 1
  refine Vector.map_congr_left fun item _ => ?_
  by_cases hn : item.sequenceNumber = n <;>
    simp [confirmed, Call.confirmed?, ConfirmableItem.confirm, hn]

theorem pushed_append {calls : List (Call N)} {k : Nat} {items : Vector BaseMessage N}
    {seqn : UInt64} {address : SocketAddress} {after : List (Call N)}
    (h : Pushed calls k items seqn address after) (more : List (Call N)) :
    Pushed (calls ++ more) k items seqn address (after ++ more) := by
  obtain ⟨before, rfl, hk⟩ := h
  exact ⟨before, by simp, hk⟩

/-- Every container in the buffer was pushed, and its flags say what was confirmed. -/
theorem run_settled {calls : List (Call N)} {k : Nat} {c : ConfirmableContainer N}
    (h : (run calls).buffer[k]? = some c) : ∃ items seqn address after,
      Pushed calls k items seqn address after ∧ c = settled items seqn address after := by
  induction calls using List.reverseRecOn generalizing c with
  | nil => simp at h
  | append_singleton calls call ih =>
    rw [run_append_singleton] at h
    cases call with
    | push items seqn address =>
      simp only [History.apply, push] at h
      by_cases hk : k < (run calls).buffer.length
      · rw [List.getElem?_append_left hk] at h
        obtain ⟨items', seqn', address', after, hp, rfl⟩ := ih h
        exact ⟨items', seqn', address', _, pushed_append hp _, (settled_push ..).symm⟩
      · have hlen : k = (run calls).buffer.length := by
          have := (List.getElem?_eq_some_iff.mp h).1
          rw [List.length_append, List.length_singleton] at this
          omega
        rw [hlen, List.getElem?_concat_length] at h
        refine ⟨items, seqn, address, [], ⟨calls, rfl, hlen.symm⟩, ?_⟩
        rw [← Option.some.inj h]
        simp [settled, confirmed]
    | confirm n =>
      simp only [History.apply, confirm_containers, List.getElem?_map, Option.map_eq_some_iff] at h
      obtain ⟨c', hc', rfl⟩ := h
      obtain ⟨items, seqn, address, after, hp, rfl⟩ := ih hc'
      exact ⟨items, seqn, address, _, pushed_append hp _, (settled_confirm ..).symm⟩

theorem length_run_append (calls more : List (Call N)) :
    (run calls).buffer.length ≤ (run (calls ++ more)).buffer.length := by
  induction more using List.reverseRecOn with
  | nil => simp
  | append_singleton more call ih =>
    rw [← List.append_assoc, run_append_singleton]
    refine ih.trans ?_
    cases call <;> simp [History.apply, push]

theorem pushed_lt {calls : List (Call N)} {k : Nat} {items : Vector BaseMessage N} {seqn : UInt64}
    {address : SocketAddress} {after : List (Call N)}
    (h : Pushed calls k items seqn address after) : k < (run calls).buffer.length := by
  obtain ⟨before, rfl, rfl⟩ := h
  have hle := length_run_append (before ++ [.push items seqn address]) after
  rw [run_append_singleton, List.append_assoc] at hle
  simp only [History.apply, push, List.length_append, List.length_singleton,
    List.singleton_append] at hle
  omega

/-- There is one push for each position. -/
theorem pushed_unique {calls : List (Call N)} {k : Nat} {items items' : Vector BaseMessage N}
    {seqn seqn' : UInt64} {address address' : SocketAddress} {after after' : List (Call N)}
    (h : Pushed calls k items seqn address after)
    (h' : Pushed calls k items' seqn' address' after') :
    items = items' ∧ seqn = seqn' ∧ address = address' ∧ after = after' := by
  have hlt : ∀ {before : List (Call N)} {items : Vector BaseMessage N} {seqn : UInt64}
      {address : SocketAddress} {rest : List (Call N)},
      (run (before ++ .push items seqn address :: rest)).buffer.length ≠
        (run before).buffer.length := by
    intro before items seqn address rest
    exact (pushed_lt ⟨before, rfl, rfl⟩).ne'
  obtain ⟨before, rfl, hk⟩ := h
  obtain ⟨before', he, hk'⟩ := h'
  rcases List.append_eq_append_iff.mp he with ⟨as, rfl, ha⟩ | ⟨as, rfl, ha⟩
  · cases as with
    | nil =>
      simp only [List.nil_append, List.cons.injEq, Call.push.injEq] at ha
      exact ⟨ha.1.1, ha.1.2.1, ha.1.2.2, ha.2⟩
    | cons a as =>
      rw [List.cons_append, List.cons.injEq] at ha
      rw [← ha.1] at hk'
      exact absurd (hk'.trans hk.symm) hlt
  · cases as with
    | nil =>
      simp only [List.nil_append, List.cons.injEq, Call.push.injEq] at ha
      exact ⟨ha.1.1.symm, ha.1.2.1.symm, ha.1.2.2.symm, ha.2.symm⟩
    | cons a as =>
      rw [List.cons_append, List.cons.injEq] at ha
      rw [← ha.1] at hk
      exact absurd (hk.trans hk'.symm) hlt

/-- The callback is called for a container exactly when all its items are
confirmed after it was pushed. -/
theorem called_iff_completes (hN : 0 < N) (calls : List (Call N)) (k : Nat) :
    k ∈ (run calls).called ↔ Completes calls k := by
  rw [called_iff hN]
  constructor
  · rintro ⟨c, hc, hd⟩
    obtain ⟨items, seqn, address, after, hp, rfl⟩ := run_settled hc
    refine ⟨items, seqn, address, after, hp, fun i hi => ?_⟩
    simpa [settled] using (ConfirmableContainer.isConfirmed_iff _).mp hd i hi
  · rintro ⟨items, seqn, address, after, hp, hall⟩
    have hget := List.getElem?_eq_getElem (pushed_lt hp)
    refine ⟨_, hget, (ConfirmableContainer.isConfirmed_iff _).mpr fun i hi => ?_⟩
    obtain ⟨items', seqn', address', after', hp', he⟩ := run_settled hget
    obtain ⟨rfl, -, -, rfl⟩ := pushed_unique hp hp'
    simpa [he, settled] using hall i hi

end ConfirmationBuffer

end Piupiu
