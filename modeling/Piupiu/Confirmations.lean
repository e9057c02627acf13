import Piupiu.ConfirmationBuffer

/-!
# What the flags and the callback say

The flags of a container and the calls of the callback in terms of the calls that
were made on the buffer, whatever numbers they carry.
-/
namespace Piupiu

variable {N : Nat}

namespace ConfirmationBuffer

/-- The messages that the calls push, in order. -/
def pushedItems (calls : List (Call N)) : List BaseMessage :=
  calls.flatMap fun call =>
    match call with
    | .push items _ _ => items.toList
    | .confirm _ => []

/-- The messages in the containers. -/
def items (b : ConfirmationBuffer N) : List BaseMessage :=
  b.flatMap fun c => c.content.toList.map ConfirmableItem.item

theorem confirmFrom_count (n : UInt64) (k : Nat) (b : ConfirmationBuffer N) :
    (confirmFrom n k b).2.1 = b.items.countP fun item => item.sequenceNumber = n := by
  induction b generalizing k with
  | nil => rfl
  | cons c rest ih =>
    have hhits : c.hits n = (c.content.toList.map ConfirmableItem.item).countP
        fun item => item.sequenceNumber = n := by
      rw [List.countP_map]
      rfl
    simp only [confirmFrom, items, List.flatMap_cons, List.countP_append, ih, hhits]

theorem confirm_items (c : ConfirmableContainer N) (n : UInt64) :
    (c.confirm n).content.toList.map ConfirmableItem.item =
      c.content.toList.map ConfirmableItem.item := by
  simp only [ConfirmableContainer.confirm, Vector.toList_map, List.map_map]
  refine List.map_congr_left fun i _ => ?_
  simp only [Function.comp_apply]
  split <;> rfl

/-- The containers hold what was pushed, whatever was confirmed. -/
theorem run_items (calls : List (Call N)) : (run calls).buffer.items = pushedItems calls := by
  induction calls using List.reverseRecOn with
  | nil => rfl
  | append_singleton calls call ih =>
    rw [run_append_singleton, pushedItems, List.flatMap_append]
    cases call with
    | push vector seqn address =>
      simp only [History.apply, push, items, List.flatMap_append] at ih ⊢
      rw [ih]
      have hpush : List.map ConfirmableItem.item
          (vector.map fun item => (⟨item, false⟩ : ConfirmableItem)).toList = vector.toList := by
        rw [Vector.toList_map, List.map_map]
        exact List.map_id _
      simp [pushedItems, hpush]
    | confirm n =>
      simp only [History.apply, confirm_containers, items, List.flatMap_map, confirm_items] at ih ⊢
      rw [ih]
      simp [pushedItems]

/-- A container as the calls since its push left it. -/
theorem pushed_settled {calls : List (Call N)} {k : Nat} {vector : Vector BaseMessage N}
    {seqn : UInt64} {address : SocketAddress} {after : List (Call N)}
    (h : Pushed calls k vector seqn address after) :
    (run calls).buffer[k]? = some (settled vector seqn address after) := by
  have hget := List.getElem?_eq_getElem (pushed_lt h)
  obtain ⟨vector', seqn', address', after', h', he⟩ := run_settled hget
  obtain ⟨rfl, rfl, rfl, rfl⟩ := pushed_unique h h'
  rw [hget, he]

/-- A call of `Confirm` reports the containers that are complete with it. -/
theorem mem_confirm_called_completes (hN : 0 < N) (calls : List (Call N)) (n : UInt64) (k : Nat) :
    k ∈ ((run calls).buffer.confirm n).2.2 ↔ Completes (calls ++ [.confirm n]) k := by
  rw [← called_iff_completes hN, called_iff hN, mem_confirm_called, run_append_singleton]
  rfl

/-- In every state a flag is set exactly when the number of its message was confirmed
after the push, and the next `Confirm` counts the messages with its number and calls
back for the containers that are complete with it. -/
theorem confirmation_history (hN : 0 < N) (calls : List (Call N)) :
    (∀ k vector seqn address after, Pushed calls k vector seqn address after →
      ∃ c, (run calls).buffer[k]? = some c ∧ ∀ i (h : i < N), c.content[i].item = vector[i] ∧
        (c.content[i].confirmed = true ↔ vector[i].sequenceNumber ∈ confirmed after)) ∧
    ∀ n, ((run calls).buffer.confirm n).2.1 =
        (pushedItems calls).countP (fun item => item.sequenceNumber = n) ∧
      (∀ k, k ∈ ((run calls).buffer.confirm n).2.2 ↔ Completes (calls ++ [.confirm n]) k) ∧
      (∀ k ∈ ((run calls).buffer.confirm n).2.2, ∃ c, ((run calls).buffer.confirm n).1[k]? = some c ∧
        ∀ i (h : i < N), c.content[i].confirmed = true) ∧
      ∀ k, k ∈ ((run calls).buffer.confirm n).2.2 ∧ k ∉ (run calls).called ↔
        Completes (calls ++ [.confirm n]) k ∧ ¬Completes calls k := by
  refine ⟨fun k vector seqn address after h => ⟨_, pushed_settled h, fun i hi => ?_⟩,
    fun n => ⟨?_, mem_confirm_called_completes hN calls n, fun k hk => ?_, fun k => ?_⟩⟩
  · simp [settled]
  · rw [← run_items]
    exact confirmFrom_count n 0 _
  · obtain ⟨c, hc, hd⟩ := (mem_confirm_called _ n k).mp hk
    exact ⟨c, hc, c.isConfirmed_iff.mp hd⟩
  · rw [mem_confirm_called_completes hN, called_iff_completes hN]

/-- A container of one message, and the confirmation of it. -/
theorem confirmation_history_one :
    0 ∈ ((run [.push #v[⟨5, makeEmpty packetConnectCmd 0 5⟩] 1 ⟨[], 1⟩]).buffer.confirm 5).2.2 ∧
    0 ∉ (run [.push #v[⟨5, makeEmpty packetConnectCmd 0 5⟩] 1 ⟨[], 1⟩]).called := by
  have hpushed : Pushed [.push #v[⟨5, makeEmpty packetConnectCmd 0 5⟩] 1 ⟨[], 1⟩, .confirm 5] 0
      #v[⟨5, makeEmpty packetConnectCmd 0 5⟩] 1 ⟨[], 1⟩ [.confirm 5] := ⟨[], rfl, rfl⟩
  refine (((confirmation_history Nat.one_pos _).2 5).2.2.2 0).mpr ⟨⟨_, _, _, _, hpushed, ?_⟩, ?_⟩
  · intro i hi
    rw [Nat.lt_one_iff] at hi
    subst hi
    exact List.mem_cons_self
  · rintro ⟨vector, seqn, address, after, ⟨before, he, -⟩, hall⟩
    obtain ⟨-, rfl⟩ : before = [] ∧ after = [] := by
      cases before with
      | nil =>
        rw [List.nil_append, List.cons.injEq] at he
        exact ⟨rfl, he.2.symm⟩
      | cons call before => simp at he
    exact List.not_mem_nil (hall 0 Nat.one_pos)

end ConfirmationBuffer

end Piupiu
