import Piupiu.Notifications

/-!
# Turns in the queue

An iteration of the worker looks at the front of the queue and at nothing else. So a
notification that has `p` others before it is looked at by the iteration `p + 1` from
now, whatever handlers push meanwhile, and what happens to it then depends on whether
its recipient is online at that moment.
-/
namespace Piupiu

open Atomic RotatingQueue

namespace Server

def Move.isWorker : Move → Bool
  | .worker _ => true
  | _ => false

/-- The iterations of the worker among the moves from `i` on and before `j`. -/
def turns (moves : List Move) (i j : Nat) : Nat := ((moves.take j).drop i).countP Move.isWorker

section turns

variable {moves : List Move} {i j k : Nat}

@[simp] theorem turns_self (moves : List Move) (i : Nat) : turns moves i i = 0 := by
  simp [turns]

theorem turns_succ (hij : i ≤ j) {m : Move} (hm : moves[j]? = some m) :
    turns moves i (j + 1) = turns moves i j + m.isWorker.toNat := by
  have hle : i ≤ (moves.take j).length := by
    have hlt := (List.getElem?_eq_some_iff.mp hm).1
    rw [List.length_take]
    omega
  rw [turns, List.take_add_one, hm, Option.toList_some, List.drop_append_of_le_length hle,
    List.countP_append, turns]
  cases hw : m.isWorker <;> simp [hw]

theorem turns_succ_none (hm : moves[j]? = none) : turns moves i (j + 1) = turns moves i j := by
  rw [turns, List.take_add_one, hm, Option.toList_none, List.append_nil, turns]

/-- Among enough iterations there is the one that comes after exactly `p` of them. -/
theorem exists_turn {p : Nat} (hik : i ≤ k) (hp : p < turns moves i k) :
    ∃ j, i ≤ j ∧ j < k ∧ turns moves i j = p ∧ ∃ now, moves[j]? = some (.worker now) := by
  induction k, hik using Nat.le_induction with
  | base => simp at hp
  | succ k hik ih =>
    by_cases hbefore : p < turns moves i k
    · obtain ⟨j, hij, hjk, hj⟩ := ih hbefore
      exact ⟨j, hij, Nat.lt_succ_of_lt hjk, hj⟩
    · cases hm : moves[k]? with
      | none =>
        rw [turns_succ_none hm] at hp
        exact absurd hp hbefore
      | some m =>
        rw [turns_succ hik hm] at hp
        cases m with
        | worker now =>
          have hone : (Move.worker now).isWorker.toNat = 1 := rfl
          exact ⟨k, hik, Nat.lt_succ_self k, by omega, now, hm⟩
        | arrive | advance => exact absurd hp hbefore

end turns

section run

variable {s : Server} (hs : s.log = []) (hq : s.notificationQueue = []) (moves : List Move)

include hs hq

/-- A move brings what waits at most one place further to the front. -/
theorem position_succ {k p : Nat} {m : Move} {e : PendingNotification × Nat}
    (hm : moves[k]? = some m)
    (h : (ledger (s.stateAt moves k).log).waiting[p + m.isWorker.toNat]? = some e) :
    (ledger (s.stateAt moves (k + 1)).log).waiting[p]? = some e := by
  have hpushes : (∀ now, moves[k]? ≠ some (.worker now)) →
      (ledger (s.stateAt moves k).log).waiting[p]? = some e →
      (ledger (s.stateAt moves (k + 1)).log).waiting[p]? = some e := by
    intro hk he
    obtain ⟨as, hledger⟩ := stateAt_pushes hs hq moves hk
    have hnone : (as.map Op.push).countP Op.isTurn = 0 := by
      simp [List.countP_eq_zero, Op.isTurn]
    rw [hledger]
    exact replayFrom_position (by rwa [hnone])
  cases m with
  | arrive | advance => exact hpushes (by simp [hm]) h
  | worker now =>
    rw [stateAt_worker s hm]
    obtain ⟨hw, -⟩ | ⟨n, t, rest, hw, -, -, he⟩ | ⟨n, t, rest, hw, -, -, he⟩ :=
      worker_ledger now (stateAt_queued hs hq moves k)
    · simp [hw] at h
    · rw [he]
      exact apply_position h
    · rw [he]
      exact apply_position h

/-- What waits comes to the front as fast as the worker iterates. -/
theorem position_turns {i j p : Nat} {e : PendingNotification × Nat} (hij : i ≤ j)
    (h : (ledger (s.stateAt moves i).log).waiting[p + turns moves i j]? = some e) :
    (ledger (s.stateAt moves j).log).waiting[p]? = some e := by
  induction j, hij using Nat.le_induction generalizing p with
  | base => simpa using h
  | succ j hij ih =>
    cases hm : moves[j]? with
    | none =>
      rw [turns_succ_none hm] at h
      have hsame : s.stateAt moves (j + 1) = s.stateAt moves j := by
        simp only [stateAt, run_take_none s hm]
      rw [hsame]
      exact ih h
    | some m =>
      rw [turns_succ hij hm] at h
      refine position_succ hs hq moves hm (ih ?_)
      rw [← h]
      congr 1
      omega

/-- The iteration that finds an offline recipient's notification in front puts it
behind all others. -/
theorem requeued_last {j t : Nat} {n : PendingNotification} {now : UInt64}
    (hm : moves[j]? = some (.worker now))
    (hfront : (ledger (s.stateAt moves j).log).waiting[0]? = some (n, t))
    (hoff : ¬(s.stateAt moves j).Online n.recipient) :
    (ledger (s.stateAt moves (j + 1)).log).waiting.getLast? = some (n, t) := by
  rw [stateAt_worker s hm]
  obtain ⟨hw, -⟩ | ⟨n', t', rest, hw, -, -, he⟩ | ⟨n', t', rest, hw, hon, -, -⟩ :=
    worker_ledger now (stateAt_queued hs hq moves j)
  · simp [hw] at hfront
  · rw [hw] at hfront
    cases hfront
    rw [he, apply_back hw, List.getLast?_concat]
  · rw [hw] at hfront
    cases hfront
    exact absurd hon hoff

end run

/-- A notification with `p` others before it has its turn at the iteration `p + 1` of
the worker, and not before: it is delivered then if its recipient is online, and goes
behind all that wait otherwise. -/
theorem served_in_turn (thisPeer : Peer) (peers : List Peer) (disk : Disk)
    (profiles : ProfileManager) (moves : List Move) {i k p t : Nat} {n : PendingNotification}
    (hik : i ≤ k)
    (hwait : (ledger ((new thisPeer peers disk profiles).stateAt moves i).log).waiting[p]? =
      some (n, t))
    (hturns : p < turns moves i k) :
    ∃ j, i ≤ j ∧ j < k ∧ turns moves i j = p ∧
      (∀ d, i ≤ d → d < j → ¬Delivers (new thisPeer peers disk profiles) moves d n t) ∧
      (Delivers (new thisPeer peers disk profiles) moves j n t ↔
        ((new thisPeer peers disk profiles).stateAt moves j).Online n.recipient) ∧
      (¬((new thisPeer peers disk profiles).stateAt moves j).Online n.recipient →
        (ledger ((new thisPeer peers disk profiles).stateAt moves (j + 1)).log).waiting.getLast? =
          some (n, t)) := by
  generalize hs : new thisPeer peers disk profiles = s at hwait ⊢
  have hlog : s.log = [] := by rw [← hs]; rfl
  have hqueue : s.notificationQueue = [] := by rw [← hs]; rfl
  obtain ⟨j, hij, hjk, hj, now, hm⟩ := exists_turn hik hturns
  have hfront : (ledger (s.stateAt moves j).log).waiting[0]? = some (n, t) :=
    position_turns hlog hqueue moves hij (by rwa [hj, Nat.zero_add])
  refine ⟨j, hij, hjk, hj, fun d hid hdj hd => ?_, ?_, fun hoff =>
    requeued_last hlog hqueue moves hm hfront hoff⟩
  · have htaken := (mem_taken hlog hqueue moves j n t).mpr ⟨d, hdj, hd⟩
    have hdisjoint := (List.nodup_append.mp (ledger_sound (s.stateAt moves j).log).nodup).2.2
    exact hdisjoint (n, t) (List.mem_of_getElem? hfront) (n, t) htaken rfl
  · exact ⟨fun hd => hd.online, fun hon => ⟨⟨now, hm⟩, by rwa [List.head?_eq_getElem?], hon⟩⟩

/-- Two users connect, the second follows the first, the first sends a message, and
the worker comes to it. -/
def oneFollower : List Move :=
  handling 32 (clientPacket packetConnectCmd 0 [97]) ⟨[], 1⟩ ++
    handling 32 (clientPacket packetConnectCmd 0 [98]) ⟨[], 2⟩ ++
    handling 32 (clientPacket packetFollowCmd 0 [97]) ⟨[], 2⟩ ++
    handling 32 (clientPacket packetSendCmd 0 [109]) ⟨[], 1⟩ ++ [.worker 0]

theorem served_in_turn_one_follower : ∃ j, 132 ≤ j ∧ j < 133 ∧
    (Delivers alone oneFollower j ⟨[97], [109], 1⟩ 0 ↔ (alone.stateAt oneFollower j).Online 1) := by
  obtain ⟨j, hij, hjk, -, -, hd, -⟩ := served_in_turn ⟨[], 0, true⟩ [] ⟨true, none⟩ ⟨[]⟩ oneFollower
    (i := 132) (k := 133) (p := 0) (t := 0) (n := ⟨[97], [109], 1⟩) (by decide)
    (by decide +kernel) (by decide)
  exact ⟨j, hij, hjk, hd⟩

end Server

end Piupiu
