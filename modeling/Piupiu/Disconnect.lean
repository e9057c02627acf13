import Piupiu.SessionViews

/-!
# What a DISCONNECT leaves behind

`EndSession` erases the first socket of the user that equals the sender's. The
network may bring a CONNECT twice, and `StartSession` then adds the sender twice,
so what a DISCONNECT leaves depends on the packets before it.
-/
namespace Piupiu

open Atomic

namespace Server

/-- No CONNECT for `u` from `a` is handled by the moves from `j` to `d`. -/
def Away (s : Server) (moves : List Move) (j d : Nat) (u : Str) (a : SocketAddress) : Prop :=
  ∀ i, j ≤ i → i < d → ∀ now message, moves[i]? = some (.arrive now message a) →
    (s.run (moves.take i)).idle = true → ¬(message.type = packetConnectCmd ∧ message.text = u)

/-- After `j` moves `a` is no socket of `u`, and it is sent nothing for `u` until it
connects as `u` again. -/
structure Gone (s : Server) (moves : List Move) (j : Nat) (u : Str) (a : SocketAddress) :
    Prop where
  removed : a ∉ (s.stateAt moves j).sessionManager.getUserAddresses u
  silent : ∀ d, j ≤ d → Away s moves j d u a → ∀ n t, Delivers s moves d n t →
    ((s.stateAt moves d).profileManager.deref n.recipient).handle = u →
    ∃ events, (s.stateAt moves (d + 1)).log = (s.stateAt moves d).log ++ events ∧
      ∀ message, .sent a message .notification ∉ events

theorem not_mem_erase_iff {a : SocketAddress} {l : List SocketAddress} :
    a ∉ l.erase a ↔ l.count a ≤ 1 := by
  rw [← List.count_eq_zero, List.count_erase_self]
  omega

/-- The sender is gone exactly when it stood in the list once at most. -/
theorem handles_disconnect {s : Server} {moves : List Move} {i j : Nat} {message : Packet}
    {a : SocketAddress} (h : Handles s moves i j message a)
    (htype : message.type = packetDisconnectCmd)
    (hu : (s.stateAt moves i).profileManager.getProfileByName message.text ≠ none) :
    a ∉ (s.stateAt moves j).sessionManager.getUserAddresses message.text ↔
      ((s.stateAt moves i).sessionManager.getUserAddresses message.text).count a ≤ 1 := by
  have hstore := (handles_ended h).store
  have hsessions : (s.stateAt moves j).sessionManager =
      ((s.stateAt moves i).store.handle message a).sessions := congrArg Store.sessions hstore
  have hconnect : message.type ≠ packetConnectCmd := by
    rw [htype]
    decide
  rw [hsessions, Store.handle_addresses, if_neg hconnect, if_pos ⟨htype, hu⟩,
    SessionManager.endSession_addresses, if_pos rfl]
  exact not_mem_erase_iff

/-- Only a CONNECT for `u` from `a` makes `a` a socket of `u`. -/
theorem away_preserved (u : Str) (a : SocketAddress) : Preserves
    (fun _ message address => address = a → ¬(message.type = packetConnectCmd ∧ message.text = u))
    (fun _ => True) fun s => a ∉ s.sessionManager.getUserAddresses u where
  stable _ _ _ _ := trivial
  ended _ _ _ _ _ _ _ _ := trivial
  step s₀ s s' now message address hok _ _ h hstep := by
    cases hstep with
    | startSession p htype hp =>
      simp only [Server.startSession, record, hp]
      rw [SessionManager.startSession_addresses]
      split
      · next hu =>
        obtain ⟨hu, -⟩ := hu
        rw [List.mem_append, List.mem_singleton, ← hu]
        rintro (hm | rfl)
        · exact h hm
        · exact hok rfl ⟨htype, hu.symm⟩
      · exact h
    | endSession p =>
      simp only [Server.endSession, record]
      rw [SessionManager.endSession_addresses]
      split
      · next hu =>
        rw [← hu]
        exact fun hm => h (List.mem_of_mem_erase hm)
      · exact h
    | sync =>
      unfold Server.sync
      split <;> exact h
    | getConnectedUsers =>
      unfold Server.getConnectedUsers
      split <;> exact h
    | confirmBuffer =>
      rw [confirmBuffer_eq]
      exact h
    | confirmToPrimary =>
      unfold Server.confirmToPrimary
      split <;> exact h
    | _ => exact h
  worker s now h := by
    have hsm : (s.pendingNotificationWorker now).sessionManager = s.sessionManager :=
      congrArg Store.sessions (worker_rely now s).store
    rwa [hsm]

/-- A host that is gone stays gone until it connects again. -/
theorem away_addresses {s : Server} {moves : List Move} {j d : Nat} {u : Str} {a : SocketAddress}
    (hidle : (s.run (moves.take j)).idle = true) (hjd : j ≤ d) (haway : Away s moves j d u a)
    (hgone : a ∉ (s.stateAt moves j).sessionManager.getUserAddresses u) :
    a ∉ (s.stateAt moves d).sessionManager.getUserAddresses u := by
  obtain ⟨k, rfl⟩ := Nat.exists_eq_add_of_le hjd
  have hresume : ∀ i, s.run (moves.take (j + i)) =
      (s.stateAt moves j).run ((moves.drop j).take i) := by
    intro i
    rw [List.take_add, run_resume hidle]
    rfl
  have hadmits : Admits (fun _ message address => address = a →
      ¬(message.type = packetConnectCmd ∧ message.text = u)) (s.stateAt moves j)
      ((moves.drop j).take k) := by
    rintro i now message address hi hi' rfl
    have hlt := (List.getElem?_eq_some_iff.mp hi).1
    rw [List.length_take] at hlt
    rw [List.take_take, Nat.min_eq_left (by omega), ← hresume i] at hi'
    rw [List.getElem?_take_of_lt (by omega), List.getElem?_drop] at hi
    exact haway (j + i) (by omega) (by omega) now message hi hi'
  have hrun := run_tracked (away_preserved u a) trivial hgone hadmits
  rw [stateAt, hresume k]
  exact hrun.holds

/-- A DISCONNECT for an existing user is complete exactly when its sender stands in
the user's session at most once. -/
theorem disconnect_complete_iff (thisPeer : Peer) (peers : List Peer) (disk : Disk)
    (moves : List Move) {i j : Nat} {message : Packet} {a : SocketAddress}
    (h : Handles (new thisPeer peers disk ⟨[]⟩) moves i j message a)
    (htype : message.type = packetDisconnectCmd)
    (hu : ((new thisPeer peers disk ⟨[]⟩).stateAt moves i).profileManager.getProfileByName
      message.text ≠ none) :
    Gone (new thisPeer peers disk ⟨[]⟩) moves j message.text a ↔
      (((new thisPeer peers disk ⟨[]⟩).stateAt moves i).sessionManager.getUserAddresses
        message.text).count a ≤ 1 := by
  rw [← handles_disconnect h htype hu]
  refine ⟨Gone.removed, fun hgone => ⟨hgone, fun d hjd haway n t hd hhandle => ?_⟩⟩
  obtain ⟨now, sockets, hsockets, -, hlog⟩ := delivers_log rfl rfl moves hd
  refine ⟨_, hlog, fun packet hm => ?_⟩
  obtain hm := mem_replyEvents ((List.mem_cons.mp hm).resolve_left (by simp))
  have hqueued : n ∈ ((new thisPeer peers disk ⟨[]⟩).stateAt moves d).notificationQueue := by
    obtain ⟨rest, hw⟩ := List.head?_eq_some_iff.mp hd.front
    rw [← (stateAt_queued rfl rfl moves d).waiting, hw]
    exact List.mem_cons_self
  have hwalked := run_walked thisPeer peers disk (moves.take d) hqueued
  have he : sockets = ((new thisPeer peers disk ⟨[]⟩).stateAt moves d).sessionManager.getUserAddresses
      message.text := by
    rw [← hhandle]
    exact Option.some.inj (hsockets.symm.trans hwalked)
  rw [he] at hm
  exact away_addresses h.done hjd haway hgone hm

/-- A host connects `times` times as one user and disconnects. -/
def visits (times : Nat) : List Move :=
  (List.replicate times (handling 31 (clientPacket packetConnectCmd 0 [97]) ⟨[], 1⟩)).flatten ++
    handling 3 (clientPacket packetDisconnectCmd 0 [97]) ⟨[], 1⟩

/-- The one CONNECT of a host is undone by its DISCONNECT. -/
theorem disconnect_complete_iff_once :
    Gone alone (visits 1) 36 (clientPacket packetDisconnectCmd 0 [97]).text ⟨[], 1⟩ := by
  have h : Handles alone (visits 1) 32 36 (clientPacket packetDisconnectCmd 0 [97]) ⟨[], 1⟩ :=
    ⟨⟨0, rfl⟩, by decide +kernel, by decide, fun k hk hk' => by
      interval_cases k <;> decide +kernel, by decide +kernel⟩
  exact (disconnect_complete_iff _ _ _ _ h rfl (by decide +kernel)).mpr (by decide +kernel)

/-- A CONNECT that the network brings twice leaves the host connected. -/
theorem not_gone_after_repeated_connect :
    Handles alone (visits 2) 64 68 (clientPacket packetDisconnectCmd 0 [97]) ⟨[], 1⟩ ∧
    ¬Gone alone (visits 2) 68 [97] ⟨[], 1⟩ := by
  constructor
  · exact ⟨⟨0, rfl⟩, by decide +kernel, by decide, fun k hk hk' => by
      interval_cases k <;> decide +kernel, by decide +kernel⟩
  · intro h
    exact absurd h.removed (by decide +kernel)

end Server

end Piupiu
