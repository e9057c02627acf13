import Piupiu.Cluster
import Piupiu.BroadcastNumbers

/-!
# Clients that contact a secondary

A secondary confirms every CONNECT to its primary, also one that came straight from
a client and carries a number of the client's. The primary looks for this number
among those of its own slots.
-/
namespace Piupiu

open Atomic Server Cluster

/-- The sender of the packet that was taken up. -/
def Event.startedFrom? : Event → Option SocketAddress
  | .started _ address => some address
  | _ => none

theorem executed_started {log : List Event} {message : Packet} {address : SocketAddress}
    (h : Executed log message address) : .started message address ∈ log := by
  obtain ⟨before, after, primary, now, granted, rfl, -, hserving⟩ := h
  exact List.mem_append_left _ (started_of_serving hserving)

namespace OpenCluster

/-- What can happen in a cluster, and a packet that a client sends straight to a
secondary. -/
inductive Move where
  | cluster (mv : Cluster.Move)
  | direct (i : Fin 3) (now : UInt64) (message : Packet) (address : SocketAddress)
      (command : message.type ≠ packetConfirmStateChange)

variable (d : Deployment)

def localMove (c : Cluster) : Move → Option (Node × Server.Move)
  | .cluster mv => Cluster.localMove d c mv
  | .direct i now message address _ => some (.secondary i, .arrive now message address)

def move (c : Cluster) (mv : Move) : Cluster := c.act (localMove d c mv)

def run (c : Cluster) (moves : List Move) : Cluster := moves.foldl (move d) c

theorem run_concat (c : Cluster) (moves : List Move) (mv : Move) :
    run d c (moves ++ [mv]) = (run d c moves).act (localMove d (run d c moves) mv) := by
  simp [run, move]

def Move.direct? : Move → Option (Fin 3 × Packet × SocketAddress)
  | .cluster _ => none
  | .direct i _ message address _ => some (i, message, address)

/-- A client sends the packet straight to the secondary at some time. -/
def Sends (moves : List Move) (i : Fin 3) (message : Packet) (address : SocketAddress) : Prop :=
  (i, message, address) ∈ moves.filterMap Move.direct?

theorem Sends.mono {moves more : List Move} (h : moves ⊆ more) {i : Fin 3} {message : Packet}
    {address : SocketAddress} (hs : Sends moves i message address) : Sends more i message address := by
  obtain ⟨mv, hm, he⟩ := List.mem_filterMap.mp hs
  exact List.mem_filterMap.mpr ⟨mv, h hm, he⟩

/-- What the clients send to each server. -/
def FromClients (moves : List Move) (n : Node) (message : Packet) (address : SocketAddress) : Prop :=
  message.type ≠ packetConfirmStateChange ∧
    (n = .primary ∨ ∃ i, n = .secondary i ∧ Sends moves i message address)

theorem fromClients_mono {moves more : List Move} (h : moves ⊆ more) {n : Node} {message : Packet}
    {address : SocketAddress} (hf : FromClients moves n message address) :
    FromClients more n message address := by
  refine hf.imp_right fun hn => hn.imp_right ?_
  rintro ⟨i, hi, hs⟩
  exact ⟨i, hi, hs.mono h⟩

theorem localMove_reached (moves : List Move) (mv : Move) (c : Cluster) (n : Node) (now : UInt64)
    (message : Packet) (sender : SocketAddress)
    (h : localMove d c mv = some (n, .arrive now message sender)) :
    Reached d (FromClients (moves ++ [mv])) c n message sender := by
  cases mv with
  | direct i now' message' address command =>
    cases h
    have hsends : Sends (moves ++ [.direct i now message sender command]) i message sender :=
      List.mem_filterMap.mpr ⟨_, List.mem_append_right _ List.mem_cons_self, rfl⟩
    exact .inl ⟨command, .inr ⟨i, rfl, hsends⟩⟩
  | cluster mv =>
    obtain ⟨command, rfl, -⟩ | hsent := localMove_arrive d h
    · exact .inl ⟨command, .inl rfl⟩
    · exact .inr hsent

section run

variable (disk : Node → Disk) (profiles : Node → ProfileManager)

theorem run_traced (moves : List Move) (n : Node) :
    ((run d (start d disk profiles) moves).node n).shared.Acknowledged ∧
    ((run d (start d disk profiles) moves).node n).shared.Traced
      (Reached d (FromClients moves) (run d (start d disk profiles) moves) n) (d.replicas n) :=
  local_traced d (localMove d) FromClients
    (fun _ _ _ _ _ h => fromClients_mono (List.subset_append_left _ _) h) (localMove_reached d)
    disk profiles moves n

theorem run_log (moves more : List Move) (n : Node) :
    ((run d (start d disk profiles) moves).node n).shared.log <+:
      ((run d (start d disk profiles) (moves ++ more)).node n).shared.log := by
  induction more using List.reverseRecOn with
  | nil => rw [List.append_nil]
  | append_singleton more mv ih =>
    have hlocal := local_runs d (localMove d) FromClients
      (fun _ _ _ _ _ h => fromClients_mono (List.subset_append_left _ _) h) (localMove_reached d)
      disk profiles (moves ++ more)
    have hlog := act_log d (fun n => (hlocal n).imp fun ms h => h.1)
      (localMove d (run d (start d disk profiles) (moves ++ more)) mv) n
    rw [← List.append_assoc, run_concat]
    exact ih.trans hlog

end run

/-- The slots of the primary that are confirmed are those of copies that were
executed, and a CONNECT that a client sends straight to a secondary confirms none. -/
structure Undisturbed (c : Cluster) (moves : List Move) : Prop where
  handled : ∀ (k : Nat) (container : ConfirmableContainer 3) (j : Fin 3),
    (c.node .primary).shared.replicaManager.confirmationBuffer[k]? = some container →
    (container.content.get j).confirmed = true →
    ∃ k', CopyExecuted d c k' (container.content.get j).item.sequenceNumber ∧
      ((c.node .primary).shared.lastSeqn < 2 ^ 64 → k' = k)
  untouched : ∀ (i : Fin 3) (message : Packet) (address : SocketAddress),
    Sends moves i message address → message.type = packetConnectCmd →
    ((c.node .primary).shared.replicaManager.confirmationBuffer.confirm message.seqn).1 =
      (c.node .primary).shared.replicaManager.confirmationBuffer

/-- No client sends a secondary a CONNECT with the number of a slot of the primary. -/
def Apart (c : Cluster) (moves : List Move) : Prop :=
  ∀ (i : Fin 3) (message : Packet) (address : SocketAddress), Sends moves i message address →
    message.type = packetConnectCmd →
    ∀ container ∈ (c.node .primary).shared.replicaManager.confirmationBuffer, ∀ j : Fin 3,
      (container.content.get j).item.sequenceNumber ≠ message.seqn

variable {d} {c : Cluster} {moves : List Move}

theorem slot_number (lastSeqn seqn : UInt64) (message : Packet) (address : SocketAddress)
    (after : List (ConfirmationBuffer.Call 3)) (j : Fin 3) :
    ((ConfirmationBuffer.settled (ReplicaManager.copies lastSeqn message) seqn address
      after).content.get j).item.sequenceNumber = lastSeqn + UInt64.ofNat j := by
  rw [← ReplicaManager.copies_sequenceNumber lastSeqn message j]
  simp [ConfirmationBuffer.settled, Vector.get_eq_getElem]

theorem slot_confirmed {lastSeqn seqn : UInt64} {message : Packet} {address : SocketAddress}
    {log : List Event} {j : Fin 3}
    (h : ((ConfirmationBuffer.settled (ReplicaManager.copies lastSeqn message) seqn address
      (calls log)).content.get j).confirmed = true) :
    .confirm (lastSeqn + UInt64.ofNat j) ∈ log := by
  have hnumber := ReplicaManager.copies_sequenceNumber lastSeqn message j
  simp only [ConfirmationBuffer.settled, Vector.get_eq_getElem, Vector.getElem_map,
    decide_eq_true_eq] at h
  rw [← mem_confirmed_calls, ← hnumber]
  exact h

/-- Every container belongs to a broadcast. -/
theorem container_broadcast {s : Server} (h : s.Acknowledged) {k : Nat}
    {container : ConfirmableContainer 3}
    (hc : s.replicaManager.confirmationBuffer[k]? = some container) :
    ∃ b, (broadcasts s.log)[k]? = some b ∧ container =
      ConfirmationBuffer.settled (ReplicaManager.copies b.lastSeqn b.message) b.message.seqn
        b.senderAddress (calls (since s.log k)) := by
  have hlt := (List.getElem?_eq_some_iff.mp hc).1
  rw [h.length] at hlt
  have hb := List.getElem?_eq_getElem hlt
  have hget := run_calls_get hb
  rw [h.history] at hget
  exact ⟨_, hb, Option.some.inj (hc.symm.trans hget)⟩

theorem confirm_absent {container : ConfirmableContainer 3} {n : UInt64}
    (h : ∀ j : Fin 3, (container.content.get j).item.sequenceNumber ≠ n) :
    container.confirm n = container := by
  have hcontent : (container.confirm n).content = container.content := by
    ext1 j hj
    have hne := h ⟨j, hj⟩
    simp only [Vector.get_eq_getElem] at hne
    simp only [ConfirmableContainer.confirm, Vector.getElem_map]
    rw [if_neg hne]
  exact congrArg (fun content => { container with content := content }) hcontent

theorem undisturbed_of_apart (hack : (c.node .primary).shared.Acknowledged)
    (h : ∀ n, (c.node n).shared.Traced (Reached d (FromClients moves) c n) (d.replicas n))
    (hapart : Apart c moves) : Undisturbed d c moves := by
  constructor
  · intro k container j hc hconfirmed
    obtain ⟨b, hb, he⟩ := container_broadcast hack hc
    have hnumber : (container.content.get j).item.sequenceNumber =
        b.lastSeqn + UInt64.ofNat j := by rw [he, slot_number]
    rw [he] at hconfirmed
    have hlog := (since_suffix _ k).subset (slot_confirmed hconfirmed)
    rw [hnumber]
    obtain ⟨k', hcopy⟩ | ⟨i, message, sender, hdirect, htype, hseqn⟩ :=
      confirmed_number h (fun n message sender hd => hd.1) hlog
    · refine ⟨k', hcopy, fun hwrap => ?_⟩
      obtain ⟨i, b', copy, hb', rfl, hn, -⟩ := hcopy
      obtain ⟨spans, hspans⟩ := (h .primary).spans
      obtain ⟨x, hx, hfirst, -⟩ := hspans.get hb
      obtain ⟨x', hx', -, hsecond⟩ := hspans.get hb'
      rw [hfirst, hsecond] at hn
      have hnat := hspans.number_eq hwrap (List.mem_of_getElem? hx) (List.mem_of_getElem? hx')
        j.isLt i.isLt hn
      exact (hspans.same_of_number hx hx' j.isLt i.isLt hnat).symm
    · obtain ⟨i', -, hsends⟩ := hdirect.2.resolve_left (by simp)
      exact absurd (hnumber.trans hseqn)
        (hapart i' message sender hsends htype container (List.mem_of_getElem? hc) j)
  · intro i message address hsends htype
    rw [ConfirmationBuffer.confirm_containers]
    have hsame : ∀ container ∈ (c.node .primary).shared.replicaManager.confirmationBuffer,
        container.confirm message.seqn = container := fun container hm =>
      confirm_absent (hapart i message address hsends htype container hm)
    exact (List.map_congr_left hsame).trans (List.map_id' _)

/-- A slot keeps its number. -/
theorem apart_take (disk : Node → Disk) (profiles : Node → ProfileManager) {moves : List Move}
    (hapart : Apart (run d (start d disk profiles) moves) moves) (k : Nat) :
    Apart (run d (start d disk profiles) (moves.take k)) (moves.take k) := by
  intro i message address hsends htype container hm j
  have hsends := hsends.mono (List.take_subset k moves)
  obtain ⟨k', hk'⟩ := List.getElem?_of_mem hm
  have hback := (run_traced d disk profiles (moves.take k) .primary).1
  have hack := (run_traced d disk profiles moves .primary).1
  obtain ⟨b, hb, he⟩ := container_broadcast hback hk'
  have hlog := run_log d disk profiles (moves.take k) (moves.drop k) .primary
  rw [List.take_append_drop] at hlog
  obtain ⟨events, hlog⟩ := hlog
  have hb' : (broadcasts ((run d (start d disk profiles) moves).node .primary).shared.log)[k']? =
      some b := by
    rw [← hlog, broadcasts_append, List.getElem?_append_left (List.getElem?_eq_some_iff.mp hb).1, hb]
  have hget := run_calls_get hb'
  rw [hack.history] at hget
  have hne := hapart i message address hsends htype _ (List.mem_of_getElem? hget) j
  rw [he, slot_number]
  rwa [slot_number] at hne

/-- In every state of a run in which no client sends a secondary a CONNECT with the
number of a slot, replication is not disturbed. -/
theorem direct_connects_harmless (d : Deployment) (disk : Node → Disk)
    (profiles : Node → ProfileManager) (moves : List Move)
    (hapart : Apart (run d (start d disk profiles) moves) moves) (k : Nat) :
    Undisturbed d (run d (start d disk profiles) (moves.take k)) (moves.take k) := by
  have htraced := run_traced d disk profiles (moves.take k)
  exact undisturbed_of_apart (htraced .primary).1 (fun n => (htraced n).2)
    (apart_take disk profiles hapart k)

theorem connect_ne_confirm : packetConnectCmd ≠ packetConfirmStateChange := by decide

def firstSecondary : Fin 3 := ⟨0, ConfirmableContainer.firstSlot_lt⟩

/-- A client connects to the primary and another one to a secondary, which confirms
its CONNECT. The second client chose the number `seqn`. -/
def twoClients (seqn : UInt64) : List Move :=
  (.client 0 (clientPacket packetConnectCmd 0 [97]) ⟨[], 9⟩ connect_ne_confirm ::
    advances .primary 20).map .cluster ++
  .direct firstSecondary 0 (clientPacket packetConnectCmd seqn [98]) ⟨[], 8⟩ connect_ne_confirm ::
    (advances (.secondary firstSecondary) 12 ++
      delivery (.secondary firstSecondary) 2 .primary 3).map .cluster

/-- The cluster in which the two clients connect. -/
def connectedTwo (seqn : UInt64) : Cluster :=
  run launched (start launched (fun _ => ⟨true, none⟩) fun _ => ⟨[]⟩) (twoClients seqn)

theorem twoClients_direct (seqn : UInt64) : (twoClients seqn).filterMap Move.direct? =
    [(firstSecondary, clientPacket packetConnectCmd seqn [98], ⟨[], 8⟩)] := rfl

/-- The number 7 is that of no slot. -/
theorem direct_connects_harmless_seven : Undisturbed launched
    (run launched (start launched (fun _ => ⟨true, none⟩) fun _ => ⟨[]⟩) ((twoClients 7).take 60))
    ((twoClients 7).take 60) := by
  refine direct_connects_harmless launched _ _ (twoClients 7) (fun i message address hs _ => ?_) 60
  rw [Sends, twoClients_direct, List.mem_singleton] at hs
  cases hs
  have hnumbers : ∀ container ∈
      ((connectedTwo 7).node .primary).shared.replicaManager.confirmationBuffer,
      ∀ j : Fin 3, (container.content.get j).item.sequenceNumber ≠ 7 := by decide +kernel
  exact hnumbers

/-- The second client chose the number of a slot: the slot is confirmed, and no
secondary has received a copy. -/
theorem not_undisturbed : ¬Undisturbed launched (connectedTwo 0) (twoClients 0) := by
  intro h
  have hslot : (((connectedTwo 0).node .primary).shared.replicaManager.confirmationBuffer[0]?.map
      fun container => (container.content.get 0).confirmed) = some true := by decide +kernel
  obtain ⟨container, hc, hconfirmed⟩ := Option.map_eq_some_iff.mp hslot
  obtain ⟨k', ⟨i, b, copy, -, -, -, -, hexecuted⟩, -⟩ := h.handled 0 container 0 hc hconfirmed
  have hnone : ∀ i : Fin 3, ∀ e ∈ ((connectedTwo 0).node (.secondary i)).shared.log,
      e.startedFrom? ≠ some (launched.address .primary) := by decide +kernel
  exact hnone i _ (executed_started hexecuted) rfl

end OpenCluster

end Piupiu
