import Piupiu.ConfirmationBuffer

/-!
# Replicas

The peers of a server and, on the primary, the buffer of forwarded packets that
await their confirmations. On a secondary the buffer does not exist, and nothing
below touches it there.
-/
namespace Piupiu

structure Peer where
  address : Str
  port : Int
  primary : Bool
  deriving DecidableEq, Inhabited, Repr

def Peer.getSocketAddress (p : Peer) : SocketAddress := ⟨p.address, p.port⟩

namespace ConfirmableContainer

theorem firstSlot_lt : 0 < 3 := by decide

/-- The packet in the first slot of a container. -/
def firstPacket (c : ConfirmableContainer 3) : Packet := (c.content.get ⟨0, firstSlot_lt⟩).item.packet

theorem firstPacket_eq (c : ConfirmableContainer 3) : c.firstPacket = c.content[0].item.packet := rfl

theorem confirm_firstPacket (c : ConfirmableContainer 3) (n : UInt64) :
    (c.confirm n).firstPacket = c.firstPacket :=
  congrArg BaseMessage.packet (c.confirm_item n 0 firstSlot_lt)

end ConfirmableContainer

structure ReplicaManager where
  thisPeer : Peer
  peers : List Peer
  confirmationBuffer : ConfirmationBuffer 3

namespace ReplicaManager

def isPrimary (m : ReplicaManager) : Bool := m.thisPeer.primary

def getSecondaryReplicas (m : ReplicaManager) : List Peer := m.peers.filter fun peer => !peer.primary

/-- `none` is the exception that is thrown when no peer is primary. -/
def getPrimaryReplica (m : ReplicaManager) : Option Peer :=
  if m.isPrimary then some m.thisPeer else m.peers.find? fun peer => peer.primary

/-- The three copies of a message that `BroadcastToSecondaries` allocates. -/
def copies (lastSeqn : UInt64) (message : Packet) : Vector BaseMessage 3 :=
  #v[⟨lastSeqn, message⟩, ⟨lastSeqn + 1, message⟩, ⟨lastSeqn + 2, message⟩]

theorem copies_sequenceNumber (lastSeqn : UInt64) (message : Packet) (i : Fin 3) :
    (copies lastSeqn message)[i].sequenceNumber = lastSeqn + UInt64.ofNat i := by
  match i with
  | 0 => exact (UInt64.add_zero lastSeqn).symm
  | 1 => rfl
  | 2 => rfl

end ReplicaManager

end Piupiu
