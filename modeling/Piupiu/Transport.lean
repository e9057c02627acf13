import Piupiu.Wire
import Piupiu.World

/-!
# The network as it is

Between a `sendto` and a `recvfrom` a packet is bytes, with padding that nobody has set,
and it is received into memory that was used before: one buffer for each server, one
packet for each client. Clients and servers that are connected in this way do what they
do when packets are handed from one to the other.
-/
namespace Piupiu

open Atomic Batches

/-- The server takes the bytes of a packet for this packet. -/
theorem receive_packet (b : Buffer) (p : Packet) (padding : Padding) :
    (b.receive (p.bytes padding)).1.packet = p := by
  have hlength : (p.bytes padding).length = packetSize := length_packet_bytes p padding
  have htake : (b.receive (p.bytes padding)).1.start.1 = p.bytes padding :=
    (receive_take b hlength.ge).trans (List.take_of_length_le hlength.le)
  rw [← start_packet]
  exact packet_of_bytes htake

/-- And so does the client. -/
theorem Memory.receive_packet (m : Memory) (p : Packet) (padding : Padding) :
    (m.receive (p.bytes padding)).packet = p := by
  have hlength : (p.bytes padding).length = packetSize := length_packet_bytes p padding
  exact packet_of_bytes ((m.receive_take hlength.ge).trans (List.take_of_length_le hlength.le))

/-- The world, and the memory that packets are received into. -/
structure Wired (ι : Type) where
  world : World ι
  buffer : Node → Buffer
  memory : ι → Memory

namespace Wired

variable {ι : Type} [DecidableEq ι] (s : Sorter Packet.before) (site : Site ι)

/-- What the server that receives a datagram does with it. -/
def received (b : Buffer) (padding : Padding) : Server.Parallel.Move → Buffer × Server.Parallel.Move
  | .arrive now message sender =>
    let b' := (b.receive (message.bytes padding)).1
    (b', .arrive now b'.packet sender)
  | m => (b, m)

/-- What the client that receives a datagram does with it. -/
def read (memory : Memory) (padding : Padding) : Terminal.Move → Memory × Terminal.Move
  | .packet now p =>
    let memory' := memory.receive (p.bytes padding)
    (memory', .packet now memory'.packet)
  | m => (memory, m)

/-- A move of the world; a packet that it delivers is sent with this padding. -/
def move (w : Wired ι) (mv : World.Move ι × Padding) : Wired ι where
  world :=
    { server :=
        match World.serverMove site w.world mv.1 with
        | some (n, m) => Function.update w.world.server n
            (Server.Parallel.move (w.world.server n) (received (w.buffer n) mv.2 m).2)
        | none => w.world.server
      terminal :=
        match World.clientMove site w.world mv.1 with
        | some (i, m) => Function.update w.world.terminal i
            ((w.world.terminal i).move s (read (w.memory i) mv.2 m).2)
        | none => w.world.terminal }
  buffer :=
    match World.serverMove site w.world mv.1 with
    | some (n, m) => Function.update w.buffer n (received (w.buffer n) mv.2 m).1
    | none => w.buffer
  memory :=
    match World.clientMove site w.world mv.1 with
    | some (i, m) => Function.update w.memory i (read (w.memory i) mv.2 m).1
    | none => w.memory

def run (w : Wired ι) (moves : List (World.Move ι × Padding)) : Wired ι := moves.foldl (move s site) w

theorem received_move (b : Buffer) (padding : Padding) (m : Server.Parallel.Move) :
    (received b padding m).2 = m := by
  cases m with
  | arrive now message sender => simp only [received, receive_packet]
  | advance i => rfl
  | worker now => rfl

theorem read_move (memory : Memory) (padding : Padding) (m : Terminal.Move) :
    (read memory padding m).2 = m := by
  cases m with
  | packet now p => simp only [read, Memory.receive_packet]
  | _ => rfl

theorem move_world (w : Wired ι) (mv : World.Move ι × Padding) :
    (w.move s site mv).world = w.world.move s site mv.1 := by
  cases hserver : World.serverMove site w.world mv.1 <;>
    cases hclient : World.clientMove site w.world mv.1 <;>
    simp only [move, World.move, hserver, hclient, received_move, read_move]

/-- Whatever stands in the padding, in the buffers and in the packets of the clients:
what is done with bytes is done with packets. -/
theorem run_world (w : Wired ι) (moves : List (World.Move ι × Padding)) :
    (w.run s site moves).world = w.world.run s site (moves.map Prod.fst) := by
  induction moves generalizing w with
  | nil => rfl
  | cons mv moves ih =>
    have hmoved := ih (w.move s site mv)
    rw [move_world] at hmoved
    exact hmoved

end Wired

end Piupiu
