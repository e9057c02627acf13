import Piupiu.Packet

/-!
# From datagrams to packets

`Listen` receives every datagram into one buffer and reads a `Packet` from its
start, whatever the length of the datagram. The layout is that of the x86-64 ABI:
little endian, each field at a multiple of its size.
-/
namespace Piupiu

def bufferSize : Nat := 2048

/-- `sizeof(Message::Packet)`. -/
def packetSize : Nat := 544

/-- The array `char buffer[this->bufferSize]`. -/
abbrev Buffer := { bytes : List UInt8 // bytes.length = bufferSize }

/-- A datagram with at least one byte. -/
abbrev Datagram := { bytes : List UInt8 // bytes ≠ [] }

/-- The unsigned number in the `size` bytes from `offset` on. -/
def field (bytes : List UInt8) (offset size : Nat) : Nat :=
  Nat.ofDigits 256 (((bytes.drop offset).take size).map UInt8.toNat)

/-- `*reinterpret_cast<Message::Packet*>(buffer)`. -/
def Buffer.packet (b : Buffer) : Packet where
  type := UInt16.ofNat (field b.1 0 2)
  seqn := UInt64.ofNat (field b.1 8 8)
  length := UInt16.ofNat (field b.1 16 2)
  timestamp := UInt64.ofNat (field b.1 24 8)
  payload := ⟨(b.1.drop 32).take packetMaxPayloadLen, by
    simp [b.2, bufferSize, packetMaxPayloadLen]⟩

/-- `Socket::Receive`: the datagram overwrites the start of the buffer, as far as
there is room, and the number of bytes written is returned. -/
def Buffer.receive (b : Buffer) (datagram : List UInt8) : Buffer × Int :=
  (⟨datagram.take bufferSize ++ b.1.drop datagram.length, by
      simp only [List.length_append, List.length_take, List.length_drop, b.2]
      omega⟩,
    if datagram = [] then -1 else min datagram.length bufferSize)

/-- The packets that the loop of `Listen` passes to `MessageHandler`. -/
def listen (b : Buffer) : List (List UInt8) → List Packet
  | [] => []
  | datagram :: datagrams =>
    let (b', r) := b.receive datagram
    if 0 < r then b'.packet :: listen b' datagrams else listen b' datagrams

/-- The buffer after some datagrams. -/
def Buffer.after (b : Buffer) (datagrams : List Datagram) : Buffer :=
  datagrams.foldl (fun b d => (b.receive d.1).1) b

theorem receive_bytes (b : Buffer) (datagram : List UInt8) : (b.receive datagram).1.1 =
    datagram.take bufferSize ++ b.1.drop datagram.length := rfl

theorem receive_pos (b : Buffer) (d : Datagram) : 0 < (b.receive d.1).2 := by
  have hpos := List.length_pos_of_ne_nil d.2
  simp only [Buffer.receive, if_neg d.2, bufferSize]
  omega

/-- The packet of a datagram is read from what all datagrams so far have left. -/
theorem listen_getElem? (b : Buffer) (datagrams : List Datagram) (k : Nat) :
    (listen b (datagrams.map Subtype.val))[k]? =
      if k < datagrams.length then some (b.after (datagrams.take (k + 1))).packet else none := by
  induction datagrams generalizing b k with
  | nil => simp [listen]
  | cons d datagrams ih =>
    rw [List.map_cons, listen]
    simp only [receive_pos, if_true]
    cases k with
    | zero => simp [Buffer.after]
    | succ k =>
      rw [List.getElem?_cons_succ, ih]
      simp [Buffer.after]

theorem after_concat (b : Buffer) (datagrams : List Datagram) (d : Datagram) :
    b.after (datagrams ++ [d]) = ((b.after datagrams).receive d.1).1 := by
  simp [Buffer.after]

theorem field_take {bytes : List UInt8} {offset size n : Nat} (h : offset + size ≤ n) :
    field (bytes.take n) offset size = field bytes offset size := by
  rw [field, field, List.drop_take, List.take_take, Nat.min_eq_left (by omega)]

/-- A packet is read from the first 544 bytes of the buffer. -/
theorem packet_congr {b b' : Buffer} (h : b.1.take packetSize = b'.1.take packetSize) :
    b.packet = b'.packet := by
  have hfield : ∀ offset size, offset + size ≤ packetSize →
      field b.1 offset size = field b'.1 offset size := fun offset size hle => by
    rw [← field_take hle, h, field_take hle]
  have hpayload : (b.1.drop 32).take packetMaxPayloadLen =
      (b'.1.drop 32).take packetMaxPayloadLen := by
    have := congrArg (List.drop 32) h
    simpa [List.drop_take, packetSize, packetMaxPayloadLen] using this
  simp only [Buffer.packet, hpayload, hfield 0 2 (by decide), hfield 8 8 (by decide),
    hfield 16 2 (by decide), hfield 24 8 (by decide)]

/-- The bytes of a long datagram are all that is read. -/
theorem receive_take (b : Buffer) {datagram : List UInt8} (h : packetSize ≤ datagram.length) :
    (b.receive datagram).1.1.take packetSize = datagram.take packetSize := by
  have hle : packetSize ≤ (datagram.take bufferSize).length := by
    simp only [List.length_take, packetSize, bufferSize] at *
    omega
  rw [receive_bytes, List.take_append_of_le_length hle, List.take_take, Nat.min_eq_left (by decide)]

/-- Any two histories with the same datagram at the same place give the same packet
for it. -/
def Isolated (d : Datagram) : Prop :=
  ∀ (b : Buffer) (datagrams datagrams' : List Datagram) (k : Nat),
    datagrams[k]? = some d → datagrams'[k]? = some d →
      (listen b (datagrams.map Subtype.val))[k]? = (listen b (datagrams'.map Subtype.val))[k]?

/-- A datagram that fills the whole packet with one byte. -/
def filled (x : UInt8) : Datagram :=
  ⟨List.replicate packetSize x, List.ne_nil_of_length_pos (by rw [List.length_replicate]; decide)⟩

/-- A datagram that does not reach the end of the packet leaves there what the
datagram before has put there. -/
theorem last_byte (b : Buffer) {d : Datagram} (hd : d.1.length < packetSize) (x : UInt8) :
    (b.after [filled x, d]).packet.payload.1[511]? = some x := by
  have hfilled : (b.receive (filled x).1).1.1[543]? = some x := by
    have htake : (filled x).1.take bufferSize = List.replicate packetSize x := by
      rw [filled, List.take_replicate]
      rfl
    rw [receive_bytes, htake, List.getElem?_append_left (by rw [List.length_replicate]; decide),
      List.getElem?_replicate, if_pos (by decide)]
  have htake : d.1.take bufferSize = d.1 := List.take_of_length_le (by
    simp only [packetSize, bufferSize] at *
    omega)
  have hle : d.1.length ≤ 543 := by
    simp only [packetSize] at hd
    omega
  have hlast : (b.after [filled x, d]).1[543]? = some x := by
    simp only [Buffer.after, List.foldl_cons, List.foldl_nil]
    rw [receive_bytes, htake, List.getElem?_append_right hle, List.getElem?_drop,
      Nat.add_sub_of_le hle, hfilled]
  simpa [Buffer.packet, packetMaxPayloadLen, List.getElem?_take, List.getElem?_drop] using hlast

theorem listen_second (b : Buffer) (d d' : Datagram) :
    (listen b ([d, d'].map Subtype.val))[1]? = some (b.after [d, d']).packet := by
  rw [listen_getElem?]
  rfl

def Buffer.zero : Buffer := ⟨List.replicate bufferSize 0, List.length_replicate⟩

/-- The packet of a datagram is its own exactly when the datagram is long enough to
fill a packet. -/
theorem isolated_iff (d : Datagram) : Isolated d ↔ packetSize ≤ d.1.length := by
  constructor
  · intro h
    by_contra hlt
    have hd := Nat.lt_of_not_le hlt
    have heq := h .zero [filled 0, d] [filled 1, d] 1 rfl rfl
    rw [listen_second, listen_second, Option.some.injEq] at heq
    have h₀ := last_byte .zero hd 0
    rw [heq, last_byte .zero hd 1] at h₀
    cases h₀
  · intro hle b datagrams datagrams' k hk hk'
    have hpacket : ∀ datagrams : List Datagram, datagrams[k]? = some d →
        (listen b (datagrams.map Subtype.val))[k]? =
          some ((b.after (datagrams.take k)).receive d.1).1.packet := fun datagrams hk => by
      rw [listen_getElem?, if_pos (List.getElem?_eq_some_iff.mp hk).1, List.take_add_one, hk,
        Option.toList_some, after_concat]
    rw [hpacket datagrams hk, hpacket datagrams' hk', Option.some.injEq]
    refine packet_congr ?_
    rw [receive_take _ hle, receive_take _ hle]

/-- A datagram of two bytes becomes a SEND with the text of the datagram before. -/
theorem not_isolated_two_bytes : ¬Isolated ⟨[5, 0], by simp⟩ := by
  intro h
  have heq := h .zero [filled 115, ⟨[5, 0], by simp⟩] [filled 116, ⟨[5, 0], by simp⟩] 1 rfl rfl
  rw [listen_second, listen_second, Option.some.injEq] at heq
  have h₀ := last_byte .zero (d := ⟨[5, 0], by simp⟩) (by decide) 115
  rw [heq, last_byte .zero (d := ⟨[5, 0], by simp⟩) (by decide) 116] at h₀
  cases h₀

end Piupiu
