import Piupiu.Datagram
import Piupiu.Lib.LittleEndian

/-!
# Packets as bytes

`sendto` is given the memory of a `Packet`, and `recvfrom` writes into memory that is
read as one: the server into the buffer of `Listen`, the client into the packet
itself. What stands between the fields is nobody's, so it may be anything.
-/
namespace Piupiu

open LittleEndian

/-- The bytes behind `type` and behind `length`, up to the next field. -/
structure Padding where
  type : { bytes : List UInt8 // bytes.length = 6 }
  length : { bytes : List UInt8 // bytes.length = 6 }

/-- The memory of a packet, which `Socket::Send` and `SendMessageToServer` send. -/
def Packet.bytes (p : Packet) (padding : Padding) : List UInt8 :=
  LittleEndian.bytes 2 p.type.toNat ++ (padding.type.1 ++ (LittleEndian.bytes 8 p.seqn.toNat ++
    (LittleEndian.bytes 2 p.length.toNat ++ (padding.length.1 ++
      (LittleEndian.bytes 8 p.timestamp.toNat ++ p.payload.1)))))

/-- `Message::Packet p` of the client's `Listen`, as memory. -/
abbrev Memory := { bytes : List UInt8 // bytes.length = packetSize }

def Memory.packet (m : Memory) : Packet where
  type := UInt16.ofNat (field m.1 0 2)
  seqn := UInt64.ofNat (field m.1 8 8)
  length := UInt16.ofNat (field m.1 16 2)
  timestamp := UInt64.ofNat (field m.1 24 8)
  payload := ⟨m.1.drop 32, by simp [m.2, packetSize, packetMaxPayloadLen]⟩

def Memory.padding (m : Memory) : Padding where
  type := ⟨(m.1.drop 2).take 6, by simp [m.2, packetSize]⟩
  length := ⟨(m.1.drop 18).take 6, by simp [m.2, packetSize]⟩

/-- `recvfrom(socketDescr, &p, sizeof(p), …)`: a datagram overwrites the start of the
packet, as far as there is room. -/
def Memory.receive (m : Memory) (datagram : List UInt8) : Memory :=
  ⟨datagram.take packetSize ++ m.1.drop datagram.length, by
    simp only [List.length_append, List.length_take, List.length_drop, m.2]
    omega⟩

/-- The packets that the client's `Listen` looks at. -/
def Memory.listen (m : Memory) : List Datagram → List Packet
  | [] => []
  | d :: datagrams => (m.receive d.1).packet :: (m.receive d.1).listen datagrams

theorem field_eq (l : List UInt8) (offset size : Nat) :
    field l offset size = value ((l.drop offset).take size) := rfl

theorem drop_skip {a l : List UInt8} {offset n : Nat} (h : a.length = n) (hle : n ≤ offset) :
    (a ++ l).drop offset = l.drop (offset - n) := by
  rw [List.drop_append, h, List.drop_eq_nil_of_le (by omega), List.nil_append]

/-- A field that something stands before. -/
theorem field_skip {a l : List UInt8} {offset size n : Nat} (h : a.length = n) (hle : n ≤ offset) :
    field (a ++ l) offset size = field l (offset - n) size := by
  rw [field_eq, field_eq, drop_skip h hle]

/-- A field that stands first. -/
theorem field_first {l : List UInt8} {size n : Nat} (h : n < 256 ^ size) :
    field (LittleEndian.bytes size n ++ l) 0 size = n := by
  have htake : (LittleEndian.bytes size n ++ l).take size = LittleEndian.bytes size n := by
    rw [List.take_left' (length_bytes size n)]
  rw [field_eq, List.drop_zero, htake, value_bytes_of_lt h]

theorem bytes_field {l : List UInt8} {offset size : Nat} (h : offset + size ≤ l.length) :
    LittleEndian.bytes size (field l offset size) = (l.drop offset).take size := by
  have hlength : ((l.drop offset).take size).length = size := by
    rw [List.length_take, List.length_drop]
    omega
  have hvalue := bytes_value ((l.drop offset).take size)
  rwa [hlength] at hvalue

theorem field_lt {l : List UInt8} {offset size : Nat} (h : offset + size ≤ l.length) :
    field l offset size < 256 ^ size := by
  have hlength : ((l.drop offset).take size).length = size := by
    rw [List.length_take, List.length_drop]
    omega
  have hvalue := value_lt ((l.drop offset).take size)
  rwa [hlength] at hvalue

@[simp] theorem length_packet_bytes (p : Packet) (padding : Padding) :
    (p.bytes padding).length = packetSize := by
  simp only [Packet.bytes, List.length_append, length_bytes, padding.type.2, padding.length.2,
    p.payload.2]
  rfl

/-- The memory of a packet is read as this packet. -/
theorem packet_of_bytes {m : Memory} {p : Packet} {padding : Padding} (h : m.1 = p.bytes padding) :
    m.packet = p := by
  have htype : field m.1 0 2 = p.type.toNat := by
    rw [h, Packet.bytes, field_first p.type.toNat_lt]
  have hseqn : field m.1 8 8 = p.seqn.toNat := by
    rw [h, Packet.bytes, field_skip (length_bytes 2 _) (by decide), field_skip padding.type.2 (by decide),
      field_first p.seqn.toNat_lt]
  have hlength : field m.1 16 2 = p.length.toNat := by
    rw [h, Packet.bytes, field_skip (length_bytes 2 _) (by decide), field_skip padding.type.2 (by decide),
      field_skip (length_bytes 8 _) (by decide), field_first p.length.toNat_lt]
  have htimestamp : field m.1 24 8 = p.timestamp.toNat := by
    rw [h, Packet.bytes, field_skip (length_bytes 2 _) (by decide), field_skip padding.type.2 (by decide),
      field_skip (length_bytes 8 _) (by decide), field_skip (length_bytes 2 _) (by decide),
      field_skip padding.length.2 (by decide), field_first p.timestamp.toNat_lt]
  have hpayload : m.1.drop 32 = p.payload.1 := by
    rw [h, Packet.bytes, drop_skip (length_bytes 2 _) (by decide), drop_skip padding.type.2 (by decide),
      drop_skip (length_bytes 8 _) (by decide), drop_skip (length_bytes 2 _) (by decide),
      drop_skip padding.length.2 (by decide), drop_skip (length_bytes 8 _) (by decide)]
    rfl
  simp only [Memory.packet, htype, hseqn, hlength, htimestamp, hpayload, UInt16.ofNat_toNat,
    UInt64.ofNat_toNat]

/-- Memory is that of the packet that is read from it. -/
theorem bytes_of_packet (m : Memory) : m.packet.bytes m.padding = m.1 := by
  have hm := m.2
  simp only [packetSize] at hm
  have htype : m.packet.type.toNat = field m.1 0 2 := by
    simp only [Memory.packet, UInt16.toNat_ofNat']
    exact Nat.mod_eq_of_lt (field_lt (by omega))
  have hseqn : m.packet.seqn.toNat = field m.1 8 8 := by
    simp only [Memory.packet, UInt64.toNat_ofNat']
    exact Nat.mod_eq_of_lt (field_lt (by omega))
  have hlength : m.packet.length.toNat = field m.1 16 2 := by
    simp only [Memory.packet, UInt16.toNat_ofNat']
    exact Nat.mod_eq_of_lt (field_lt (by omega))
  have htimestamp : m.packet.timestamp.toNat = field m.1 24 8 := by
    simp only [Memory.packet, UInt64.toNat_ofNat']
    exact Nat.mod_eq_of_lt (field_lt (by omega))
  rw [Packet.bytes, htype, hseqn, hlength, htimestamp, bytes_field (by omega), bytes_field (by omega),
    bytes_field (by omega), bytes_field (by omega)]
  simp only [Memory.packet, Memory.padding]
  have hjoin : ∀ a b : Nat, (m.1.drop a).take b ++ m.1.drop (a + b) = m.1.drop a := fun a b => by
    rw [← List.drop_drop, List.take_append_drop]
  rw [hjoin 24 8, hjoin 18 6, hjoin 16 2, hjoin 8 8, hjoin 2 6, hjoin 0 2, List.drop_zero]

theorem packet_eq_iff (m : Memory) (p : Packet) : m.packet = p ↔ ∃ padding, m.1 = p.bytes padding := by
  constructor
  · rintro rfl
    exact ⟨m.padding, (bytes_of_packet m).symm⟩
  · rintro ⟨padding, h⟩
    exact packet_of_bytes h

/-- The memory that the server reads a packet from. -/
def Buffer.start (b : Buffer) : Memory :=
  ⟨b.1.take packetSize, by simp [b.2, bufferSize, packetSize]⟩

theorem start_packet (b : Buffer) : b.start.packet = b.packet := by
  have hfield : ∀ offset size, offset + size ≤ packetSize →
      field b.start.1 offset size = field b.1 offset size := fun _ _ hle => field_take hle
  have hpayload : b.start.1.drop 32 = (b.1.drop 32).take packetMaxPayloadLen := by
    simp [Buffer.start, List.drop_take, packetSize, packetMaxPayloadLen]
  simp only [Memory.packet, Buffer.packet, hpayload, hfield 0 2 (by decide), hfield 8 8 (by decide),
    hfield 16 2 (by decide), hfield 24 8 (by decide)]

/-- What the client keeps of all datagrams so far. -/
def Memory.after (m : Memory) (datagrams : List Datagram) : Memory :=
  datagrams.foldl (fun m d => m.receive d.1) m

theorem Memory.listen_getElem? (m : Memory) (datagrams : List Datagram) (k : Nat) :
    (m.listen datagrams)[k]? =
      if k < datagrams.length then some (m.after (datagrams.take (k + 1))).packet else none := by
  induction datagrams generalizing m k with
  | nil => simp [Memory.listen]
  | cons d datagrams ih =>
    rw [Memory.listen]
    cases k with
    | zero => simp [Memory.after]
    | succ k =>
      rw [List.getElem?_cons_succ, ih]
      simp [Memory.after]

theorem Memory.receive_take (m : Memory) {datagram : List UInt8} (h : packetSize ≤ datagram.length) :
    (m.receive datagram).1 = datagram.take packetSize := by
  have hm := m.2
  have hbytes : (m.receive datagram).1 = datagram.take packetSize ++ m.1.drop datagram.length := rfl
  rw [hbytes, List.drop_eq_nil_of_le (by omega), List.append_nil]

variable {datagrams : List Datagram} {k : Nat} {d : Datagram}

/-- The buffer of the server at a long datagram. -/
theorem start_after (b : Buffer) (hk : datagrams[k]? = some d) (hsize : packetSize ≤ d.1.length) :
    (b.after (datagrams.take (k + 1))).start.1 = d.1.take packetSize := by
  rw [List.take_add_one, hk, Option.toList_some, after_concat]
  exact receive_take _ hsize

/-- The packet of the client at a long datagram. -/
theorem Memory.after_take (m : Memory) (hk : datagrams[k]? = some d)
    (hsize : packetSize ≤ d.1.length) :
    (m.after (datagrams.take (k + 1))).1 = d.1.take packetSize := by
  rw [List.take_add_one, hk, Option.toList_some, Memory.after, List.foldl_append]
  exact Memory.receive_take _ hsize

/-- Among any other datagrams, a datagram that is long enough is taken for a packet by
the server and by the client exactly when it starts with the memory of this packet. -/
theorem listen_iff_bytes (b : Buffer) (m : Memory) (p : Packet) (hk : datagrams[k]? = some d)
    (hsize : packetSize ≤ d.1.length) :
    ((listen b (datagrams.map Subtype.val))[k]? = some p ↔
      ∃ padding, d.1.take packetSize = p.bytes padding) ∧
    ((m.listen datagrams)[k]? = some p ↔ ∃ padding, d.1.take packetSize = p.bytes padding) := by
  have hlt := (List.getElem?_eq_some_iff.mp hk).1
  rw [listen_getElem?, Memory.listen_getElem?, if_pos hlt, if_pos hlt, Option.some.injEq,
    Option.some.injEq, ← start_packet, packet_eq_iff, packet_eq_iff, start_after b hk hsize,
    m.after_take hk hsize]
  exact ⟨Iff.rfl, Iff.rfl⟩

def Packet.datagram (p : Packet) (padding : Padding) : Datagram :=
  ⟨p.bytes padding, List.ne_nil_of_length_pos (by rw [length_packet_bytes]; decide)⟩

def Memory.zero : Memory := ⟨List.replicate packetSize 0, List.length_replicate⟩

def Padding.ones : Padding := ⟨⟨List.replicate 6 255, rfl⟩, ⟨List.replicate 6 255, rfl⟩⟩

/-- An ACCEPT_CONN behind a datagram of two bytes. -/
theorem listen_iff_bytes_second :
    (listen .zero ([⟨[5, 0], by simp⟩, (makeAcceptConnCommand 7 3).datagram .ones].map
      Subtype.val))[1]? = some (makeAcceptConnCommand 7 3) ∧
    (Memory.zero.listen [⟨[5, 0], by simp⟩, (makeAcceptConnCommand 7 3).datagram .ones])[1]? =
      some (makeAcceptConnCommand 7 3) := by
  have hk : ([⟨[5, 0], by simp⟩, (makeAcceptConnCommand 7 3).datagram .ones] : List Datagram)[1]? =
      some ((makeAcceptConnCommand 7 3).datagram .ones) := rfl
  have hsize : ((makeAcceptConnCommand 7 3).datagram .ones).1.length = packetSize :=
    length_packet_bytes _ _
  have hread := listen_iff_bytes .zero .zero (makeAcceptConnCommand 7 3) hk hsize.ge
  have hbytes : ∃ padding, ((makeAcceptConnCommand 7 3).datagram .ones).1.take packetSize =
      (makeAcceptConnCommand 7 3).bytes padding := ⟨.ones, List.take_of_length_le hsize.le⟩
  exact ⟨hread.1.mpr hbytes, hread.2.mpr hbytes⟩

/-- The packets that are sent are the packets that are looked at, on both sides. -/
theorem listen_datagrams (b : Buffer) (m : Memory) (sent : List (Packet × Padding)) :
    listen b ((sent.map fun x => x.1.datagram x.2).map Subtype.val) = sent.map Prod.fst ∧
    m.listen (sent.map fun x => x.1.datagram x.2) = sent.map Prod.fst := by
  have heach : ∀ k : Nat, (listen b ((sent.map fun x => x.1.datagram x.2).map Subtype.val))[k]? =
        (sent.map Prod.fst)[k]? ∧
      (m.listen (sent.map fun x => x.1.datagram x.2))[k]? = (sent.map Prod.fst)[k]? := fun k => by
    cases hk : sent[k]? with
    | none =>
      have hle := List.getElem?_eq_none_iff.mp hk
      rw [listen_getElem?, Memory.listen_getElem?, List.getElem?_map, hk, List.length_map,
        if_neg (by omega), if_neg (by omega)]
      exact ⟨rfl, rfl⟩
    | some x =>
      have hd : (sent.map fun x => x.1.datagram x.2)[k]? = some (x.1.datagram x.2) := by
        rw [List.getElem?_map, hk]
        rfl
      have hsize : (x.1.bytes x.2).length = packetSize := length_packet_bytes _ _
      have hread := listen_iff_bytes b m x.1 hd hsize.ge
      have hbytes : ∃ padding, (x.1.datagram x.2).1.take packetSize = x.1.bytes padding :=
        ⟨x.2, List.take_of_length_le hsize.le⟩
      rw [List.getElem?_map, hk]
      exact ⟨hread.1.mpr hbytes, hread.2.mpr hbytes⟩
  exact ⟨List.ext_getElem? fun k => (heach k).1, List.ext_getElem? fun k => (heach k).2⟩

end Piupiu
