import Mathlib

/-!
# Packets

One fixed structure travels in every datagram. Its payload is an array of 512
bytes that the constructors fill with `strcpy`, so a constructor is partial: it
has no packet to return when the text and its NUL do not fit.
-/
namespace Piupiu

/-- The bytes of a `std::string`. -/
abbrev Str := List UInt8

def packetConnectCmd : UInt16 := 0
def packetDisconnectCmd : UInt16 := 1
def packetAcceptConnCmd : UInt16 := 2
def packetRejectConnCmd : UInt16 := 3
def packetFollowCmd : UInt16 := 4
def packetSendCmd : UInt16 := 5
def packetNotification : UInt16 := 6
def packetError : UInt16 := 7
def packetInfo : UInt16 := 8
def packetRequestUserInfo : UInt16 := 9
def packetConfirmStateChange : UInt16 := 10

/-- `TypeToStr`; a type without a case of its own gives no value at all. -/
def typeToStr (type : UInt16) : Option String :=
  if type = packetConnectCmd then some "PACKED_CONNECT_CMD"
  else if type = packetDisconnectCmd then some "PACKET_DISCONNECT_CMD"
  else if type = packetAcceptConnCmd then some "PACKET_ACCEPT_CONN_CMD"
  else if type = packetRejectConnCmd then some "PACKET_REJECT_CONN"
  else if type = packetFollowCmd then some "PACKET_FOLLOW_CMD"
  else if type = packetSendCmd then some "PACKET_SEND_CMD"
  else if type = packetError then some "PACKET_ERROR"
  else if type = packetNotification then some "PACKET_NOTIFICATION"
  else if type = packetInfo then some "PACKET_INFO"
  else if type = packetConfirmStateChange then some "PACKET_CONFIRM_STATE_CHANGE"
  else none

/-- Without a text are the types that are not defined, and one that the server knows. -/
theorem typeToStr_eq_none (type : UInt16) : typeToStr type = none ↔
    packetConfirmStateChange < type ∨ type = packetRequestUserInfo := by
  by_cases hlt : packetConfirmStateChange < type
  · have hne : ∀ n : UInt16, n ≤ packetConfirmStateChange → type ≠ n := by
      rintro n hn rfl
      exact absurd hlt (UInt16.not_lt.mpr hn)
    refine iff_of_true ?_ (.inl hlt)
    unfold typeToStr
    iterate 10 rw [if_neg (hne _ (by decide))]
  · have hle : type.toNat ≤ 10 := UInt16.le_iff_toNat_le.mp (UInt16.not_lt.mp hlt)
    have hdefined : ∀ n ≤ 10, typeToStr (.ofNat n) = none ↔
        packetConfirmStateChange < UInt16.ofNat n ∨ UInt16.ofNat n = packetRequestUserInfo := by
      decide
    simpa using hdefined type.toNat hle

def packetMaxPayloadLen : Nat := 512

/-- The string a C string function sees: the bytes before the first NUL. -/
def cString (bytes : List UInt8) : Str := bytes.takeWhile (· ≠ 0)

/-- The array `char payload[PACKET_MAX_PAYLOAD_LEN]`. -/
abbrev Payload := { bytes : List UInt8 // bytes.length = packetMaxPayloadLen }

def Payload.zero : Payload := ⟨List.replicate packetMaxPayloadLen 0, by simp⟩

/-- A text fits when `strcpy` writes it and its NUL inside the array. -/
def Payload.Fits (text : Str) : Prop := (cString text).length + 1 ≤ packetMaxPayloadLen

instance (text : Str) : Decidable (Payload.Fits text) := by
  unfold Payload.Fits
  infer_instance

/-- `strcpy` of a string into a zeroed payload; nothing when it writes past the end. -/
def Payload.strcpy (text : Str) : Option Payload :=
  if h : Payload.Fits text then
    some ⟨cString text ++ List.replicate (packetMaxPayloadLen - (cString text).length) 0, by
      simp only [Payload.Fits] at h
      simp only [List.length_append, List.length_replicate]
      omega⟩
  else none

theorem cString_ne_zero (bytes : List UInt8) : ∀ b ∈ cString bytes, b ≠ 0 := by
  intro b hb
  simpa using List.mem_takeWhile_imp hb

theorem cString_of_ne_zero {text : Str} (h : ∀ b ∈ text, b ≠ 0) : cString text = text :=
  List.takeWhile_eq_self_iff.mpr (by simpa using h)

@[simp] theorem cString_cString (bytes : List UInt8) : cString (cString bytes) = cString bytes :=
  cString_of_ne_zero (cString_ne_zero bytes)

/-- Reading a payload back gives the text that was copied into it. -/
theorem cString_strcpy {text : Str} {p : Payload} (h : Payload.strcpy text = some p) :
    cString p.1 = cString text := by
  simp only [Payload.strcpy] at h
  split at h
  · next hf =>
    cases h
    have hpos : ∀ b ∈ cString text, (b ≠ 0 : Bool) = true := by simpa using cString_ne_zero text
    obtain ⟨n, hn⟩ : ∃ n, packetMaxPayloadLen - (cString text).length = n + 1 :=
      ⟨packetMaxPayloadLen - (cString text).length - 1, by simp only [Payload.Fits] at hf; omega⟩
    rw [cString, List.takeWhile_append_of_pos hpos, hn, List.replicate_succ]
    simp
  · cases h

theorem fits_of_short {text : Str} (h : text.length < packetMaxPayloadLen) : Payload.Fits text := by
  have hle : (cString text).length ≤ text.length := (List.takeWhile_sublist _).length_le
  unfold Payload.Fits
  omega

theorem strcpy_isSome (text : Str) : (Payload.strcpy text).isSome ↔ Payload.Fits text := by
  simp only [Payload.strcpy]
  split <;> simp_all

structure Packet where
  type : UInt16
  seqn : UInt64
  length : UInt16
  timestamp : UInt64
  payload : Payload
  deriving DecidableEq

/-- The `std::string` that is made from the payload. -/
def Packet.text (p : Packet) : Str := cString p.payload.1

/-- The constructors that copy a text: `length` is the length of the argument,
which is not always the text that is copied. -/
def makeText (type : UInt16) (now lastSeqn : UInt64) (argument text : Str) : Option Packet :=
  (Payload.strcpy text).map fun payload =>
    ⟨type, lastSeqn + 1, UInt16.ofNat argument.length, now, payload⟩

/-- The constructors that leave the payload alone. -/
def makeEmpty (type : UInt16) (now seqn : UInt64) : Packet := ⟨type, seqn, 0, now, Payload.zero⟩

def makeConnectCommand (now lastSeqn : UInt64) (handle : Str) : Option Packet :=
  makeText packetConnectCmd now lastSeqn handle handle

def makeDisconnectCommand (now lastSeqn : UInt64) (handle : Str) : Option Packet :=
  makeText packetDisconnectCmd now lastSeqn handle handle

def makeAcceptConnCommand (now lastSeqn : UInt64) : Packet :=
  makeEmpty packetAcceptConnCmd now (lastSeqn + 1)

def makeFollowCommand (now lastSeqn : UInt64) (handle : Str) : Option Packet :=
  makeText packetFollowCmd now lastSeqn handle handle

def makeSendCommand (now lastSeqn : UInt64) (message : Str) : Option Packet :=
  makeText packetSendCmd now lastSeqn message message

/-- The text of a notification, `"@" + sender + ":\n" + message`. -/
def notificationText (message sender : Str) : Str := [64] ++ sender ++ [58, 10] ++ message

/-- With texts of packets in it, the text of a notification is one of a packet. -/
theorem cString_notificationText (body author : List UInt8) :
    cString (notificationText (cString body) (cString author)) =
      notificationText (cString body) (cString author) := by
  refine cString_of_ne_zero fun x hx => ?_
  simp only [notificationText, List.mem_append, List.mem_cons, List.not_mem_nil, or_false] at hx
  obtain ((rfl | hx) | rfl | rfl) | hx := hx
  · decide
  · exact cString_ne_zero _ x hx
  · decide
  · decide
  · exact cString_ne_zero _ x hx

def makeNotification (now lastSeqn : UInt64) (message sender : Str) : Option Packet :=
  makeText packetNotification now lastSeqn message (notificationText message sender)

def makeRequestUserInfo (now lastSeqn : UInt64) : Packet :=
  makeEmpty packetRequestUserInfo now (lastSeqn + 1)

/-- The one constructor that keeps the sequence number it is given. -/
def makeConfirmStateChangeMessage (now seqnToBeConfirmed : UInt64) : Packet :=
  makeEmpty packetConfirmStateChange now seqnToBeConfirmed

theorem makeText_isSome (type : UInt16) (now lastSeqn : UInt64) (argument text : Str) :
    (makeText type now lastSeqn argument text).isSome ↔ Payload.Fits text := by
  rw [makeText, Option.isSome_map, strcpy_isSome]

theorem makeText_type {type : UInt16} {now lastSeqn : UInt64} {argument text : Str} {p : Packet}
    (h : makeText type now lastSeqn argument text = some p) : p.type = type := by
  obtain ⟨payload, -, rfl⟩ := Option.map_eq_some_iff.mp h
  rfl

@[simp] theorem makeEmpty_type (type : UInt16) (now seqn : UInt64) :
    (makeEmpty type now seqn).type = type := rfl
@[simp] theorem makeEmpty_seqn (type : UInt16) (now seqn : UInt64) :
    (makeEmpty type now seqn).seqn = seqn := rfl

end Piupiu
