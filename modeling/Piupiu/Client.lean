import Piupiu.SessionManager
import Piupiu.Lib.IStream

/-!
# The client

The methods of `Client` that build packets, and what its listening thread does
with the packets that come. `log` stands for what can be seen from outside;
nothing reads it.
-/
namespace Piupiu

open IStream

inductive MessageType where
  | notification
  | info
  | error
  deriving DecidableEq, Repr

/-- What the source leaves undefined on the side of the client. -/
inductive ClientFault where
  | payloadOverflow
  | outOfRange
  deriving DecidableEq, Repr

inductive ClientEvent where
  | sent (address : SocketAddress) (message : Packet)
  | fault (f : ClientFault)
  deriving DecidableEq

def ClientEvent.fault? : ClientEvent → Option ClientFault
  | .fault f => some f
  | _ => none

/-- `socketOpen` tells whether `socketDescr` is an open socket. -/
structure Client where
  profileHandle : Str
  serverAddress : SocketAddress
  socketOpen : Bool
  lastSentSeqn : UInt64
  connected : Bool
  isListening : Bool
  packetList : List Packet
  log : List ClientEvent
  deriving DecidableEq

namespace Client

/-- `trim_copy`. -/
def trimCopy (text : Str) : Str := (text.dropWhile isSpace).rdropWhile isSpace

def new (profileHandle : Str) (serverAddress : SocketAddress) : Client :=
  ⟨trimCopy profileHandle, serverAddress, false, 0, false, true, [], []⟩

def record (c : Client) (e : ClientEvent) : Client := { c with log := c.log ++ [e] }

/-- What the client has met that the source leaves undefined. -/
def faults (c : Client) : List ClientFault := c.log.filterMap ClientEvent.fault?

/-- `++lastSentSeqn`. -/
def incrementSeqn (c : Client) : Client := { c with lastSentSeqn := c.lastSentSeqn + 1 }

/-- Without an open socket `sendto` fails, and its result is dropped by every caller. -/
def sendMessageToServer (c : Client) (message : Packet) : Client :=
  if c.socketOpen then c.record (.sent c.serverAddress message) else c

/-- The packet that a constructor made is sent, if the text fitted in it. -/
def sendMade (c : Client) (message : Option Packet) : Client :=
  match message with
  | some message => c.sendMessageToServer message
  | none => c.record (.fault .payloadOverflow)

/-- Sending changes the log alone. -/
theorem sendMessageToServer_eq (c : Client) (message : Packet) : ∃ events,
    c.sendMessageToServer message = { c with log := c.log ++ events } ∧
      ∀ e ∈ events, e = .sent c.serverAddress message := by
  unfold sendMessageToServer
  split
  · exact ⟨[.sent c.serverAddress message], rfl, fun _ he => List.mem_singleton.mp he⟩
  · exact ⟨[], by rw [List.append_nil], fun _ he => by cases he⟩

theorem sendMade_eq (c : Client) (made : Option Packet) : ∃ events,
    c.sendMade made = { c with log := c.log ++ events } ∧ ∀ e ∈ events,
      (∃ message, made = some message ∧ e = .sent c.serverAddress message) ∨
        e = .fault .payloadOverflow := by
  cases made with
  | some message =>
    obtain ⟨events, he, hevents⟩ := c.sendMessageToServer_eq message
    exact ⟨events, he, fun e hm => .inl ⟨message, rfl, hevents e hm⟩⟩
  | none => exact ⟨[.fault .payloadOverflow], rfl, fun _ he => .inr (List.mem_singleton.mp he)⟩

def shutdown (now : UInt64) (c : Client) : Client :=
  let c := c.incrementSeqn
  { c.sendMade (makeDisconnectCommand now c.lastSentSeqn c.profileHandle) with
    socketOpen := false
    isListening := false }

/-- `Connect`, when a socket could be opened or not. -/
def connect (now : UInt64) (opened : Bool) (c : Client) : Client :=
  let c := { c with socketOpen := opened }
  if opened then
    let c := c.incrementSeqn
    c.sendMade (makeConnectCommand now c.lastSentSeqn c.profileHandle)
  else c

/-- The other `Connect`, which takes the handle as it is. -/
def connectAs (now : UInt64) (opened : Bool) (profileHandle : Str) (serverAddress : SocketAddress)
    (c : Client) : Client :=
  connect now opened { c with profileHandle := profileHandle, serverAddress := serverAddress }

def followUser (now : UInt64) (profile : Str) (c : Client) : Client :=
  let c := c.incrementSeqn
  c.sendMade (makeFollowCommand now c.lastSentSeqn profile)

/-- `Post` refuses what is longer than 128 bytes. -/
def post (now : UInt64) (message : Str) (c : Client) : Client :=
  if message.length ≤ 128 then
    let c := c.incrementSeqn
    c.sendMade (makeSendCommand now c.lastSentSeqn message)
  else c

def getInfo (now : UInt64) (c : Client) : Client :=
  let c := c.incrementSeqn
  c.sendMessageToServer (makeRequestUserInfo now c.lastSentSeqn)

def setProfileHandle (profileHandle : Str) (c : Client) : Client :=
  { c with profileHandle := profileHandle }

def setServerAddress (serverAddress : SocketAddress) (c : Client) : Client :=
  { c with serverAddress := serverAddress }

/-- One turn of the loop of `Listen`, and what it hands to the message handler. -/
def listen (now : UInt64) (p : Packet) (c : Client) : Client × Option (Str × MessageType) :=
  if c.isListening then
    if p.type = packetAcceptConnCmd then ({ c with connected := true }, none)
    else if p.type = packetRejectConnCmd then (c.shutdown now, none)
    else if p.type = packetNotification then ({ c with packetList := c.packetList ++ [p] }, none)
    else if p.type = packetError then (c, some (p.text, .error))
    else if p.type = packetInfo then (c, some (p.text, .info))
    else (c.shutdown now, none)
  else (c, none)

/-- What a turn of the loop of `Listen` can do. -/
theorem listen_cases (now : UInt64) (p : Packet) (c : Client) :
    c.isListening = false ∧ c.listen now p = (c, none) ∨
    c.isListening = true ∧
      (p.type = packetAcceptConnCmd ∧ c.listen now p = ({ c with connected := true }, none) ∨
      p.type = packetNotification ∧
        c.listen now p = ({ c with packetList := c.packetList ++ [p] }, none) ∨
      p.type = packetError ∧ c.listen now p = (c, some (p.text, .error)) ∨
      p.type = packetInfo ∧ c.listen now p = (c, some (p.text, .info)) ∨
      (p.type ≠ packetAcceptConnCmd ∧ p.type ≠ packetNotification ∧ p.type ≠ packetError ∧
        p.type ≠ packetInfo) ∧ c.listen now p = (c.shutdown now, none)) := by
  cases hl : c.isListening with
  | false => exact .inl ⟨rfl, by simp [listen, hl]⟩
  | true =>
    refine .inr ⟨rfl, ?_⟩
    simp only [listen, hl, if_true]
    by_cases ha : p.type = packetAcceptConnCmd
    · exact .inl ⟨ha, by rw [if_pos ha]⟩
    rw [if_neg ha]
    by_cases hn : p.type = packetNotification
    · have hr : p.type ≠ packetRejectConnCmd := by simp [hn, packetNotification, packetRejectConnCmd]
      exact .inr (.inl ⟨hn, by rw [if_neg hr, if_pos hn]⟩)
    by_cases he : p.type = packetError
    · have hr : p.type ≠ packetRejectConnCmd := by simp [he, packetError, packetRejectConnCmd]
      exact .inr (.inr (.inl ⟨he, by rw [if_neg hr, if_neg hn, if_pos he]⟩))
    by_cases hi : p.type = packetInfo
    · have hr : p.type ≠ packetRejectConnCmd := by simp [hi, packetInfo, packetRejectConnCmd]
      exact .inr (.inr (.inr (.inl ⟨hi, by rw [if_neg hr, if_neg hn, if_neg he, if_pos hi]⟩)))
    · refine .inr (.inr (.inr (.inr ⟨⟨ha, hn, he, hi⟩, ?_⟩)))
      rw [if_neg hn, if_neg he, if_neg hi, ite_self]

end Client

end Piupiu
