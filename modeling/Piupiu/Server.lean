import Piupiu.ReplicaManager
import Piupiu.ProfileFile
import Piupiu.Lib.Atomic

/-!
# The server

`MessageHandler` as a program of atomic actions, one for each access to what it
shares with the notification worker or does under a lock, and one iteration of
`PendingNotificationWorker` as one action. The console output and the replies
that are commented out in the source are left out. `log` stands for what can be
seen from outside and for the calls made on the way; nothing reads it.
-/
namespace Piupiu

open Atomic Atomic.Prog

structure PendingNotification where
  senderUsername : Str
  body : Str
  recipient : ProfileRef
  deriving DecidableEq, Inhabited, Repr

/-- Why a packet is sent: by the worker, by the callback for a container, as the
copy of a container's message for a peer, or to confirm a forwarded packet. -/
inductive Origin where
  | notification
  | accept (container : Nat)
  | forward (container peer : Nat)
  | confirmation
  deriving DecidableEq, Repr

/-- What the source leaves undefined, and the exception that nobody catches. -/
inductive Fault where
  | unsetSession
  | payloadOverflow
  | noReturnValue
  | noPrimaryPeer
  | unknownType
  deriving DecidableEq, Repr

inductive Event where
  | started (message : Packet) (address : SocketAddress)
  | session (userHandle : Str) (address : SocketAddress) (granted : Bool)
  | ended (userHandle : Str) (address : SocketAddress) (result : Int)
  | enqueued (n : PendingNotification)
  | delivered (n : PendingNotification) (sockets : List SocketAddress)
  | requeued (n : PendingNotification)
  | broadcast (message : Packet) (senderAddress : SocketAddress) (lastSeqn lastSeqnTemp : UInt64)
  | confirm (seqn : UInt64)
  | sent (address : SocketAddress) (message : Packet) (origin : Origin)
  | fault (f : Fault)
  deriving DecidableEq

/-- `profiles.dat`, when it exists, and whether it can be opened for writing. -/
structure Disk where
  writable : Bool
  profiles : Option Str
  deriving DecidableEq

/-- The member `lastSeqn` counts the increments; its value is `getLastSeqn`. -/
structure Server where
  profileManager : ProfileManager
  sessionManager : SessionManager
  notificationQueue : List PendingNotification
  lastSeqn : Nat
  replicaManager : ReplicaManager
  disk : Disk
  log : List Event

namespace Server

/-- A server with these profiles, before its first packet. -/
def new (thisPeer : Peer) (peers : List Peer) (disk : Disk) (profiles : ProfileManager) : Server :=
  ⟨profiles, .empty, [], 0, ⟨thisPeer, peers, []⟩, disk, []⟩

def record (s : Server) (e : Event) : Server := { s with log := s.log ++ [e] }

def getLastSeqn (s : Server) : UInt64 := UInt64.ofNat s.lastSeqn

def incrementSeqn (s : Server) : Server := { s with lastSeqn := s.lastSeqn + 1 }

/-- `Socket::Send`. -/
def send (s : Server) (address : SocketAddress) (message : Packet) (origin : Origin) : Server :=
  s.record (.sent address message origin)

/-- One `Reply` of the worker, with the next sequence number. -/
def notify (now : UInt64) (n : PendingNotification) (s : Server) (socket : SocketAddress) : Server :=
  match makeNotification now s.incrementSeqn.getLastSeqn n.body n.senderUsername with
  | some message => s.incrementSeqn.send socket message .notification
  | none => s.incrementSeqn.record (.fault .payloadOverflow)

/-- The front of the queue goes back to its end. -/
def requeue (s : Server) (n : PendingNotification) (rest : List PendingNotification) : Server :=
  { s with notificationQueue := rest ++ [n] }.record (.requeued n)

/-- One iteration: the whole of it is done under the lock of the queue. -/
def pendingNotificationWorker (now : UInt64) (s : Server) : Server :=
  match s.notificationQueue with
  | [] => s
  | n :: rest =>
    match s.sessionManager.behind (s.profileManager.deref n.recipient).session with
    | none => (s.record (.fault .unsetSession)).requeue n rest
    | some [] => s.requeue n rest
    | some sockets =>
      sockets.foldl (notify now n) ({ s with notificationQueue := rest }.record (.delivered n sockets))

/-- `ProfileManager::Sync`. -/
def sync (s : Server) : Server :=
  if s.disk.writable then { s with disk := ⟨true, some s.profileManager.sync⟩ } else s

/-- The locked push of `NewProfile`. -/
def pushProfile (s : Server) (handle : Str) : Server × ProfileRef :=
  ({ s with profileManager := s.profileManager.newProfile handle }, s.profileManager.profiles.length)

def startSession (s : Server) (p : ProfileRef) (sender : SocketAddress) :
    Server × Option SessionRef :=
  let handle := (s.profileManager.deref p).handle
  let (sessions, session) := s.sessionManager.startSession handle sender
  ({ s with sessionManager := sessions }.record (.session handle sender session.isSome), session)

def endSession (s : Server) (p : ProfileRef) (sender : SocketAddress) : Server :=
  let handle := (s.profileManager.deref p).handle
  let (sessions, ended) := s.sessionManager.endSession handle sender
  { s with sessionManager := sessions }.record (.ended handle sender ended)

def setSession (s : Server) (p : ProfileRef) (r : SessionRef) : Server :=
  { s with profileManager := s.profileManager.setSession p (.ref r) }

/-- The call of `GetConnectedUsers`, whose answer only goes to the console. -/
def getConnectedUsers (s : Server) (exclude : ProfileRef) : Server :=
  match s.profileManager.getConnectedUsers s.sessionManager (some exclude) with
  | some _ => s
  | none => s.record (.fault .unsetSession)

/-- The push of `Profile::AddFollower`, which takes no lock and follows its search. -/
def pushFollower (s : Server) (p follower : ProfileRef) : Server :=
  { s with profileManager := s.profileManager.appendFollower p follower }

def enqueue (s : Server) (n : PendingNotification) : Server :=
  { s with notificationQueue := s.notificationQueue ++ [n] }.record (.enqueued n)

/-- `confirmationBuffer->Push`; the position of the container is returned. -/
def pushContainer (s : Server) (message : Packet) (senderAddress : SocketAddress)
    (lastSeqn lastSeqnTemp : UInt64) : Server × Nat :=
  let container := s.replicaManager.confirmationBuffer.length
  let buffer := s.replicaManager.confirmationBuffer.push (ReplicaManager.copies lastSeqn message)
    message.seqn senderAddress
  ({ s with replicaManager := { s.replicaManager with confirmationBuffer := buffer } }.record
    (.broadcast message senderAddress lastSeqn lastSeqnTemp), container)

/-- The callback of the confirmation buffer, called for the container at `k`. -/
def callback (now : UInt64) (s : Server) (k : Nat) : Server :=
  match s.replicaManager.confirmationBuffer[k]? with
  | some container =>
    if container.firstPacket.type = packetConnectCmd then
      s.send container.originalHost (makeAcceptConnCommand now container.originalSeqn) (.accept k)
    else s
  | none => s

/-- `confirmationBuffer->Confirm` and the callbacks it makes. -/
def confirmBuffer (now : UInt64) (s : Server) (seqn : UInt64) : Server :=
  let (buffer, _, called) := s.replicaManager.confirmationBuffer.confirm seqn
  called.foldl (callback now)
    ({ s with replicaManager := { s.replicaManager with confirmationBuffer := buffer } }.record
      (.confirm seqn))

/-- The confirmation that a secondary sends to its primary. -/
def confirmToPrimary (now : UInt64) (s : Server) (seqn : UInt64) : Server :=
  match s.replicaManager.getPrimaryReplica with
  | some primary =>
    s.send primary.getSocketAddress (makeConfirmStateChangeMessage now seqn) .confirmation
  | none => s.record (.fault .noPrimaryPeer)

def newProfile (handle : Str) : Prog Server ProfileRef := do
  let p ← atomic fun s => s.pushProfile handle
  update sync
  pure p

/-- `Profile::AddFollower`, with the save; its result is not used. -/
def addFollower (p : ProfileRef) (userHandle : Str) : Prog Server Unit := do
  match ← read fun s => s.profileManager.getProfileByName userHandle with
  | some follower =>
    if ← read fun s => s.profileManager.isFollower p follower then pure ()
    else do
      update fun s => s.pushFollower p follower
      update sync
  | none => update fun s => s.record (.fault .noReturnValue)

/-- The sends of `BroadcastToSecondaries`, from the peer at position `i` on. -/
def sendToPeers (message : Packet) (lastSeqnTemp : UInt64) (container : Nat) :
    Nat → List Peer → Prog Server Unit
  | _, [] => pure ()
  | i, peer :: peers => do
    update fun s => s.send peer.getSocketAddress
      { message with seqn := lastSeqnTemp + UInt64.ofNat i } (.forward container i)
    sendToPeers message lastSeqnTemp container (i + 1) peers

def broadcastToSecondaries (message : Packet) (senderAddress : SocketAddress) :
    Prog Server Unit := do
  let peers ← read fun s => s.replicaManager.getSecondaryReplicas
  let lastSeqn ← read getLastSeqn
  let lastSeqnTemp ← read getLastSeqn
  update incrementSeqn
  update incrementSeqn
  update incrementSeqn
  let container ← atomic fun s => s.pushContainer message senderAddress lastSeqn lastSeqnTemp
  sendToPeers message lastSeqnTemp container 0 peers

def confirmMessage (now seqn : UInt64) : Prog Server Unit := do
  if ← read fun s => s.replicaManager.isPrimary then update fun s => s.confirmBuffer now seqn
  else update fun s => s.confirmToPrimary now seqn

/-- CONNECT, first part: the profile of the user, made when there is none. -/
def findProfile (username : Str) : Prog Server ProfileRef := do
  match ← read fun s => s.profileManager.getProfileByName username with
  | some p => pure p
  | none => newProfile username

/-- CONNECT, second part: a session for the profile, if one is granted. -/
def admitUser (profile : ProfileRef) (incomingAddress : SocketAddress) : Prog Server Unit := do
  match ← atomic fun s => s.startSession profile incomingAddress with
  | some session => do
    update fun s => s.setSession profile session
    update fun s => s.getConnectedUsers profile
  | none => pure ()

/-- CONNECT, third part, whether or not a session was granted. -/
def replicate (now : UInt64) (message : Packet) (incomingAddress : SocketAddress) :
    Prog Server Unit := do
  if ← read fun s => s.replicaManager.isPrimary then broadcastToSecondaries message incomingAddress
  else confirmMessage now message.seqn

def connectCmd (now : UInt64) (message : Packet) (incomingAddress : SocketAddress) :
    Prog Server Unit := do
  let profile ← findProfile message.text
  admitUser profile incomingAddress
  replicate now message incomingAddress

def disconnectCmd (message : Packet) (incomingAddress : SocketAddress) : Prog Server Unit := do
  match ← read fun s => s.profileManager.getProfileByName message.text with
  | some p => update fun s => s.endSession p incomingAddress
  | none => pure ()

def followCmd (message : Packet) (incomingAddress : SocketAddress) : Prog Server Unit := do
  let usernameToFollow := message.text
  match ← read fun s => s.sessionManager.getUserNameByAddressAndIP incomingAddress with
  | none => pure ()
  | some username =>
    let profile ← read fun s => s.profileManager.getProfileByName usernameToFollow
    if usernameToFollow = username then pure ()
    else
      match profile with
      | some p => addFollower p username
      | none => pure ()

/-- The loop of SEND: each push is a critical section of its own. -/
def pushNotifications (username body : Str) : List ProfileRef → Prog Server Unit
  | [] => pure ()
  | follower :: followers => do
    update fun s => s.enqueue ⟨username, body, follower⟩
    pushNotifications username body followers

def sendCmd (message : Packet) (incomingAddress : SocketAddress) : Prog Server Unit := do
  match ← read fun s => s.sessionManager.getUserNameByAddressAndIP incomingAddress with
  | none => pure ()
  | some username =>
    match ← read fun s => s.profileManager.getProfileByName username with
    | none => pure ()
    | some p =>
      let followers ← read fun s => (s.profileManager.deref p).followers
      pushNotifications username message.text followers

def requestUserInfo (incomingAddress : SocketAddress) : Prog Server Unit := do
  match ← read fun s => s.sessionManager.getUserNameByAddressAndIP incomingAddress with
  | none => pure ()
  | some username =>
    match ← read fun s => s.profileManager.getProfileByName username with
    | none => pure ()
    | some p => update fun s => s.getConnectedUsers p

/-- Every other type is told to the console, if there is a text for it. -/
def otherCmd (type : UInt16) : Prog Server Unit :=
  match typeToStr type with
  | some _ => pure ()
  | none => update fun s => s.record (.fault .unknownType)

def messageHandler (now : UInt64) (message : Packet) (incomingAddress : SocketAddress) :
    Prog Server Unit := do
  update fun s => s.record (.started message incomingAddress)
  if message.type = packetConnectCmd then connectCmd now message incomingAddress
  else if message.type = packetDisconnectCmd then disconnectCmd message incomingAddress
  else if message.type = packetFollowCmd then followCmd message incomingAddress
  else if message.type = packetSendCmd then sendCmd message incomingAddress
  else if message.type = packetRequestUserInfo then requestUserInfo incomingAddress
  else if message.type = packetConfirmStateChange then confirmMessage now message.seqn
  else otherCmd message.type

/-- What can happen next: a packet is handed to a new handler, the running
handler performs one action, or the worker does one iteration. -/
inductive Move where
  | arrive (now : UInt64) (message : Packet) (address : SocketAddress)
  | advance
  | worker (now : UInt64)

/-- Handlers run one after another: a packet waits while a handler is running. -/
def move (c : Config Server) : Move → Config Server
  | .arrive now message address => c.start (messageHandler now message address)
  | .advance => c.advance
  | .worker now => c.interfere (pendingNotificationWorker now)

def run (s : Server) (moves : List Move) : Config Server := moves.foldl move ⟨s, .done ()⟩

/-- A packet handled from start to end with nothing in between. -/
def handle (s : Server) (now : UInt64) (message : Packet) (address : SocketAddress) : Server :=
  ((messageHandler now message address).exec s).1

end Server

end Piupiu
