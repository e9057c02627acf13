import Piupiu.Runs

/-!
# A CONNECT handled from start to end

With nothing in between, the actions of the CONNECT handler come down to one
equation for each of its parts: what it finds or makes, what it admits, and what
it tells the other servers.
-/
namespace Piupiu

open Atomic Atomic.Prog

namespace Server

/-- The server with another store. -/
def withStore (s : Server) (st : Store) : Server :=
  { s with profileManager := st.profiles, sessionManager := st.sessions, disk := st.disk }

@[simp] theorem withStore_store (s : Server) (st : Store) : (s.withStore st).store = st := rfl
@[simp] theorem withStore_log (s : Server) (st : Store) : (s.withStore st).log = s.log := rfl
@[simp] theorem withStore_lastSeqn (s : Server) (st : Store) :
    (s.withStore st).lastSeqn = s.lastSeqn := rfl
@[simp] theorem withStore_replicaManager (s : Server) (st : Store) :
    (s.withStore st).replicaManager = s.replicaManager := rfl
@[simp] theorem withStore_self (s : Server) : s.withStore s.store = s := rfl
@[simp] theorem withStore_withStore (s : Server) (st st' : Store) :
    (s.withStore st).withStore st' = s.withStore st' := rfl
@[simp] theorem record_store (s : Server) (e : Event) : (s.record e).store = s.store := rfl

theorem sync_eq (s : Server) : s.sync = s.withStore s.store.sync := by
  by_cases h : s.disk.writable = true
  · simp [Server.sync, Store.sync, withStore, store, h]
  · simp [Server.sync, Store.sync, withStore, store, h]

/-- The first part leaves the profile of the user, found or made. -/
theorem exec_findProfile (s : Server) (user : Str) :
    ((findProfile user).exec s).1 = s.withStore (s.store.ensure user) ∧
    (s.store.ensure user).profiles.getProfileByName user = some ((findProfile user).exec s).2 := by
  have hstore : s.store.profiles = s.profileManager := rfl
  unfold findProfile Store.ensure
  cases hp : s.profileManager.getProfileByName user with
  | some p => simp [hp, hstore]
  | none =>
    have hnone : s.store.profiles.getProfileByName user = none := hp
    have hlookup := Store.create_lookup hnone
    simp only [hstore, hp, if_true, pure_eq, bind_eq, exec_bind, exec_read, newProfile, exec_atomic,
      exec_update, exec_done]
    refine ⟨?_, hlookup⟩
    rw [sync_eq]
    rfl

/-- What the scan of the admitted user adds to the log. -/
def scanEvents (st : Store) (p : ProfileRef) : List Event :=
  if (st.profiles.getConnectedUsers st.sessions (some p)).isSome then [] else [.fault .unsetSession]

theorem getConnectedUsers_eq (s : Server) (p : ProfileRef) :
    s.getConnectedUsers p = { s with log := s.log ++ scanEvents s.store p } := by
  unfold getConnectedUsers scanEvents
  have hstore : s.store.profiles = s.profileManager := rfl
  have hsessions : s.store.sessions = s.sessionManager := rfl
  rw [hstore, hsessions]
  cases s.profileManager.getConnectedUsers s.sessionManager (some p) with
  | some l => simp
  | none => rfl

/-- The events of the second part, for the profile at `p`. -/
def admitEvents (st : Store) (p : ProfileRef) (user : Str) (address : SocketAddress) : List Event :=
  .session user address (st.sessions.startSession user address).2.isSome ::
    if (st.sessions.startSession user address).2.isSome then
      scanEvents (st.openSession p user address) p
    else []

/-- The second part opens the session, and scans the profiles when it was granted. -/
theorem exec_admitUser (s : Server) {p : ProfileRef} {user : Str} (address : SocketAddress)
    (hp : (s.profileManager.deref p).handle = user) : ((admitUser p address).exec s).1 =
      { s.withStore (s.store.openSession p user address) with
        log := s.log ++ admitEvents s.store p user address } := by
  have hstart : s.startSession p address =
      (({ s with sessionManager := (s.sessionManager.startSession user address).1 } :
        Server).record (.session user address (s.sessionManager.startSession user address).2.isSome),
        (s.sessionManager.startSession user address).2) := by
    simp only [startSession, hp]
  have hsessions : s.store.sessions = s.sessionManager := rfl
  simp only [admitUser, bind_eq, exec_bind, exec_atomic, hstart, admitEvents, Store.openSession,
    hsessions]
  cases hs : s.sessionManager.startSession user address with
  | mk sessions session =>
    cases session with
    | none =>
      simp only [pure_eq, exec_done]
      rfl
    | some r =>
      simp only [exec_bind, exec_update, getConnectedUsers_eq]
      simp [setSession, record, withStore, store]

/-- The copies of a message, from the peer at position `i` on. -/
def forwards (message : Packet) (lastSeqnTemp : UInt64) (container : Nat) :
    Nat → List Peer → List Event
  | _, [] => []
  | i, peer :: peers =>
    .sent peer.getSocketAddress { message with seqn := lastSeqnTemp + UInt64.ofNat i }
      (.forward container i) :: forwards message lastSeqnTemp container (i + 1) peers

theorem exec_sendToPeers (message : Packet) (lastSeqnTemp : UInt64) (container i : Nat)
    (peers : List Peer) (s : Server) :
    ((sendToPeers message lastSeqnTemp container i peers).exec s).1 =
      { s with log := s.log ++ forwards message lastSeqnTemp container i peers } := by
  induction peers generalizing i s with
  | nil => simp [sendToPeers, forwards]
  | cons peer peers ih =>
    simp only [sendToPeers, bind_eq, exec_bind, exec_update, ih, forwards]
    simp [send, record]

/-- A broadcast takes three numbers, pushes one container and sends all copies. -/
def broadcasted (s : Server) (message : Packet) (address : SocketAddress) : Server :=
  { s with
    lastSeqn := s.lastSeqn + 3
    replicaManager := { s.replicaManager with
      confirmationBuffer := s.replicaManager.confirmationBuffer.push
        (ReplicaManager.copies s.getLastSeqn message) message.seqn address }
    log := s.log ++ .broadcast message address s.getLastSeqn s.getLastSeqn ::
      forwards message s.getLastSeqn s.replicaManager.confirmationBuffer.length 0
        s.replicaManager.getSecondaryReplicas }

theorem exec_broadcastToSecondaries (s : Server) (message : Packet) (address : SocketAddress) :
    ((broadcastToSecondaries message address).exec s).1 = s.broadcasted message address := by
  simp only [broadcastToSecondaries, bind_eq, exec_bind, exec_read, exec_update, exec_atomic,
    exec_sendToPeers]
  simp [pushContainer, incrementSeqn, record, broadcasted]

/-- The third part, on a primary and on a secondary. -/
def replicated (now : UInt64) (s : Server) (message : Packet) (address : SocketAddress) : Server :=
  if s.replicaManager.isPrimary then s.broadcasted message address
  else s.confirmToPrimary now message.seqn

theorem replicated_log (now : UInt64) (s : Server) (message : Packet) (address : SocketAddress) :
    s.log <+: (replicated now s message address).log := by
  unfold replicated
  split
  · exact List.prefix_append _ _
  · unfold confirmToPrimary
    split <;> exact List.prefix_append _ _

theorem exec_replicate (now : UInt64) (s : Server) (message : Packet) (address : SocketAddress) :
    ((replicate now message address).exec s).1 = replicated now s message address := by
  change ((if s.replicaManager.isPrimary then broadcastToSecondaries message address
    else confirmMessage now message.seqn).exec s).1 = _
  by_cases hprimary : s.replicaManager.isPrimary = true
  · rw [if_pos hprimary, replicated, if_pos hprimary]
    exact exec_broadcastToSecondaries s message address
  · rw [if_neg hprimary, replicated, if_neg hprimary]
    change ((if s.replicaManager.isPrimary then update fun s => s.confirmBuffer now message.seqn
      else update fun s => s.confirmToPrimary now message.seqn).exec s).1 = _
    rw [if_neg hprimary, exec_update]

/-- A CONNECT handled from start to end. -/
theorem handle_connect (s : Server) (now : UInt64) {message : Packet} (address : SocketAddress)
    (htype : message.type = packetConnectCmd) : ∃ p,
      (s.store.ensure message.text).profiles.getProfileByName message.text = some p ∧
      s.handle now message address = replicated now
        { s.withStore (s.store.handle message address) with
          log := s.log ++ .started message address ::
            admitEvents (s.store.ensure message.text) p message.text address } message address := by
  obtain ⟨hfound, hp⟩ := exec_findProfile (s.record (.started message address)) message.text
  simp only [record_store] at hfound hp
  refine ⟨_, hp, ?_⟩
  have huser := (ProfileManager.getProfileByName_some _ hp).2
  simp only [handle, messageHandler, bind_eq, exec_bind, exec_update, htype, if_true, connectCmd,
    exec_replicate, hfound]
  rw [exec_admitUser _ address huser, Store.handle_connect htype, Store.connect, hp]
  simp [record, withStore, store]

end Server

end Piupiu
