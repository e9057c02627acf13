import Piupiu.Connect
import Piupiu.FollowGraph

/-!
# Sessions on a secondary

The primary forwards CONNECT packets, and a secondary runs the same handler on the
copies. It opens its sessions for the address that the copy came from, which is
the primary's, and it is told of no DISCONNECT. This module says in which runs
the two servers nevertheless hold the same sessions.
-/
namespace Piupiu

/-- The packet that goes to the secondary at position `i` of the peers. -/
def Event.forwarded? (i : Nat) : Event → Option Packet
  | .sent _ message (.forward _ j) => if j = i then some message else none
  | _ => none

/-- What was forwarded to that secondary, in order. -/
def forwarded (i : Nat) (log : List Event) : List Packet := log.filterMap (Event.forwarded? i)

@[simp] theorem forwarded_append (i : Nat) (log events : List Event) :
    forwarded i (log ++ events) = forwarded i log ++ forwarded i events := List.filterMap_append

theorem forwarded_byWorker {i : Nat} {events : List Event} (h : ∀ e ∈ events, e.byWorker = true) :
    forwarded i events = [] := by
  refine List.filterMap_eq_nil_iff.mpr fun e he => ?_
  have hworker := h e he
  cases e with
  | sent address message origin =>
    cases origin with
    | notification => rfl
    | _ => cases hworker
  | _ => rfl

namespace Server

section handle

variable {s₀ s s' : Server} {now : UInt64} {message : Packet} {address : SocketAddress}

/-- Nothing that a handler does changes what the server was launched with. -/
theorem step_launch (h : Step s₀ now message address s s') :
    s'.replicaManager.thisPeer = s.replicaManager.thisPeer ∧
    s'.replicaManager.peers = s.replicaManager.peers := by
  cases h with
  | sync => rw [(sync_same s).1]; exact ⟨rfl, rfl⟩
  | getConnectedUsers =>
    unfold Server.getConnectedUsers
    split <;> exact ⟨rfl, rfl⟩
  | confirmBuffer =>
    rw [confirmBuffer_eq]
    exact ⟨rfl, rfl⟩
  | confirmToPrimary =>
    unfold Server.confirmToPrimary
    split <;> exact ⟨rfl, rfl⟩
  | _ => exact ⟨rfl, rfl⟩

theorem handle_launch (s : Server) (now : UInt64) (message : Packet) (address : SocketAddress) :
    (s.handle now message address).replicaManager.thisPeer = s.replicaManager.thisPeer ∧
    (s.handle now message address).replicaManager.peers = s.replicaManager.peers :=
  handle_preserves (P := fun s' => s'.replicaManager.thisPeer = s.replicaManager.thisPeer ∧
    s'.replicaManager.peers = s.replicaManager.peers)
    (fun _ _ hab h => ⟨(step_launch hab).1.trans h.1, (step_launch hab).2.trans h.2⟩) ⟨rfl, rfl⟩

theorem serve_launch (s : Server) (arrivals : List Arrival) :
    (s.serve arrivals).replicaManager.thisPeer = s.replicaManager.thisPeer ∧
    (s.serve arrivals).replicaManager.peers = s.replicaManager.peers := by
  induction arrivals using List.reverseRecOn with
  | nil => exact ⟨rfl, rfl⟩
  | append_singleton arrivals a ih =>
    rw [serve_concat]
    have h := handle_launch (s.serve arrivals) a.now a.message a.address
    exact ⟨h.1.trans ih.1, h.2.trans ih.2⟩

/-- Only a CONNECT is forwarded. -/
theorem step_forwarded (i : Nat) (htype : message.type ≠ packetConnectCmd)
    (h : Step s₀ now message address s s') : forwarded i s'.log = forwarded i s.log := by
  obtain ⟨events, hlog, -, hevents, -⟩ := step_events h
  have hnone : forwarded i events = [] := by
    refine List.filterMap_eq_nil_iff.mpr fun e he => ?_
    have hadded := hevents e he
    cases e with
    | sent address message origin =>
      cases origin with
      | forward => exact absurd hadded htype
      | _ => rfl
    | _ => rfl
  rw [hlog, forwarded_append, hnone, List.append_nil]

theorem forwards_later (message : Packet) (lastSeqnTemp : UInt64) (container : Nat) {i j : Nat}
    (hji : j < i) (peers : List Peer) :
    forwarded j (forwards message lastSeqnTemp container i peers) = [] := by
  induction peers generalizing i with
  | nil => rfl
  | cons first rest ih =>
    have hne : i ≠ j := by omega
    have hrest := ih (i := i + 1) (by omega)
    simpa [forwarded, forwards, Event.forwarded?, hne] using hrest

/-- Each peer is sent one copy. -/
theorem forwards_forwarded (message : Packet) (lastSeqnTemp : UInt64) (container : Nat) {i j : Nat}
    {peers : List Peer} {peer : Peer} (hij : i ≤ j) (hpeer : peers[j - i]? = some peer) :
    forwarded j (forwards message lastSeqnTemp container i peers) =
      [{ message with seqn := lastSeqnTemp + UInt64.ofNat j }] := by
  induction peers generalizing i with
  | nil => cases hpeer
  | cons first rest ih =>
    by_cases he : i = j
    · subst he
      have hrest := forwards_later message lastSeqnTemp container (Nat.lt_succ_self i) rest
      simpa [forwarded, forwards, Event.forwarded?] using hrest
    · have hnext : rest[j - (i + 1)]? = some peer := by
        rwa [show j - i = (j - (i + 1)) + 1 by omega, List.getElem?_cons_succ] at hpeer
      have hrest := ih (i := i + 1) (by omega) hnext
      simpa [forwarded, forwards, Event.forwarded?, he] using hrest

theorem admitEvents_forwarded (i : Nat) (st : Store) (p : ProfileRef) (user : Str)
    (address : SocketAddress) : forwarded i (admitEvents st p user address) = [] := by
  unfold admitEvents scanEvents
  split
  · split <;> rfl
  · rfl

/-- The primary forwards one copy of each CONNECT to each secondary, and nothing else. -/
theorem handle_forwarded {s : Server} (hprimary : s.replicaManager.isPrimary = true) {i : Nat}
    {peer : Peer} (hi : s.replicaManager.getSecondaryReplicas[i]? = some peer) (now : UInt64)
    (message : Packet) (address : SocketAddress) :
    forwarded i (s.handle now message address).log = forwarded i s.log ++
      if message.type = packetConnectCmd then
        [{ message with seqn := s.getLastSeqn + UInt64.ofNat i }]
      else [] := by
  by_cases htype : message.type = packetConnectCmd
  · obtain ⟨p, -, he⟩ := handle_connect s now address htype
    have hcopy := forwards_forwarded message s.getLastSeqn
      s.replicaManager.confirmationBuffer.length (Nat.zero_le i) hi
    have hquiet := admitEvents_forwarded i (s.store.ensure message.text) p message.text address
    rw [he, replicated, withStore_replicaManager, if_pos hprimary, if_pos htype]
    simp only [broadcasted, forwarded_append, withStore_replicaManager]
    simp only [forwarded, List.filterMap_cons, Event.forwarded?] at hcopy hquiet ⊢
    rw [hquiet, List.append_nil]
    exact congrArg _ hcopy
  · rw [if_neg htype, List.append_nil]
    exact handle_preserves (P := fun s' => forwarded i s'.log = forwarded i s.log)
      (fun _ _ hab h => (step_forwarded i htype hab).trans h) rfl

end handle

/-- The copies that come to a secondary, in order, and the times it handles them. -/
def deliveries (primary : SocketAddress) (clock : Nat → UInt64) (copies : List Packet) :
    List Arrival :=
  copies.mapIdx fun k message => ⟨clock k, message, primary⟩

/-- Both servers hold the same sockets for every user. -/
def Agree (s t : Server) : Prop :=
  ∀ user, s.sessionManager.getUserAddresses user = t.sessionManager.getUserAddresses user

/-- What keeps two servers that agree in agreement: a CONNECT comes from the
primary's own address or for a user who has all sockets already, and the sender of
a DISCONNECT has no socket of the user. -/
def Harmless (primary : SocketAddress) (s : Server) (a : Arrival) : Prop :=
  (a.message.type = packetConnectCmd → a.address = primary ∨
    maxSessionsPerUser ≤ (s.sessionManager.getUserAddresses a.message.text).length) ∧
  (a.message.type = packetDisconnectCmd →
    a.address ∉ s.sessionManager.getUserAddresses a.message.text)

theorem handle_addresses (s : Server) (now : UInt64) (message : Packet) (address : SocketAddress)
    (user : Str) : (s.handle now message address).sessionManager.getUserAddresses user =
      (s.store.handle message address).sessions.getUserAddresses user := by
  rw [← (handle_ended s now message address).store]
  rfl

section agree

variable {s t : Server} {now now' : UInt64} {message : Packet} {address : SocketAddress}

theorem handle_connect_addresses (s : Server) (now : UInt64) (address : SocketAddress)
    (htype : message.type = packetConnectCmd) (user : Str) :
    (s.handle now message address).sessionManager.getUserAddresses user =
      if user = message.text ∧
          (s.sessionManager.getUserAddresses message.text).length < maxSessionsPerUser then
        s.sessionManager.getUserAddresses message.text ++ [address]
      else s.sessionManager.getUserAddresses user := by
  have hsessions : s.store.sessions = s.sessionManager := rfl
  rw [handle_addresses, Store.handle_addresses, if_pos htype, hsessions,
    SessionManager.startSession_addresses]
  simp only [SessionManager.startSession_isSome]

/-- The copy of a CONNECT keeps two servers in agreement exactly when both open a
session for the same address or neither opens one. -/
theorem agree_connect (h : Agree s t) (htype : message.type = packetConnectCmd) (seqn : UInt64)
    (primary : SocketAddress) :
    Agree (s.handle now message address) (t.handle now' { message with seqn := seqn } primary) ↔
      address = primary ∨
        maxSessionsPerUser ≤ (s.sessionManager.getUserAddresses message.text).length := by
  have hcopy : ({ message with seqn := seqn } : Packet).text = message.text := rfl
  have htype' : ({ message with seqn := seqn } : Packet).type = packetConnectCmd := htype
  have ht := handle_connect_addresses t now' primary htype'
  constructor
  · intro hagree
    have huser := hagree message.text
    rw [handle_connect_addresses s now address htype, ht, hcopy, ← h message.text] at huser
    by_cases hlt : (s.sessionManager.getUserAddresses message.text).length < maxSessionsPerUser
    · rw [if_pos ⟨rfl, hlt⟩, if_pos ⟨rfl, hlt⟩] at huser
      have hlast := List.append_cancel_left huser
      exact .inl (List.cons.inj hlast).1
    · exact .inr (Nat.le_of_not_lt hlt)
  · intro hsame user
    rw [handle_connect_addresses s now address htype, ht, hcopy, ← h message.text, ← h user]
    obtain rfl | hfull := hsame
    · rfl
    · have hnot : ¬(s.sessionManager.getUserAddresses message.text).length < maxSessionsPerUser := by
        omega
      rw [if_neg fun hc => hnot hc.2, if_neg fun hc => hnot hc.2]

/-- Of the other packets only a DISCONNECT can part two servers. -/
theorem agree_other (hlinked : s.store.Linked) (h : Agree s t)
    (htype : message.type ≠ packetConnectCmd) : Agree (s.handle now message address) t ↔
      (message.type = packetDisconnectCmd →
        address ∉ s.sessionManager.getUserAddresses message.text) := by
  have hsessions : s.store.sessions = s.sessionManager := rfl
  constructor
  · intro hagree hd hm
    have huser := hagree message.text
    have hp : s.store.profiles.getProfileByName message.text ≠ none := by
      intro hnone
      have hnil : s.sessionManager.getUserAddresses message.text = [] :=
        hlinked.addresses_of_none hnone
      rw [hnil] at hm
      cases hm
    rw [handle_addresses, Store.handle_addresses, if_neg htype, if_pos ⟨hd, hp⟩, hsessions,
      SessionManager.endSession_addresses, if_pos rfl, ← h message.text] at huser
    have hlength := congrArg List.length huser
    rw [List.length_erase_of_mem hm] at hlength
    have hpos := List.length_pos_of_mem hm
    omega
  · intro hsender user
    rw [handle_addresses, Store.handle_addresses, if_neg htype, hsessions, ← h user]
    split
    · next hd =>
      rw [SessionManager.endSession_addresses]
      split
      · next hu =>
        rw [hu, List.erase_of_not_mem (hsender hd.1)]
      · rfl
    · rfl

end agree

/-- The secondary at position `i` once it has handled all copies made for it. -/
def replica (t : Server) (primary : SocketAddress) (clock : Nat → UInt64) (i : Nat) (s : Server) :
    Server := t.serve (deliveries primary clock (forwarded i s.log))

theorem replica_concat (t s s' : Server) (primary : SocketAddress) (clock : Nat → UInt64) (i : Nat)
    {copy : Packet} (h : forwarded i s'.log = forwarded i s.log ++ [copy]) :
    t.replica primary clock i s' = (t.replica primary clock i s).handle
      (clock (forwarded i s.log).length) copy primary := by
  rw [replica, h, deliveries, List.mapIdx_concat, serve_concat]
  rfl

/-- One more packet at the primary. -/
theorem agree_step {s t : Server} (hlinked : s.store.Linked)
    (hprimary : s.replicaManager.isPrimary = true) {i : Nat} {peer : Peer}
    (hi : s.replicaManager.getSecondaryReplicas[i]? = some peer) (primary : SocketAddress)
    (clock : Nat → UInt64) (h : Agree s (t.replica primary clock i s)) (a : Arrival) :
    Agree (s.handle a.now a.message a.address)
      (t.replica primary clock i (s.handle a.now a.message a.address)) ↔ Harmless primary s a := by
  have hforwarded := handle_forwarded hprimary hi a.now a.message a.address
  unfold Harmless
  by_cases htype : a.message.type = packetConnectCmd
  · rw [if_pos htype] at hforwarded
    rw [replica_concat t s _ primary clock i hforwarded, agree_connect h htype]
    simp only [htype, forall_const, iff_self_and]
    exact fun _ hd => absurd hd (by decide)
  · rw [if_neg htype, List.append_nil] at hforwarded
    have hsame : t.replica primary clock i (s.handle a.now a.message a.address) =
        t.replica primary clock i s := by
      rw [replica, hforwarded, replica]
    rw [hsame, agree_other hlinked h htype]
    simp [htype]

/-- Primary and secondary hold the same sessions after every prefix of the packets
exactly when every packet is harmless where it is handled. -/
theorem sessions_agree_iff (thisPeer : Peer) (hprimary : thisPeer.primary = true)
    (peers : List Peer) (disk : Disk) {i : Nat} {peer : Peer}
    (hi : (peers.filter fun p => !p.primary)[i]? = some peer) (peers' : List Peer) (disk' : Disk)
    (clock : Nat → UInt64) (arrivals : List Arrival) :
    (∀ k, Agree ((new thisPeer peers disk ⟨[]⟩).serve (arrivals.take k))
      ((new peer peers' disk' ⟨[]⟩).replica thisPeer.getSocketAddress clock i
        ((new thisPeer peers disk ⟨[]⟩).serve (arrivals.take k)))) ↔
    ∀ k a, arrivals[k]? = some a → Harmless thisPeer.getSocketAddress
      ((new thisPeer peers disk ⟨[]⟩).serve (arrivals.take k)) a := by
  have hstep : ∀ k a, arrivals[k]? = some a →
      Agree ((new thisPeer peers disk ⟨[]⟩).serve (arrivals.take k))
        ((new peer peers' disk' ⟨[]⟩).replica thisPeer.getSocketAddress clock i
          ((new thisPeer peers disk ⟨[]⟩).serve (arrivals.take k))) →
      (Agree ((new thisPeer peers disk ⟨[]⟩).serve (arrivals.take (k + 1)))
        ((new peer peers' disk' ⟨[]⟩).replica thisPeer.getSocketAddress clock i
          ((new thisPeer peers disk ⟨[]⟩).serve (arrivals.take (k + 1)))) ↔
        Harmless thisPeer.getSocketAddress
          ((new thisPeer peers disk ⟨[]⟩).serve (arrivals.take k)) a) := by
    intro k a ha hagree
    have hlaunch := serve_launch (new thisPeer peers disk ⟨[]⟩) (arrivals.take k)
    have hlinked := (serve_regular thisPeer peers disk (arrivals.take k)).linked
    rw [List.take_add_one, ha, Option.toList_some, serve_concat]
    have hrole : ((new thisPeer peers disk ⟨[]⟩).serve
        (arrivals.take k)).replicaManager.isPrimary = true := by
      rw [ReplicaManager.isPrimary, hlaunch.1]
      exact hprimary
    have hpeer : ((new thisPeer peers disk ⟨[]⟩).serve
        (arrivals.take k)).replicaManager.getSecondaryReplicas[i]? = some peer := by
      rw [ReplicaManager.getSecondaryReplicas, hlaunch.2]
      exact hi
    exact agree_step hlinked hrole hpeer _ _ hagree a
  constructor
  · intro hagree k a ha
    exact (hstep k a ha (hagree k)).mp (hagree (k + 1))
  · intro hharmless k
    induction k with
    | zero => exact fun user => rfl
    | succ k ih =>
      cases ha : arrivals[k]? with
      | some a => exact (hstep k a ha ih).mpr (hharmless k a ha)
      | none =>
        rw [List.take_add_one, ha, Option.toList_none, List.append_nil]
        exact ih

/-- A primary with three secondaries, and the first of these. -/
def servingPrimary : Server := new ⟨[], 0, true⟩
  [⟨[], 1, false⟩, ⟨[], 2, false⟩, ⟨[], 3, false⟩] ⟨true, none⟩ ⟨[]⟩

def servingSecondary : Server := new ⟨[], 1, false⟩
  [⟨[], 0, true⟩, ⟨[], 2, false⟩, ⟨[], 3, false⟩] ⟨true, none⟩ ⟨[]⟩

/-- Two CONNECTs that come from the primary's own address leave the sessions alike. -/
theorem sessions_agree_iff_own_address : Agree (servingPrimary.serve
      (List.replicate 2 ⟨0, clientPacket packetConnectCmd 0 [97], ⟨[], 0⟩⟩))
      (servingSecondary.replica ⟨[], 0⟩ (fun _ => 0) 0 (servingPrimary.serve
        (List.replicate 2 ⟨0, clientPacket packetConnectCmd 0 [97], ⟨[], 0⟩⟩))) := by
  refine (sessions_agree_iff ⟨[], 0, true⟩ rfl _ _ rfl _ _ _ (List.replicate 2
    ⟨0, clientPacket packetConnectCmd 0 [97], ⟨[], 0⟩⟩)).mpr (fun k a ha => ?_) 2
  obtain rfl := List.eq_of_mem_replicate (List.mem_of_getElem? ha)
  refine ⟨fun _ => .inl rfl, fun htype => ?_⟩
  exact absurd htype (by decide)

/-- After one CONNECT from a client the secondary holds the primary's address for it. -/
theorem not_agree_after_connect : ¬Agree
    (servingPrimary.serve [⟨0, clientPacket packetConnectCmd 0 [97], ⟨[], 9⟩⟩])
    (servingSecondary.replica ⟨[], 0⟩ (fun _ => 0) 0
      (servingPrimary.serve [⟨0, clientPacket packetConnectCmd 0 [97], ⟨[], 9⟩⟩])) := by
  intro h
  exact absurd (h [97]) (by decide +kernel)

end Server

end Piupiu
