import Piupiu.Terminal
import Piupiu.Parallel
import Piupiu.Cluster

/-!
# Clients and servers

The four servers, each with all its handlers side by side, run beside any number of
clients that were launched with the address of the primary. What either side sends may
come late, in any order, several times or never, and it comes from the address of the one
that sent it.
-/
namespace Piupiu

open Batches Atomic

/-- Four servers, and clients with hosts of their own. -/
structure Site (ι : Type) where
  deployment : Deployment
  profile : ι → Str
  host : ι → SocketAddress
  distinct : ∀ i j, host i = host j → i = j
  apart : ∀ i n, host i ≠ deployment.address n

inductive Endpoint (ι : Type) where
  | server (n : Node)
  | client (i : ι)

structure World (ι : Type) where
  server : Node → Threads Server
  terminal : ι → Terminal

namespace Site

variable {ι : Type} (site : Site ι)

/-- The user name that a client puts into its packets. -/
def handle (i : ι) : Str := cString (Client.trimCopy (site.profile i))

def address : Endpoint ι → SocketAddress
  | .server n => site.deployment.address n
  | .client i => site.host i

theorem address_inj {e e' : Endpoint ι} (h : site.address e = site.address e') : e = e' := by
  cases e with
  | server n =>
    cases e' with
    | server n' => rw [site.deployment.distinct n n' h]
    | client i => exact absurd h.symm (site.apart i n)
  | client i =>
    cases e' with
    | server n => exact absurd h (site.apart i n)
    | client j => rw [site.distinct i j h]

/-- What one endpoint has to say to another one. -/
def Allowed : Endpoint ι → Endpoint ι → Packet → Prop
  | .client i, .server .primary, message => Command (site.handle i) message
  | .server .primary, .client _, message => Expected message
  | .server .primary, .server (.secondary _), message => message.type = packetConnectCmd
  | .server (.secondary _), .server .primary, message => message.type = packetConfirmStateChange
  | _, _, _ => False

end Site

namespace World

variable {ι : Type} (s : Sorter Packet.before) (site : Site ι)

/-- A client does something of its own, a packet that was sent comes to the one it is
for, a handler performs an action, or a worker does an iteration. -/
inductive Move (ι : Type) where
  | terminal (i : ι) (m : Terminal.Move) (own : ∀ now p, m ≠ .packet now p)
  | toServer (now : UInt64) (i : ι) (k : Nat)
  | toClient (now : UInt64) (n : Node) (k : Nat) (i : ι)
  | between (now : UInt64) (source : Node) (k : Nat)
  | advance (n : Node) (i : Nat)
  | worker (n : Node) (now : UInt64)

/-- What a move is for a server. -/
def serverMove (w : World ι) : Move ι → Option (Node × Server.Parallel.Move)
  | .toServer now i k =>
    match (w.terminal i).console.client.log[k]? with
    | some (.sent address message) =>
      (site.deployment.nodeAt address).map fun n => (n, .arrive now message (site.host i))
    | _ => none
  | .between now source k =>
    match (w.server source).shared.log[k]? with
    | some (.sent address message _) => (site.deployment.nodeAt address).map fun n =>
        (n, .arrive now message (site.deployment.address source))
    | _ => none
  | .advance n i => some (n, .advance i)
  | .worker n now => some (n, .worker now)
  | _ => none

/-- What a move is for a client. -/
def clientMove (w : World ι) : Move ι → Option (ι × Terminal.Move)
  | .terminal i m _ => some (i, m)
  | .toClient now n k i =>
    match (w.server n).shared.log[k]? with
    | some (.sent address message _) =>
      if address = site.host i then some (i, .packet now message) else none
    | _ => none
  | _ => none

def move [DecidableEq ι] (w : World ι) (mv : Move ι) : World ι where
  server :=
    match serverMove site w mv with
    | some (n, m) => Function.update w.server n (Server.Parallel.move (w.server n) m)
    | none => w.server
  terminal :=
    match clientMove site w mv with
    | some (i, m) => Function.update w.terminal i ((w.terminal i).move s m)
    | none => w.terminal

/-- A server without stored profiles. -/
def launched (disk : Node → Disk) (n : Node) : Server :=
  .new (site.deployment.peer n) (site.deployment.peers n) (disk n) ⟨[]⟩

/-- Servers that have just been launched, and clients that have not connected yet. -/
def start (disk : Node → Disk) : World ι where
  server n := ⟨launched site disk n, []⟩
  terminal i := .launch (site.profile i) (site.deployment.address .primary)

def run [DecidableEq ι] (w : World ι) (moves : List (Move ι)) : World ι :=
  moves.foldl (move s site) w

/-- What an endpoint has sent to an address. -/
def Sent (w : World ι) : Endpoint ι → SocketAddress → Packet → Prop
  | .server n, address, message => ∃ origin, .sent address message origin ∈ (w.server n).shared.log
  | .client i, address, message => .sent address message ∈ (w.terminal i).console.client.log

/-- Some server has sent the packet to the client. -/
def Came (w : World ι) (i : ι) (message : Packet) : Prop :=
  ∃ n, w.Sent (.server n) (site.host i) message

/-- The packet was sent to the server from this address. -/
def Reached (w : World ι) (n : Node) (message : Packet) (sender : SocketAddress) : Prop :=
  ∃ e, sender = site.address e ∧ w.Sent e (site.deployment.address n) message

/-- Each server does a run of its own, with packets that were sent to it. -/
def Fed (disk : Node → Disk) (w : World ι) : Prop := ∀ n, ∃ ms : List Server.Parallel.Move,
  w.server n = Server.Parallel.run (launched site disk n) ms ∧
  ∀ now message sender, .arrive now message sender ∈ ms → w.Reached site n message sender

/-- What the clients keep to, given what has come to them. -/
def Kept (w : World ι) : Prop := ∀ i, (w.terminal i).Keeps (w.Came site i) (site.profile i)
  (site.deployment.address .primary)

section fed

variable {site} {disk : Node → Disk} {w : World ι}

/-- Only commands are sent to the primary. -/
theorem Kept.command (h : w.Kept site) {i : ι} {address : SocketAddress} {message : Packet}
    (hsent : w.Sent (.client i) address message) :
    address = site.deployment.address .primary ∧ Command (site.handle i) message :=
  (h i).commands address message hsent

/-- Everything on a server has its reason, and its peers are those of the launch. -/
theorem Fed.grounded (h : w.Fed site disk) (n : Node) :
    (w.server n).shared.Grounded (w.Reached site n) ∧
    (w.server n).shared.replicaManager.thisPeer = site.deployment.peer n ∧
    (w.server n).shared.replicaManager.peers = site.deployment.peers n := by
  obtain ⟨ms, hrun, hreached⟩ := h n
  rw [hrun]
  exact ⟨(Server.Parallel.run_guarded _ _ _ hreached).holds, Server.Parallel.run_peers _ _ _ ms⟩

/-- The packets that are forwarded are CONNECTs from the primary to a secondary. -/
theorem Fed.forwarded (h : w.Fed site disk) {n : Node} {address : SocketAddress} {message : Packet}
    {k i : Nat} (hsent : .sent address message (.forward k i) ∈ (w.server n).shared.log) :
    n = .primary ∧ message.type = packetConnectCmd ∧
      ∃ j, address = site.deployment.address (.secondary j) := by
  obtain ⟨hgrounded, hthis, hpeers⟩ := h.grounded n
  obtain ⟨hprimary, htype, peer, hpeer, haddress⟩ := hgrounded.replicated.forwarded _ _ _ _ hsent
  rw [ReplicaManager.isPrimary, hthis] at hprimary
  obtain rfl := (Cluster.replicas_isPrimary site.deployment n).mp hprimary
  have hsecondaries : peer ∈ (site.deployment.replicas .primary).getSecondaryReplicas := by
    rw [ReplicaManager.getSecondaryReplicas, hpeers] at hpeer
    exact hpeer
  rw [Cluster.secondaries_of_primary] at hsecondaries
  obtain ⟨j, rfl⟩ := List.mem_ofFn.mp hsecondaries
  exact ⟨rfl, htype, j, haddress⟩

/-- Confirmations are sent by secondaries to the primary. -/
theorem Fed.confirmed (h : w.Fed site disk) {n : Node} {address : SocketAddress} {message : Packet}
    (hsent : .sent address message .confirmation ∈ (w.server n).shared.log) :
    message.type = packetConfirmStateChange ∧
      ∃ j, n = .secondary j ∧ address = site.deployment.address .primary := by
  obtain ⟨hgrounded, hthis, hpeers⟩ := h.grounded n
  obtain ⟨hprimary, htype, primary, hpeer, haddress⟩ := hgrounded.replicated.confirmed _ _ hsent
  rw [ReplicaManager.isPrimary, hthis] at hprimary
  cases n with
  | primary =>
    rw [(site.deployment.primary .primary).mpr rfl] at hprimary
    cases hprimary
  | secondary j =>
    have hfound : (site.deployment.replicas (.secondary j)).getPrimaryReplica = some primary := by
      rw [← hpeer, ReplicaManager.getPrimaryReplica, ReplicaManager.getPrimaryReplica,
        ReplicaManager.isPrimary, ReplicaManager.isPrimary, hthis, hpeers]
      rfl
    rw [Cluster.primary_of_secondary] at hfound
    cases hfound
    exact ⟨htype, j, rfl, haddress⟩

theorem request_types {message : Packet} {r : Request Str Str}
    (h : message.request? = some r) : message.type ≠ packetNotification ∧
      message.type ≠ packetAcceptConnCmd ∧ message.type ≠ packetConfirmStateChange := by
  refine ⟨fun ht => ?_, fun ht => ?_, fun ht => ?_⟩ <;>
    simp [Packet.request?, ht, packetNotification, packetAcceptConnCmd, packetConfirmStateChange,
      packetConnectCmd, packetDisconnectCmd, packetFollowCmd, packetSendCmd] at h

/-- A command that has reached a server came straight from a client to the primary, or it
is the copy of a CONNECT on a secondary. -/
theorem Fed.request (h : w.Fed site disk) (hk : w.Kept site) {n : Node} {message : Packet}
    {sender : SocketAddress} {r : Request Str Str} (hrequest : message.request? = some r)
    (hreached : w.Reached site n message sender) :
    (n = .primary ∧ ∃ i, sender = site.host i ∧
      w.Sent (.client i) (site.deployment.address .primary) message ∧
      Command (site.handle i) message) ∨
    message.type = packetConnectCmd ∧ ∃ j, n = .secondary j := by
  obtain ⟨hnotify, haccept, hconfirm⟩ := request_types hrequest
  obtain ⟨e, rfl, hsent⟩ := hreached
  cases e with
  | client i =>
    obtain ⟨haddress, hcommand⟩ := hk.command hsent
    obtain rfl := site.deployment.distinct _ _ haddress
    exact .inl ⟨rfl, i, rfl, hsent, hcommand⟩
  | server source =>
    obtain ⟨origin, hsent⟩ := hsent
    have hgrounded := (h.grounded source).1
    cases origin with
    | notification =>
      obtain ⟨x, -, htype, -⟩ := hgrounded.noted.notified _ _ hsent
      exact absurd htype hnotify
    | accept k => exact absurd (hgrounded.replicated.accepted _ _ _ hsent).2.1 haccept
    | confirmation => exact absurd (h.confirmed hsent).1 hconfirm
    | forward k i =>
      obtain ⟨-, htype, j, haddress⟩ := h.forwarded hsent
      exact .inr ⟨htype, j, site.deployment.distinct _ _ haddress⟩

/-- On a secondary only CONNECTs have been asked for. -/
theorem Fed.asked (h : w.Fed site disk) (hk : w.Kept site) {n : Node} {r : Request Str Str}
    {a : SocketAddress} (hasked : Asked (w.Reached site n) r a) :
    (n = .primary ∧ ∃ i message, a = site.host i ∧ message.request? = some r ∧
      w.Sent (.client i) (site.deployment.address .primary) message ∧
      Command (site.handle i) message) ∨ ∃ j u, n = .secondary j ∧ r = .connect u := by
  obtain ⟨message, hreached, hrequest⟩ := hasked
  obtain ⟨hn, i, ha, hsent, hcommand⟩ | ⟨htype, j, hn⟩ := h.request hk hrequest hreached
  · exact .inl ⟨hn, i, message, ha, hrequest, hsent, hcommand⟩
  · have hconnect := request_connect.mpr ⟨htype, (rfl : message.text = message.text)⟩
    exact .inr ⟨j, message.text, hn, Option.some.inj (hrequest.symm.trans hconnect)⟩

/-- A client connects under its own handle. -/
theorem Fed.connected (h : w.Fed site disk) (hk : w.Kept site) {u : Str} {a : SocketAddress}
    (hasked : Asked (w.Reached site .primary) (.connect u) a) :
    ∃ i, a = site.host i ∧ site.handle i = u := by
  obtain ⟨-, i, message, ha, hrequest, -, hcommand⟩ | ⟨j, -, hn, -⟩ := h.asked hk hasked
  · obtain ⟨htype, htext⟩ := request_connect.mp hrequest
    obtain ⟨-, hhandle⟩ | hfollow | hsend := hcommand
    · exact ⟨i, ha, hhandle.symm.trans htext⟩
    · exact absurd (htype.symm.trans hfollow) (by decide)
    · exact absurd (htype.symm.trans hsend) (by decide)
  · cases hn

/-- The primary accepts clients only. -/
theorem Fed.accepted (h : w.Fed site disk) (hk : w.Kept site) {n : Node} {address : SocketAddress}
    {message : Packet} {k : Nat}
    (hsent : .sent address message (.accept k) ∈ (w.server n).shared.log) :
    n = .primary ∧ message.type = packetAcceptConnCmd ∧ ∃ i, address = site.host i := by
  obtain ⟨hgrounded, hthis, -⟩ := h.grounded n
  obtain ⟨hprimary, htype, u, hasked⟩ := hgrounded.replicated.accepted _ _ _ hsent
  rw [ReplicaManager.isPrimary, hthis] at hprimary
  obtain rfl := (site.deployment.primary n).mp hprimary
  obtain ⟨i, ha, -⟩ := h.connected hk hasked
  exact ⟨rfl, htype, i, ha⟩

/-- The text says what a user has sent, and a client with the handle of this one has
followed that user. -/
def Meant (site : Site ι) (w : World ι) (i : ι) (text : Str) : Prop :=
  ∃ j k body, text = notificationText body (site.handle j) ∧ site.handle j ≠ site.handle i ∧
    site.handle k = site.handle i ∧
    (∃ message, w.Sent (.client j) (site.deployment.address .primary) message ∧
      message.type = packetSendCmd ∧ message.text = body) ∧
    ∃ message, w.Sent (.client k) (site.deployment.address .primary) message ∧
      message.type = packetFollowCmd ∧ message.text = site.handle j

/-- Notifications are sent by the primary, to clients that they are meant for. -/
theorem Fed.notified (h : w.Fed site disk) (hk : w.Kept site) {n : Node} {address : SocketAddress}
    {message : Packet} (hsent : .sent address message .notification ∈ (w.server n).shared.log) :
    n = .primary ∧ message.type = packetNotification ∧
      ∃ i, address = site.host i ∧ w.Meant site i message.text := by
  have hgrounded := (h.grounded n).1
  obtain ⟨x, hx, htype, htext, hreader⟩ := hgrounded.noted.notified _ _ hsent
  have hissued := hgrounded.noted.conserved.symm.subset (List.mem_append_left _ hx)
  obtain ⟨⟨-, hother, device', hfollower, hfollow⟩, device, hauthor, hsend⟩ :=
    hgrounded.noted.due x hissued
  obtain ⟨rfl, j, sent, rfl, hrequest, hj, -⟩ | ⟨-, _, -, hconnect⟩ := h.asked hk hsend
  swap
  · cases hconnect
  obtain ⟨-, k, followed, rfl, hrequest', hfollows, -⟩ | ⟨-, _, -, hconnect⟩ := h.asked hk hfollow
  swap
  · cases hconnect
  obtain ⟨i, rfl, hi⟩ := h.connected hk hreader
  obtain ⟨j', hj', hauthor'⟩ := h.connected hk hauthor
  obtain rfl := site.distinct _ _ hj'
  obtain ⟨k', hk', hfollower'⟩ := h.connected hk hfollower
  obtain rfl := site.distinct _ _ hk'
  obtain ⟨hsendType, hbody⟩ := request_send.mp hrequest
  have hplain : message.text = notificationText x.body x.senderUsername := by
    rw [htext, ← hbody, ← hauthor', Site.handle]
    exact cString_notificationText _ _
  rw [← hi] at hother hfollower'
  rw [← hauthor'] at hother hplain hrequest'
  exact ⟨rfl, htype, i, rfl, j, k, x.body, hplain, hother.symm, hfollower',
    ⟨sent, hj, hsendType, hbody⟩, followed, hfollows, request_follow.mp hrequest'⟩

/-- Whatever is sent is sent to an endpoint, and is something that it has to say there. -/
theorem Fed.allowed (h : w.Fed site disk) (hk : w.Kept site) {e : Endpoint ι} {address : SocketAddress}
    {message : Packet} (hsent : w.Sent e address message) :
    ∃ e', address = site.address e' ∧ site.Allowed e e' message := by
  cases e with
  | client i =>
    obtain ⟨rfl, hcommand⟩ := hk.command hsent
    exact ⟨.server .primary, rfl, hcommand⟩
  | server n =>
    obtain ⟨origin, hsent⟩ := hsent
    cases origin with
    | notification =>
      obtain ⟨rfl, htype, i, rfl, -⟩ := h.notified hk hsent
      exact ⟨.client i, rfl, .inr htype⟩
    | accept k =>
      obtain ⟨rfl, htype, i, rfl⟩ := h.accepted hk hsent
      exact ⟨.client i, rfl, .inl htype⟩
    | forward k i =>
      obtain ⟨rfl, htype, j, rfl⟩ := h.forwarded hsent
      exact ⟨.server (.secondary j), rfl, htype⟩
    | confirmation =>
      obtain ⟨htype, j, rfl, rfl⟩ := h.confirmed hsent
      exact ⟨.server .primary, rfl, htype⟩

/-- What was sent to an endpoint is something that it is to be told. -/
theorem Fed.told (h : w.Fed site disk) (hk : w.Kept site) {e e' : Endpoint ι} {message : Packet}
    (hsent : w.Sent e (site.address e') message) : site.Allowed e e' message := by
  obtain ⟨e'', haddress, hallowed⟩ := h.allowed hk hsent
  rwa [site.address_inj haddress]

/-- What has come to a client is expected there, and a notification is meant for it. -/
theorem Fed.came (h : w.Fed site disk) (hk : w.Kept site) {i : ι} {message : Packet}
    (hcame : w.Came site i message) : Expected message ∧
      (message.type = packetNotification → w.Meant site i message.text) := by
  obtain ⟨n, hsent⟩ := hcame
  have hallowed : site.Allowed (.server n) (.client i) message := h.told hk hsent
  cases n with
  | secondary j => exact hallowed.elim
  | primary =>
    refine ⟨hallowed, fun htype => ?_⟩
    obtain ⟨origin, hsent⟩ := hsent
    cases origin with
    | notification =>
      obtain ⟨-, -, j, hj, hmeant⟩ := h.notified hk hsent
      obtain rfl := site.distinct _ _ hj
      exact hmeant
    | accept k => exact absurd (htype.symm.trans (h.accepted hk hsent).2.1) (by decide)
    | forward k j => exact absurd (htype.symm.trans (h.forwarded hsent).2.1) (by decide)
    | confirmation => exact absurd (htype.symm.trans (h.confirmed hsent).1) (by decide)

end fed

section moves

variable {site} {w : World ι}

/-- What comes to a server was sent to it. -/
theorem serverMove_reached {mv : Move ι} {n : Node} {now : UInt64} {message : Packet}
    {sender : SocketAddress} (h : serverMove site w mv = some (n, .arrive now message sender)) :
    w.Reached site n message sender := by
  cases mv with
  | toServer now' i k =>
    simp only [serverMove] at h
    split at h
    · next address message' hlog =>
      obtain ⟨n', hn', he⟩ := Option.map_eq_some_iff.mp h
      cases he
      refine ⟨.client i, rfl, ?_⟩
      rw [Cluster.nodeAt_some _ hn']
      exact List.mem_of_getElem? hlog
    · cases h
  | between now' source k =>
    simp only [serverMove] at h
    split at h
    · next address message' origin hlog =>
      obtain ⟨n', hn', he⟩ := Option.map_eq_some_iff.mp h
      cases he
      refine ⟨.server source, rfl, origin, ?_⟩
      rw [Cluster.nodeAt_some _ hn']
      exact List.mem_of_getElem? hlog
    · cases h
  | _ => cases h

/-- What comes to a client was sent to it. -/
theorem clientMove_came {mv : Move ι} {i : ι} {now : UInt64} {p : Packet}
    (h : clientMove site w mv = some (i, .packet now p)) : w.Came site i p := by
  cases mv with
  | terminal i' m own =>
    cases h
    exact absurd rfl (own now p)
  | toClient now' n k i' =>
    simp only [clientMove] at h
    split at h
    · next address message origin hlog =>
      split at h
      · next haddress =>
        cases h
        exact ⟨n, origin, haddress ▸ List.mem_of_getElem? hlog⟩
      · cases h
    · cases h
  | _ => cases h

variable [DecidableEq ι] {disk : Node → Disk}

variable (site) in
/-- A client stays as it is, or does its part of the move. -/
theorem move_terminal (w : World ι) (mv : Move ι) (i : ι) :
    (w.move s site mv).terminal i = w.terminal i ∨
      ∃ m, clientMove site w mv = some (i, m) ∧
        (w.move s site mv).terminal i = (w.terminal i).move s m := by
  simp only [move]
  cases hm : clientMove site w mv with
  | none => exact .inl rfl
  | some part =>
    obtain ⟨j, m⟩ := part
    by_cases hj : i = j
    · subst hj
      exact .inr ⟨m, rfl, Function.update_self _ _ _⟩
    · exact .inl (Function.update_of_ne hj _ _)

variable (site) in
/-- A server stays as it is, or does its part of the move. -/
theorem move_server (w : World ι) (mv : Move ι) (n : Node) :
    (w.move s site mv).server n = w.server n ∨
      ∃ m, serverMove site w mv = some (n, m) ∧
        (w.move s site mv).server n = Server.Parallel.move (w.server n) m := by
  simp only [move]
  cases hm : serverMove site w mv with
  | none => exact .inl rfl
  | some part =>
    obtain ⟨n', m⟩ := part
    by_cases hn : n = n'
    · subst hn
      exact .inr ⟨m, rfl, Function.update_self _ _ _⟩
    · exact .inl (Function.update_of_ne hn _ _)

variable {s}

/-- What was sent stays sent. -/
theorem Fed.sent_mono (h : w.Fed site disk) (mv : Move ι) {e : Endpoint ι} {address : SocketAddress}
    {message : Packet} (hsent : w.Sent e address message) :
    (w.move s site mv).Sent e address message := by
  cases e with
  | client i =>
    obtain he | ⟨m, -, he⟩ := move_terminal s site w mv i <;> simp only [Sent, he]
    · exact hsent
    · exact (Terminal.move_log s (w.terminal i) m).subset hsent
  | server n =>
    obtain ⟨origin, hsent⟩ := hsent
    obtain he | ⟨m, -, he⟩ := move_server s site w mv n <;> simp only [Sent, he]
    · exact ⟨origin, hsent⟩
    · obtain ⟨ms, hrun, -⟩ := h n
      have hlater := Server.Parallel.run_later (site.deployment.peer n) (site.deployment.peers n)
        (disk n) ms m
      rw [Server.Parallel.run_concat] at hlater
      rw [hrun] at hsent ⊢
      exact ⟨origin, hlater.log.subset hsent⟩

theorem Fed.reached_mono (h : w.Fed site disk) (mv : Move ι) {n : Node} {message : Packet}
    {sender : SocketAddress} (hreached : w.Reached site n message sender) :
    (w.move s site mv).Reached site n message sender := by
  obtain ⟨e, hsender, hsent⟩ := hreached
  exact ⟨e, hsender, h.sent_mono mv hsent⟩

theorem Fed.move (h : w.Fed site disk) (mv : Move ι) : (w.move s site mv).Fed site disk := by
  intro n
  obtain ⟨ms, hrun, hreached⟩ := h n
  have hold : ∀ now message sender, .arrive now message sender ∈ ms →
      (w.move s site mv).Reached site n message sender :=
    fun now message sender hm => h.reached_mono mv (hreached now message sender hm)
  obtain he | ⟨m, hm, he⟩ := move_server s site w mv n
  · exact ⟨ms, he.trans hrun, hold⟩
  · refine ⟨ms ++ [m], by rw [he, hrun, Server.Parallel.run_concat], fun now message sender ha => ?_⟩
    obtain ha | ha := List.mem_append.mp ha
    · exact hold now message sender ha
    · rw [← List.mem_singleton.mp ha] at hm
      exact h.reached_mono mv (serverMove_reached hm)

theorem Kept.move (h : w.Fed site disk) (hk : w.Kept site) (mv : Move ι) :
    (w.move s site mv).Kept site := by
  intro i
  have hcame : ∀ p, w.Came site i p → (w.move s site mv).Came site i p :=
    fun p hp => hp.imp fun n => h.sent_mono mv
  refine Terminal.Keeps.mono ?_ hcame
  obtain he | ⟨m, hm, he⟩ := move_terminal s site w mv i <;> rw [he]
  · exact hk i
  · refine (hk i).move fun now p hp => ?_
    rw [hp] at hm
    have hpacket := clientMove_came hm
    exact ⟨hpacket, (h.came hk hpacket).1⟩

variable (s site disk)

theorem run_keeps (moves : List (Move ι)) : ((start site disk).run s site moves).Fed site disk ∧
    ((start site disk).run s site moves).Kept site := by
  induction moves using List.reverseRecOn with
  | nil => exact ⟨fun n => ⟨[], rfl, fun _ _ _ h => by cases h⟩, fun i => Terminal.keeps_launch⟩
  | append_singleton moves mv ih =>
    rw [run, List.foldl_append]
    exact ⟨ih.1.move mv, ih.2.move ih.1 mv⟩

end moves

variable [DecidableEq ι]

/-- What is sent, what can come next, and what the clients are brought to. -/
structure Orderly (site : Site ι) (w : World ι) : Prop where
  sent : ∀ e address message, w.Sent e address message →
    ∃ e', address = site.address e' ∧ site.Allowed e e' message
  arrives : ∀ mv n now message sender, serverMove site w mv = some (n, .arrive now message sender) →
    ∃ e, sender = site.address e ∧ site.Allowed e (.server n) message
  comes : ∀ mv i now p, clientMove site w mv = some (i, .packet now p) →
    site.Allowed (.server .primary) (.client i) p
  listening : ∀ i, (w.terminal i).stage ≠ .ended → (w.terminal i).console.client.isListening = true
  errors : ∀ i, ∀ m ∈ (w.terminal i).console.messages, m.type = .error → m.body = Console.complaint
  infos : ∀ i, ∀ m ∈ (w.terminal i).console.messages, m.type = .info → m.body = Console.helpPage

/-- Only packets that their receiver has a case for are ever sent, to a server or to a
client; no packet shuts a client down, and its user sees no message of a server but
notifications. -/
theorem run_orderly (disk : Node → Disk) (moves : List (Move ι)) :
    Orderly site ((start site disk).run s site moves) := by
  obtain ⟨h, hk⟩ := run_keeps s site disk moves
  generalize (start site disk).run s site moves = w at h hk
  refine ⟨fun e address message => h.allowed hk, fun mv n now message sender hm => ?_,
    fun mv i now p hm => ?_, fun i => (hk i).listening, fun i => (hk i).errors, fun i => (hk i).infos⟩
  · obtain ⟨e, hsender, hsent⟩ := serverMove_reached hm
    exact ⟨e, hsender, h.told hk hsent⟩
  · exact (h.came hk (clientMove_came hm)).1

/-- A notification that a user sees says what somebody has sent whom a client with this
user's handle has followed. -/
theorem shown_notifications_meant (disk : Node → Disk) (moves : List (Move ι)) {i : ι}
    {m : ConsoleMessage} (h : m ∈ (((start site disk).run s site moves).terminal i).console.messages)
    (htype : m.type = .notification) : Meant site ((start site disk).run s site moves) i m.body := by
  obtain ⟨hfed, hk⟩ := run_keeps s site disk moves
  obtain ⟨p, hcame, hp, hbody⟩ := (hk i).notifications m h htype
  rw [hbody]
  exact (hfed.came hk hcame).2 hp

/-- What a secondary is left with: users, and sessions whose only socket is the primary. -/
structure Mirrors (site : Site ι) (s : Server) : Prop where
  queue : s.notificationQueue = []
  issued : issued s.log = []
  followers : ∀ p, p < s.profileManager.profiles.length → (s.profileManager.deref p).followers = []
  sockets : ∀ u, ∀ a ∈ s.sessionManager.getUserAddresses u, a = site.deployment.address .primary
  sent : ∀ a message origin, .sent a message origin ∈ s.log →
    origin = .confirmation ∧ message.type = packetConfirmStateChange ∧
      a = site.deployment.address .primary

/-- Of all that the clients do, the secondaries only get to know who has connected: no
one follows anyone there, nothing is ever posted, and no client is at a socket. -/
theorem secondaries_mirror (disk : Node → Disk) (moves : List (Move ι)) (j : Fin 3) :
    Mirrors site (((start site disk).run s site moves).server (.secondary j)).shared := by
  obtain ⟨hfed, hk⟩ := run_keeps s site disk moves
  generalize (start site disk).run s site moves = w at hfed hk
  have hgrounded := (hfed.grounded (.secondary j)).1
  have hasked : ∀ {r a}, Asked (w.Reached site (.secondary j)) r a →
      (∃ u, r = .connect u) ∧ a = site.deployment.address .primary := by
    intro r a hr
    obtain ⟨hn, -⟩ | ⟨j', u, -, rfl⟩ := hfed.asked hk hr
    · cases hn
    · obtain ⟨message, ⟨e, rfl, hsent⟩, hrequest⟩ := hr
      have hallowed : site.Allowed e (.server (.secondary j)) message := hfed.told hk hsent
      cases e with
      | client i => exact hallowed.elim
      | server n =>
        cases n with
        | primary => exact ⟨⟨u, rfl⟩, rfl⟩
        | secondary j'' => exact hallowed.elim
  have hissued : issued (w.server (.secondary j)).shared.log = [] := by
    refine List.eq_nil_iff_forall_not_mem.mpr fun n hn => ?_
    obtain ⟨-, a, -, hsend⟩ := hgrounded.noted.due n hn
    obtain ⟨⟨u, hu⟩, -⟩ := hasked hsend
    cases hu
  have hconserved := hgrounded.noted.conserved
  rw [hissued] at hconserved
  obtain ⟨hdelivered, hqueue⟩ := List.append_eq_nil_iff.mp hconserved.symm.eq_nil
  refine ⟨hqueue, hissued, fun p hp => ?_, fun u a ha => ?_, fun a message origin hsent => ?_⟩
  · refine List.eq_nil_iff_forall_not_mem.mpr fun f hf => ?_
    obtain ⟨a, -, hfollow⟩ := (hgrounded.placed.followers p hp f hf).follows
    obtain ⟨⟨u, hu⟩, -⟩ := hasked hfollow
    cases hu
  · exact (hasked (hgrounded.placed.sockets u a ha)).2
  · cases origin with
    | notification =>
      obtain ⟨n, hn, -⟩ := hgrounded.noted.notified a message hsent
      rw [hdelivered] at hn
      cases hn
    | accept k => cases (hfed.accepted hk hsent).1
    | forward k i => cases (hfed.forwarded hsent).1
    | confirmation =>
      obtain ⟨htype, -, -, haddress⟩ := hfed.confirmed hsent
      exact ⟨rfl, htype, haddress⟩

/-- Two users on one host. -/
def pair : Site Bool where
  deployment := Cluster.launched
  profile i := if i then [98] else [97]
  host i := ⟨[], if i then 9 else 8⟩
  distinct i j h := by
    cases i <;> cases j <;> simp at h ⊢
  apart i n h := by
    cases i <;> cases n <;> simp [Cluster.launched, Deployment.address, Peer.getSocketAddress] at h <;>
      omega

/-- The primary handles what this client has sent at position `k`, with handler `h`. -/
def served (i : Bool) (k h : Nat) : List (Move Bool) :=
  .toServer 0 i k :: List.replicate 20 (.advance .primary h)

def connects (i : Bool) : List (Move Bool) := [.terminal i (.connect 0) (fun _ _ h => by cases h)]

/-- The user types this line. -/
def types (i : Bool) (line : Str) : List (Move Bool) :=
  (line ++ [10]).map fun (c : UInt8) => .terminal i (.key 0 c.toNat) fun _ _ h => by cases h

/-- Both connect, the second one follows the first one, which posts a message. -/
def conversation : List (Move Bool) :=
  connects false ++ served false 0 0 ++ connects true ++ served true 0 1 ++
    types true (literal "/follow a") ++ served true 1 2 ++ types false (literal "m") ++
    served false 1 3 ++ [.worker .primary 0, .toClient 0 .primary 16 true,
      .terminal true (.reorder 0) fun _ _ h => by cases h]

def conversed : World Bool := (start pair fun _ => ⟨true, none⟩).run insertion pair conversation

theorem shown_notifications_meant_conversed :
    Meant pair conversed true (notificationText [109] [97]) := by
  refine shown_notifications_meant insertion pair (fun _ => ⟨true, none⟩) conversation (i := true)
    (m := ⟨.notification, notificationText [109] [97], 0⟩) ?_ rfl
  decide +kernel

end World

end Piupiu
