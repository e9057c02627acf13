import Piupiu.Asides
import Piupiu.Abstraction
import Piupiu.Lib.Threads

/-!
# Handlers side by side

`Listen` starts a thread for every packet, so any number of handlers run at the same
time. Their actions and the iterations of the worker may come in any order; a session
is still granted, a follower added and a packet sent for a reason only, and no
notification is lost or repeated. An action is one call on the shared state, whether or
not the source takes a lock for it. Two handlers that both look for a follower before
either adds it list it twice, so nothing is said of how often a follower is listed.
-/
namespace Piupiu

open Atomic Atomic.Prog

section grounds

variable (Ok : Packet → SocketAddress → Prop)

/-- A packet with this request has come from the address. -/
def Asked (r : Request Str Str) (a : SocketAddress) : Prop :=
  ∃ message, Ok message a ∧ message.request? = some r

/-- From one host the reader has connected, and the author was followed. -/
def Follows (reader author : Str) : Prop :=
  ∃ a, Asked Ok (.connect reader) a ∧ Asked Ok (.follow author) a

/-- The profile is one of another user, who follows the author. -/
structure Reader (m : ProfileManager) (f : ProfileRef) (author : Str) : Prop where
  known : f < m.profiles.length
  other : (m.deref f).handle ≠ author
  follows : Follows Ok (m.deref f).handle author

/-- The reasons for what is in the profiles and the sessions. -/
structure Placed (m : ProfileManager) (n : SessionManager) : Prop where
  capacity : ∀ u, (n.getUserAddresses u).length ≤ maxSessionsPerUser
  sockets : ∀ u, ∀ a ∈ n.getUserAddresses u, Asked Ok (.connect u) a
  sessions : ∀ p, p < m.profiles.length → ∀ r, (m.deref p).session = .ref r →
    n.sessions[(m.deref p).handle]? = some r
  followers : ∀ p, p < m.profiles.length → ∀ f ∈ (m.deref p).followers,
    Reader Ok m f (m.deref p).handle

/-- A notification that a SEND of its author was to bring to its recipient. -/
structure Due (m : ProfileManager) (n : PendingNotification) : Prop where
  reader : Reader Ok m n.recipient n.senderUsername
  sent : ∃ a, Asked Ok (.connect n.senderUsername) a ∧ Asked Ok (.send n.body) a

/-- The reasons for what is in the queue and for what was sent. -/
structure Noted (m : ProfileManager) (log : List Event) (queue : List PendingNotification) : Prop where
  conserved : (issued log).Perm (delivered log ++ queue)
  due : ∀ n ∈ issued log, Due Ok m n
  notified : ∀ a message, .sent a message .notification ∈ log →
    ∃ n ∈ delivered log, message.type = packetNotification ∧
      message.text = cString (notificationText n.body n.senderUsername) ∧
      Asked Ok (.connect (m.deref n.recipient).handle) a

/-- The reasons for what is sent to clients that connect, and among the servers. -/
structure Replicated (m : ReplicaManager) (log : List Event) : Prop where
  hosts : ∀ c ∈ m.confirmationBuffer, m.isPrimary = true ∧ ∃ u, Asked Ok (.connect u) c.originalHost
  accepted : ∀ a message k, .sent a message (.accept k) ∈ log → m.isPrimary = true ∧
    message.type = packetAcceptConnCmd ∧ ∃ u, Asked Ok (.connect u) a
  forwarded : ∀ a message k i, .sent a message (.forward k i) ∈ log → m.isPrimary = true ∧
    message.type = packetConnectCmd ∧ ∃ peer ∈ m.getSecondaryReplicas, a = peer.getSocketAddress
  confirmed : ∀ a message, .sent a message .confirmation ∈ log → m.isPrimary = false ∧
    message.type = packetConfirmStateChange ∧
    ∃ primary, m.getPrimaryReplica = some primary ∧ a = primary.getSocketAddress

end grounds

variable {Ok : Packet → SocketAddress → Prop} {m m' : ProfileManager} {n : SessionManager}
  {p f : ProfileRef} {u : Str} {a : SocketAddress}

theorem deref_of_handles (h : m.handles <+: m'.handles) (hp : p < m.profiles.length) :
    p < m'.profiles.length ∧ (m'.deref p).handle = (m.deref p).handle := by
  have hp' : p < m.handles.length := by simpa using hp
  have hlength := h.length_le
  simp only [ProfileManager.handles_length] at hlength
  refine ⟨Nat.lt_of_lt_of_le hp hlength, ?_⟩
  obtain ⟨more, hmore⟩ := h
  rw [ProfileManager.deref_handle, ProfileManager.deref_handle, ← hmore, List.getD,
    List.getElem?_append_left hp']
  rfl

theorem Reader.later (h : Reader Ok m f u) (hm : m.handles <+: m'.handles) : Reader Ok m' f u := by
  obtain ⟨hf, he⟩ := deref_of_handles hm h.known
  exact ⟨hf, he ▸ h.other, he ▸ h.follows⟩

theorem Placed.newProfile (h : Placed Ok m n) (u : Str) : Placed Ok (m.newProfile u) n := by
  have hm : m.handles <+: (m.newProfile u).handles := by
    rw [ProfileManager.newProfile_handles]
    exact List.prefix_append _ _
  have hold : ∀ p, p < (m.newProfile u).profiles.length → p ≠ m.profiles.length →
      p < m.profiles.length := by
    intro p hp hne
    rw [ProfileManager.newProfile_length] at hp
    omega
  refine ⟨h.capacity, h.sockets, fun p hp r hr => ?_, fun p hp f hf => ?_⟩
  · rw [ProfileManager.newProfile_deref] at hr ⊢
    split at hr
    · cases hr
    · next hne =>
      rw [if_neg hne]
      exact h.sessions p (hold p hp hne) r hr
  · rw [ProfileManager.newProfile_deref] at hf ⊢
    split at hf
    · cases hf
    · next hne =>
      rw [if_neg hne]
      exact (h.followers p (hold p hp hne) f hf).later hm

theorem Placed.startSession (h : Placed Ok m n) (hasked : Asked Ok (.connect u) a) :
    Placed Ok m (n.startSession u a).1 := by
  refine ⟨fun v => n.apply_capacity v (h.capacity v) (.start u a), fun v b hb => ?_,
    fun p hp r hr => n.startSession_keeps u a (h.sessions p hp r hr), h.followers⟩
  rw [SessionManager.startSession_addresses] at hb
  split at hb
  · next hv =>
    rw [hv.1]
    obtain hb | hb := List.mem_append.mp hb
    · exact h.sockets u b hb
    · rw [List.mem_singleton.mp hb]
      exact hasked
  · exact h.sockets v b hb

theorem Placed.endSession (h : Placed Ok m n) (u : Str) (a : SocketAddress) :
    Placed Ok m (n.endSession u a).1 := by
  refine ⟨fun v => n.apply_capacity v (h.capacity v) (.finish u a), fun v b hb => ?_,
    fun p hp r hr => by rw [SessionManager.endSession_sessions]; exact h.sessions p hp r hr,
    h.followers⟩
  rw [SessionManager.endSession_addresses] at hb
  split at hb
  · next hv =>
    rw [hv]
    exact h.sockets u b (List.mem_of_mem_erase hb)
  · exact h.sockets v b hb

theorem Placed.setSession (h : Placed Ok m n) (hp : p < m.profiles.length) {r : SessionRef}
    (hr : n.sessions[(m.deref p).handle]? = some r) : Placed Ok (m.setSession p (.ref r)) n := by
  have hm : m.handles <+: (m.setSession p (.ref r)).handles := by
    rw [ProfileManager.setSession_handles]
  have hhandle : ∀ q, ((m.setSession p (.ref r)).deref q).handle = (m.deref q).handle := by
    intro q
    rw [ProfileManager.deref_handle, ProfileManager.setSession_handles, ← ProfileManager.deref_handle]
  have hfollowers : ∀ q, ((m.setSession p (.ref r)).deref q).followers = (m.deref q).followers := by
    intro q
    rw [ProfileManager.setSession_deref m p hp]
    split
    · next hq => rw [hq]
    · rfl
  refine ⟨h.capacity, h.sockets, fun q hq r' hr' => ?_, fun q hq f hf => ?_⟩
  · rw [hhandle]
    rw [ProfileManager.setSession_deref m p hp] at hr'
    split at hr'
    · next he =>
      cases hr'
      rw [he, hr]
    · rw [ProfileManager.setSession_length] at hq
      exact h.sessions q hq r' hr'
  · rw [hfollowers] at hf
    rw [hhandle]
    rw [ProfileManager.setSession_length] at hq
    exact (h.followers q hq f hf).later hm

theorem Placed.appendFollower (h : Placed Ok m n) (hp : p < m.profiles.length)
    (hreader : Reader Ok m f (m.deref p).handle) : Placed Ok (m.appendFollower p f) n := by
  have hm : m.handles <+: (m.appendFollower p f).handles := by
    rw [ProfileManager.appendFollower_handles]
  refine ⟨h.capacity, h.sockets, fun q hq r hr => ?_, fun q hq g hg => ?_⟩
  · rw [ProfileManager.appendFollower_length] at hq
    rw [ProfileManager.appendFollower_session m p hp] at hr
    rw [ProfileManager.appendFollower_handle]
    exact h.sessions q hq r hr
  · rw [ProfileManager.appendFollower_length] at hq
    rw [ProfileManager.appendFollower_handle]
    rw [ProfileManager.appendFollower_deref m p hp] at hg
    split at hg
    · next hq' =>
      obtain hg | hg := List.mem_append.mp hg
      · rw [hq']
        exact (h.followers p hp g hg).later hm
      · rw [hq', List.mem_singleton.mp hg]
        exact hreader.later hm
    · exact (h.followers q hq g hg).later hm

theorem Due.later {x : PendingNotification} (h : Due Ok m x) (hm : m.handles <+: m'.handles) :
    Due Ok m' x := ⟨h.reader.later hm, h.sent⟩

theorem Noted.later {log events : List Event} {queue : List PendingNotification}
    (h : Noted Ok m log queue) (hm : m.handles <+: m'.handles) (hevents : ∀ e ∈ events, e.Silent) :
    Noted Ok m' (log ++ events) queue := by
  have hissued : issued (log ++ events) = issued log := by
    rw [issued_append, issued_silent hevents, List.append_nil]
  have hdelivered : delivered (log ++ events) = delivered log := by
    rw [delivered_append, delivered_silent hevents, List.append_nil]
  refine ⟨by rw [hissued, hdelivered]; exact h.conserved, fun x hx => ?_, fun a message hs => ?_⟩
  · rw [hissued] at hx
    exact (h.due x hx).later hm
  · obtain hs | hs := List.mem_append.mp hs
    · obtain ⟨x, hx, htype, htext, hasked⟩ := h.notified a message hs
      have hknown := (h.due x (h.conserved.symm.subset (List.mem_append_left _ hx))).reader.known
      rw [hdelivered]
      exact ⟨x, hx, htype, htext, (deref_of_handles hm hknown).2 ▸ hasked⟩
    · cases (hevents _ hs).notified

theorem Noted.enqueue {log : List Event} {queue : List PendingNotification} {x : PendingNotification}
    (h : Noted Ok m log queue) (hx : Due Ok m x) :
    Noted Ok m (log ++ [.enqueued x]) (queue ++ [x]) := by
  have hissued : issued (log ++ [.enqueued x]) = issued log ++ [x] := by
    rw [issued_append]
    rfl
  have hdelivered : delivered (log ++ [.enqueued x]) = delivered log := by
    rw [delivered_append]
    exact List.append_nil _
  refine ⟨?_, fun y hy => ?_, fun a message hs => ?_⟩
  · rw [hissued, hdelivered, ← List.append_assoc]
    exact h.conserved.append_right [x]
  · rw [hissued] at hy
    obtain hy | hy := List.mem_append.mp hy
    · exact h.due y hy
    · rw [List.mem_singleton.mp hy]
      exact hx
  · obtain hs | hs := List.mem_append.mp hs
    · rw [hdelivered]
      exact h.notified a message hs
    · cases List.mem_singleton.mp hs

/-- The queue may be turned, with nothing said of the notifications. -/
theorem Noted.turn {log events : List Event} {queue queue' : List PendingNotification}
    (h : Noted Ok m log queue) (hqueue : queue.Perm queue') (hevents : ∀ e ∈ events, e.Silent) :
    Noted Ok m (log ++ events) queue' := by
  have hlater := h.later List.prefix_rfl hevents
  exact ⟨hlater.conserved.trans (hqueue.append_left _), hlater.due, hlater.notified⟩

/-- The front of the queue is handed out, and packets are sent to connected readers. -/
theorem Noted.deliver {log events : List Event} {rest : List PendingNotification}
    {x : PendingNotification} {sockets : List SocketAddress} (h : Noted Ok m log (x :: rest))
    (hissued : issued events = []) (hdelivered : delivered events = [])
    (hevents : ∀ a message, .sent a message .notification ∈ events →
      message.type = packetNotification ∧
      message.text = cString (notificationText x.body x.senderUsername) ∧
      Asked Ok (.connect (m.deref x.recipient).handle) a) :
    Noted Ok m (log ++ .delivered x sockets :: events) rest := by
  have hissued' : issued (log ++ .delivered x sockets :: events) = issued log := by
    rw [issued_append]
    change issued log ++ issued events = _
    rw [hissued, List.append_nil]
  have hdelivered' : delivered (log ++ .delivered x sockets :: events) = delivered log ++ [x] := by
    rw [delivered_append]
    change delivered log ++ (x :: delivered events) = _
    rw [hdelivered]
  refine ⟨?_, by rw [hissued']; exact h.due, fun a message hs => ?_⟩
  · rw [hissued', hdelivered', List.append_assoc]
    exact h.conserved
  · rw [hdelivered']
    obtain hs | hs := List.mem_append.mp hs
    · obtain ⟨y, hy, hrest⟩ := h.notified a message hs
      exact ⟨y, List.mem_append_left _ hy, hrest⟩
    · obtain hs | hs := List.mem_cons.mp hs
      · cases hs
      · exact ⟨x, List.mem_append_right _ List.mem_cons_self, hevents a message hs⟩

/-- Nothing is sent, and what was sent stays as it was. -/
theorem Replicated.later {m : ReplicaManager} {log events : List Event} (h : Replicated Ok m log)
    (hevents : ∀ a message origin, .sent a message origin ∈ events → origin = .notification) :
    Replicated Ok m (log ++ events) := by
  refine ⟨h.hosts, fun a message k hs => ?_, fun a message k i hs => ?_, fun a message hs => ?_⟩
  all_goals obtain hs | hs := List.mem_append.mp hs
  · exact h.accepted a message k hs
  · cases hevents _ _ _ hs
  · exact h.forwarded a message k i hs
  · cases hevents _ _ _ hs
  · exact h.confirmed a message hs
  · cases hevents _ _ _ hs

theorem Replicated.forward {m : ReplicaManager} {log : List Event} {message : Packet} {k i : Nat}
    {peer : Peer} (h : Replicated Ok m log) (hprimary : m.isPrimary = true)
    (htype : message.type = packetConnectCmd) (hpeer : peer ∈ m.getSecondaryReplicas) :
    Replicated Ok m (log ++ [.sent peer.getSocketAddress message (.forward k i)]) := by
  refine ⟨h.hosts, fun a message' k' hs => ?_, fun a message' k' i' hs => ?_, fun a message' hs => ?_⟩
  all_goals obtain hs | hs := List.mem_append.mp hs
  · exact h.accepted a message' k' hs
  · cases List.mem_singleton.mp hs
  · exact h.forwarded a message' k' i' hs
  · cases List.mem_singleton.mp hs
    exact ⟨hprimary, htype, peer, hpeer, rfl⟩
  · exact h.confirmed a message' hs
  · cases List.mem_singleton.mp hs

theorem Replicated.confirmation {m : ReplicaManager} {log : List Event} {primary : Peer}
    (h : Replicated Ok m log) (hprimary : m.isPrimary = false)
    (hpeer : m.getPrimaryReplica = some primary) (now seqn : UInt64) : Replicated Ok m
      (log ++ [.sent primary.getSocketAddress (makeConfirmStateChangeMessage now seqn) .confirmation]) := by
  refine ⟨h.hosts, fun a message k hs => ?_, fun a message k i hs => ?_, fun a message hs => ?_⟩
  all_goals obtain hs | hs := List.mem_append.mp hs
  · exact h.accepted a message k hs
  · cases List.mem_singleton.mp hs
  · exact h.forwarded a message k i hs
  · cases List.mem_singleton.mp hs
  · exact h.confirmed a message hs
  · cases List.mem_singleton.mp hs
    exact ⟨hprimary, rfl, primary, hpeer, rfl⟩

theorem Replicated.push {m : ReplicaManager} {log : List Event} {items : Vector BaseMessage 3}
    {seqn : UInt64} (h : Replicated Ok m log) (hprimary : m.isPrimary = true)
    (hasked : Asked Ok (.connect u) a) (e : Event) (he : ∀ b message origin, e ≠ .sent b message origin) :
    Replicated Ok { m with confirmationBuffer := m.confirmationBuffer.push items seqn a }
      (log ++ [e]) := by
  have hlog : Replicated Ok m (log ++ [e]) := h.later fun b message origin hs =>
    absurd (List.mem_singleton.mp hs).symm (he b message origin)
  refine ⟨fun c hc => ?_, hlog.accepted, hlog.forwarded, hlog.confirmed⟩
  obtain hc | hc := List.mem_append.mp hc
  · exact h.hosts c hc
  · rw [List.mem_singleton.mp hc]
    exact ⟨hprimary, u, hasked⟩

theorem Replicated.confirm {m : ReplicaManager} {log : List Event} (h : Replicated Ok m log)
    (now seqn : UInt64) :
    Replicated Ok { m with confirmationBuffer := (m.confirmationBuffer.confirm seqn).1 }
      (log ++ Server.confirmEvents now m.confirmationBuffer seqn) := by
  have hhosts : ∀ c ∈ (m.confirmationBuffer.confirm seqn).1,
      m.isPrimary = true ∧ ∃ u, Asked Ok (.connect u) c.originalHost := by
    intro c hc
    rw [ConfirmationBuffer.confirm_containers] at hc
    obtain ⟨c', hc', rfl⟩ := List.mem_map.mp hc
    rw [ConfirmableContainer.confirm_originalHost]
    exact h.hosts c' hc'
  refine ⟨hhosts, fun a message k hs => ?_, fun a message k i hs => ?_, fun a message hs => ?_⟩
  all_goals obtain hs | hs := List.mem_append.mp hs
  · exact h.accepted a message k hs
  · obtain he | ⟨k', c, hc, -, -, he⟩ := Server.mem_confirmEvents hs <;> cases he
    obtain ⟨hprimary, hasked⟩ := hhosts c (List.mem_of_getElem? hc)
    exact ⟨hprimary, rfl, hasked⟩
  · exact h.forwarded a message k i hs
  · obtain he | ⟨k', c, hc, -, -, he⟩ := Server.mem_confirmEvents hs <;> cases he
  · exact h.confirmed a message hs
  · obtain he | ⟨k', c, hc, -, -, he⟩ := Server.mem_confirmEvents hs <;> cases he

namespace Server

/-- Everything on the server has a reason. -/
structure Grounded (Ok : Packet → SocketAddress → Prop) (s : Server) : Prop where
  placed : Placed Ok s.profileManager s.sessionManager
  noted : Noted Ok s.profileManager s.log s.notificationQueue
  replicated : Replicated Ok s.replicaManager s.log

/-- Profiles keep their places and their names, sessions keep their places, the peers
stay what they are, and the log grows. -/
structure Later (s s' : Server) : Prop where
  handles : s.profileManager.handles <+: s'.profileManager.handles
  sessions : ∀ (k : Str) (r : SessionRef), s.sessionManager.sessions[k]? = some r →
    s'.sessionManager.sessions[k]? = some r
  thisPeer : s'.replicaManager.thisPeer = s.replicaManager.thisPeer
  peers : s'.replicaManager.peers = s.replicaManager.peers
  log : s.log <+: s'.log

/-- What everything that happens on the server keeps to. -/
structure Respects (Ok : Packet → SocketAddress → Prop) (s s' : Server) : Prop where
  later : Later s s'
  grounded : s.Grounded Ok → s'.Grounded Ok

theorem Later.refl (s : Server) : Later s s :=
  ⟨List.prefix_rfl, fun _ _ h => h, rfl, rfl, List.prefix_rfl⟩

theorem Later.trans {s t v : Server} (h : Later s t) (h' : Later t v) : Later s v :=
  ⟨h.handles.trans h'.handles, fun k r hr => h'.sessions k r (h.sessions k r hr),
    h'.thisPeer.trans h.thisPeer, h'.peers.trans h.peers, h.log.trans h'.log⟩

theorem Later.isPrimary {s s' : Server} (h : Later s s') :
    s'.replicaManager.isPrimary = s.replicaManager.isPrimary := by
  rw [ReplicaManager.isPrimary, h.thisPeer]
  rfl

theorem Later.secondaries {s s' : Server} (h : Later s s') :
    s'.replicaManager.getSecondaryReplicas = s.replicaManager.getSecondaryReplicas := by
  rw [ReplicaManager.getSecondaryReplicas, h.peers]
  rfl

theorem Respects.refl (s : Server) : Respects Ok s s := ⟨Later.refl s, id⟩

theorem Respects.trans (s t v : Server) (h : Respects Ok s t) (h' : Respects Ok t v) :
    Respects Ok s v := ⟨h.later.trans h'.later, fun hg => h'.grounded (h.grounded hg)⟩

/-- The profile has this handle. -/
structure Known (s : Server) (p : ProfileRef) (u : Str) : Prop where
  known : p < s.profileManager.profiles.length
  handle : (s.profileManager.deref p).handle = u

theorem Known.respects {s s' : Server} (h : s.Known p u) (hr : Respects Ok s s') : s'.Known p u := by
  obtain ⟨hp, he⟩ := deref_of_handles hr.later.handles h.known
  exact ⟨hp, he.trans h.handle⟩

theorem known_of_lookup {s : Server} (h : s.profileManager.getProfileByName u = some p) :
    s.Known p u := by
  obtain ⟨hp, he⟩ := ProfileManager.getProfileByName_some _ h
  exact ⟨hp, he⟩

section actions

variable {s : Server}

/-- An action beside the store has only the replicas to care for. -/
theorem respects_aside {s' : Server} (h : Aside s s')
    (hthis : s'.replicaManager.thisPeer = s.replicaManager.thisPeer)
    (hpeers : s'.replicaManager.peers = s.replicaManager.peers)
    (hreplicated : Replicated Ok s.replicaManager s.log → Replicated Ok s'.replicaManager s'.log) :
    Respects Ok s s' := by
  obtain ⟨events, hlog, hevents⟩ := h.log
  have hprofiles : s'.profileManager = s.profileManager := congrArg Store.profiles h.store
  have hsessions : s'.sessionManager = s.sessionManager := congrArg Store.sessions h.store
  refine ⟨⟨by rw [hprofiles], fun k r hr => by rw [hsessions]; exact hr, hthis, hpeers,
    ⟨events, hlog.symm⟩⟩, fun hg => ⟨?_, ?_, hreplicated hg.replicated⟩⟩
  · rw [hprofiles, hsessions]
    exact hg.placed
  · rw [hprofiles, hlog, h.queue]
    exact hg.noted.later List.prefix_rfl hevents

theorem respects_record (s : Server) {e : Event} (hsilent : e.Silent)
    (he : ∀ b message origin, e ≠ .sent b message origin) : Respects Ok s (s.record e) :=
  respects_aside (aside_record s hsilent) rfl rfl fun h => h.later fun b message origin hs =>
    absurd (List.mem_singleton.mp hs).symm (he b message origin)

theorem respects_getConnectedUsers (s : Server) (p : ProfileRef) :
    Respects Ok s (s.getConnectedUsers p) := by
  unfold getConnectedUsers
  split
  · exact .refl s
  · exact respects_record s ⟨rfl, rfl, rfl⟩ fun _ _ _ h => by cases h

theorem later_incrementSeqn (s : Server) : Later s s.incrementSeqn :=
  ⟨List.prefix_rfl, fun _ _ h => h, rfl, rfl, List.prefix_rfl⟩

theorem respects_incrementSeqn (s : Server) : Respects Ok s s.incrementSeqn :=
  ⟨later_incrementSeqn s, fun hg => ⟨hg.placed, hg.noted, hg.replicated⟩⟩

theorem respects_sync (s : Server) : Respects Ok s s.sync := by
  have hsame : s.sync.profileManager = s.profileManager ∧ s.sync.sessionManager = s.sessionManager ∧
      s.sync.notificationQueue = s.notificationQueue := by
    unfold sync
    split <;> exact ⟨rfl, rfl, rfl⟩
  obtain ⟨hprofiles, hsessions, hqueue⟩ := hsame
  obtain ⟨hreplicas, hlog, -⟩ := sync_same s
  refine ⟨⟨by rw [hprofiles], fun k r hr => by rw [hsessions]; exact hr, by rw [hreplicas],
    by rw [hreplicas], by rw [hlog]⟩, fun hg => ⟨?_, ?_, ?_⟩⟩
  · rw [hprofiles, hsessions]
    exact hg.placed
  · rw [hprofiles, hlog, hqueue]
    exact hg.noted
  · rw [hreplicas, hlog]
    exact hg.replicated

/-- Another list of profiles, with the old ones in their places under their names. -/
theorem respects_profiles {m : ProfileManager} (hm : s.profileManager.handles <+: m.handles)
    (hplaced : Placed Ok s.profileManager s.sessionManager → Placed Ok m s.sessionManager) :
    Respects Ok s { s with profileManager := m } := by
  refine ⟨⟨hm, fun _ _ h => h, rfl, rfl, List.prefix_rfl⟩, fun hg =>
    ⟨hplaced hg.placed, ?_, hg.replicated⟩⟩
  have hnoted : Noted Ok m (s.log ++ []) s.notificationQueue :=
    hg.noted.later hm fun _ h => by cases h
  rwa [List.append_nil] at hnoted

/-- Other sessions, and an event that tells of the call. -/
theorem respects_sessions {n : SessionManager} {e : Event} (hsilent : e.Silent)
    (he : ∀ b message origin, e ≠ .sent b message origin)
    (hn : ∀ (k : Str) (r : SessionRef), s.sessionManager.sessions[k]? = some r → n.sessions[k]? = some r)
    (hplaced : Placed Ok s.profileManager s.sessionManager → Placed Ok s.profileManager n) :
    Respects Ok s ({ s with sessionManager := n }.record e) := by
  refine ⟨⟨List.prefix_rfl, hn, rfl, rfl, List.prefix_append _ _⟩, fun hg =>
    ⟨hplaced hg.placed, ?_, ?_⟩⟩
  · exact hg.noted.later List.prefix_rfl fun e' he' => List.mem_singleton.mp he' ▸ hsilent
  · exact hg.replicated.later fun b message origin hs =>
      absurd (List.mem_singleton.mp hs).symm (he b message origin)

theorem respects_pushProfile (s : Server) (u : Str) :
    Respects Ok s (s.pushProfile u).1 ∧ (s.pushProfile u).1.Known (s.pushProfile u).2 u := by
  have hm : s.profileManager.handles <+: (s.profileManager.newProfile u).handles := by
    rw [ProfileManager.newProfile_handles]
    exact List.prefix_append _ _
  refine ⟨respects_profiles hm fun h => h.newProfile u, ?_, ?_⟩
  · change s.profileManager.profiles.length < (s.profileManager.newProfile u).profiles.length
    rw [ProfileManager.newProfile_length]
    exact Nat.lt_succ_self _
  · change ((s.profileManager.newProfile u).deref s.profileManager.profiles.length).handle = u
    rw [ProfileManager.newProfile_deref, if_pos rfl]

theorem respects_setSession (hp : s.Known p u) {r : SessionRef}
    (hr : s.sessionManager.sessions[u]? = some r) : Respects Ok s (s.setSession p r) := by
  have hm : s.profileManager.handles <+: (s.profileManager.setSession p (.ref r)).handles := by
    rw [ProfileManager.setSession_handles]
  rw [← hp.handle] at hr
  exact respects_profiles hm fun h => h.setSession hp.known hr

theorem respects_pushFollower (hp : s.Known p u) (hreader : Reader Ok s.profileManager f u) :
    Respects Ok s (s.pushFollower p f) := by
  have hm : s.profileManager.handles <+: (s.profileManager.appendFollower p f).handles := by
    rw [ProfileManager.appendFollower_handles]
  rw [← hp.handle] at hreader
  exact respects_profiles hm fun h => h.appendFollower hp.known hreader

theorem respects_startSession (hp : s.Known p u) (hasked : Asked Ok (.connect u) a) :
    Respects Ok s (s.startSession p a).1 := by
  rw [← hp.handle] at hasked
  exact respects_sessions ⟨rfl, rfl, rfl⟩ (fun _ _ _ h => by cases h)
    (fun k r hr => SessionManager.startSession_keeps _ _ a hr) fun h => h.startSession hasked

theorem startSession_granted (hp : s.Known p u) {r : SessionRef}
    (hr : (s.startSession p a).2 = some r) :
    (s.startSession p a).1.sessionManager.sessions[u]? = some r := by
  have href : (s.sessionManager.startSession (s.profileManager.deref p).handle a).2 = some r := hr
  have hkey := SessionManager.startSession_ref _ _ _ href
  rw [hp.handle] at hkey
  rw [← hkey, ← hp.handle]
  rfl

theorem respects_endSession (s : Server) (p : ProfileRef) (a : SocketAddress) :
    Respects Ok s (s.endSession p a) := by
  have hsessions := SessionManager.endSession_sessions s.sessionManager
    (s.profileManager.deref p).handle a
  exact respects_sessions ⟨rfl, rfl, rfl⟩ (fun _ _ _ h => by cases h)
    (fun k r hr => hsessions.symm ▸ hr) fun h => h.endSession _ a

theorem respects_enqueue {x : PendingNotification} (hx : Due Ok s.profileManager x) :
    Respects Ok s (s.enqueue x) :=
  ⟨⟨List.prefix_rfl, fun _ _ h => h, rfl, rfl, List.prefix_append _ _⟩, fun hg => ⟨hg.placed,
    hg.noted.enqueue hx, hg.replicated.later fun _ _ _ hs => (by cases List.mem_singleton.mp hs)⟩⟩

theorem respects_pushContainer (hprimary : s.replicaManager.isPrimary = true)
    (hasked : Asked Ok (.connect u) a) (message : Packet) (lastSeqn lastSeqnTemp : UInt64) :
    Respects Ok s (s.pushContainer message a lastSeqn lastSeqnTemp).1 := by
  refine ⟨⟨List.prefix_rfl, fun _ _ h => h, rfl, rfl, List.prefix_append _ _⟩, fun hg => ⟨hg.placed,
    ?_, hg.replicated.push hprimary hasked _ fun _ _ _ h => (by cases h)⟩⟩
  exact hg.noted.later List.prefix_rfl fun e he => List.mem_singleton.mp he ▸ ⟨rfl, rfl, rfl⟩

theorem respects_forward {message : Packet} {peer : Peer} {k i : Nat}
    (hprimary : s.replicaManager.isPrimary = true) (htype : message.type = packetConnectCmd)
    (hpeer : peer ∈ s.replicaManager.getSecondaryReplicas) :
    Respects Ok s (s.send peer.getSocketAddress message (.forward k i)) :=
  respects_aside (aside_record s ⟨rfl, rfl, rfl⟩) rfl rfl fun h => h.forward hprimary htype hpeer

theorem respects_confirmBuffer (now : UInt64) (s : Server) (seqn : UInt64) :
    Respects Ok s (s.confirmBuffer now seqn) := by
  refine respects_aside (aside_confirmBuffer now s seqn) ?_ ?_ fun h => ?_ <;> rw [confirmBuffer_eq]
  exact h.confirm now seqn

theorem respects_confirmToPrimary (hprimary : s.replicaManager.isPrimary = false)
    (now seqn : UInt64) : Respects Ok s (s.confirmToPrimary now seqn) := by
  unfold confirmToPrimary
  split
  · next primary hp =>
    exact respects_aside (aside_record s ⟨rfl, rfl, rfl⟩) rfl rfl fun h =>
      h.confirmation hprimary hp now seqn
  · exact respects_record s ⟨rfl, rfl, rfl⟩ fun _ _ _ h => by cases h

/-- What the worker sends is what was due, to sockets of the one it was due to. -/
theorem replyEvents_due {now : UInt64} {x : PendingNotification} {seqn : Nat}
    {sockets : List SocketAddress} {message : Packet}
    (h : .sent a message .notification ∈ replyEvents now x seqn sockets) :
    a ∈ sockets ∧ message.type = packetNotification ∧
      message.text = cString (notificationText x.body x.senderUsername) := by
  refine ⟨mem_replyEvents h, ?_⟩
  induction sockets generalizing seqn with
  | nil => cases h
  | cons socket sockets ih =>
    obtain h | h := List.mem_cons.mp h
    · unfold replyEvent at h
      split at h
      · next made hmade =>
        cases h
        obtain ⟨payload, hpayload, rfl⟩ := Option.map_eq_some_iff.mp hmade
        exact ⟨rfl, cString_strcpy hpayload⟩
      · cases h
    · exact ih h

theorem replyEvents_plain (now : UInt64) (x : PendingNotification) (seqn : Nat)
    (sockets : List SocketAddress) :
    issued (replyEvents now x seqn sockets) = [] ∧ delivered (replyEvents now x seqn sockets) = [] := by
  refine ⟨issued_byWorker (replyEvents_byWorker now x sockets seqn), ?_⟩
  induction sockets generalizing seqn with
  | nil => rfl
  | cons socket sockets ih =>
    have hreply : (replyEvent now x (seqn + 1) socket).delivered? = none := by
      unfold replyEvent
      split <;> rfl
    rw [replyEvents, delivered, List.filterMap_cons_none hreply]
    exact ih (seqn + 1)

/-- An iteration of the worker on the queue and the log. -/
theorem worker_noted (hg : s.Grounded Ok) (now : UInt64) : Noted Ok s.profileManager
    (s.pendingNotificationWorker now).log (s.pendingNotificationWorker now).notificationQueue := by
  obtain ⟨-, he⟩ | ⟨x, rest, hq, -, he⟩ | ⟨x, rest, hq, -, he⟩ | ⟨x, rest, sockets, hq, hs, -, he⟩ :=
    s.worker_cases now <;> rw [he]
  · exact hg.noted
  · have hperm : s.notificationQueue.Perm (rest ++ [x]) := by
      rw [hq]
      exact (List.perm_append_singleton x rest).symm
    have hsilent : ∀ e ∈ [Event.fault .unsetSession, .requeued x], e.Silent := fun e he => by
      obtain rfl | he := List.mem_cons.mp he
      · exact ⟨rfl, rfl, rfl⟩
      · rw [List.mem_singleton.mp he]
        exact ⟨rfl, rfl, rfl⟩
    have hturned := hg.noted.turn hperm hsilent
    simpa [requeue, record] using hturned
  · have hperm : s.notificationQueue.Perm (rest ++ [x]) := by
      rw [hq]
      exact (List.perm_append_singleton x rest).symm
    exact hg.noted.turn hperm fun e he => List.mem_singleton.mp he ▸ ⟨rfl, rfl, rfl⟩
  · have hnoted := hg.noted
    rw [hq] at hnoted
    obtain ⟨hissued, hdelivered⟩ := replyEvents_plain now x s.lastSeqn sockets
    refine hnoted.deliver hissued hdelivered fun b message hsent => ?_
    obtain ⟨hb, htype, htext⟩ := replyEvents_due hsent
    have hx : x ∈ issued s.log :=
      hnoted.conserved.symm.subset (List.mem_append_right _ List.mem_cons_self)
    have hknown := (hnoted.due x hx).reader.known
    refine ⟨htype, htext, ?_⟩
    unfold recipientSockets at hs
    cases hsession : (s.profileManager.deref x.recipient).session with
    | unset =>
      rw [hsession] at hs
      cases hs
    | null =>
      rw [hsession] at hs
      cases hs
      cases hb
    | ref r =>
      rw [hsession] at hs
      cases hs
      have hkey := hg.placed.sessions x.recipient hknown r hsession
      rw [← SessionManager.getUserAddresses_of_ref _ hkey] at hb
      exact hg.placed.sockets _ b hb

theorem respects_worker (now : UInt64) (s : Server) :
    Respects Ok s (s.pendingNotificationWorker now) := by
  obtain ⟨hstore, hreplicas, -, events, hlog, hevents⟩ := worker_rely now s
  have hprofiles : (s.pendingNotificationWorker now).profileManager = s.profileManager :=
    congrArg Store.profiles hstore
  have hsessions : (s.pendingNotificationWorker now).sessionManager = s.sessionManager :=
    congrArg Store.sessions hstore
  refine ⟨⟨by rw [hprofiles], fun k r hr => by rw [hsessions]; exact hr, by rw [hreplicas],
    by rw [hreplicas], ⟨events, hlog.symm⟩⟩, fun hg => ⟨?_, ?_, ?_⟩⟩
  · rw [hprofiles, hsessions]
    exact hg.placed
  · rw [hprofiles]
    exact worker_noted hg now
  · rw [hreplicas, hlog]
    refine hg.replicated.later fun a message origin hs => ?_
    have hworker := hevents _ hs
    cases origin with
    | notification => rfl
    | _ => cases hworker

end actions

section handlers

variable {s : Server} {now : UInt64} {message : Packet} {address : SocketAddress}

theorem findProfile_respects (u : Str) (s : Server) : (findProfile u).Safe (Respects Ok)
    (Respects Ok) (fun p s' => s'.Known p u) s := by
  unfold findProfile
  refine safe_read_bind fun s₁ _ => ⟨.refl s₁, ?_⟩
  cases hf : s₁.profileManager.getProfileByName u with
  | some p => exact fun s₂ hr => (known_of_lookup hf).respects hr
  | none =>
    unfold newProfile
    refine safe_atomic_bind fun s₂ _ => ?_
    obtain ⟨hpush, hknown⟩ : Respects Ok s₂ (s₂.pushProfile u).1 ∧
        (s₂.pushProfile u).1.Known (s₂.pushProfile u).2 u := respects_pushProfile s₂ u
    refine ⟨hpush, safe_update_bind fun s₃ hr₃ => ?_⟩
    have hsync : Respects Ok s₃ s₃.sync := respects_sync s₃
    exact ⟨hsync, fun s₄ hr₄ => ((hknown.respects hr₃).respects hsync).respects hr₄⟩

theorem admitUser_respects (hp : s.Known p u) (hasked : Asked Ok (.connect u) address) :
    (admitUser p address).Safe (Respects Ok) (Respects Ok) (fun _ _ => True) s := by
  unfold admitUser
  refine safe_atomic_bind fun s₁ hr₁ => ?_
  have hp₁ := hp.respects hr₁
  have hstart := respects_startSession hp₁ hasked
  refine ⟨hstart, ?_⟩
  cases hs : (s₁.startSession p address).2 with
  | none => exact fun _ _ => trivial
  | some r =>
    have hgranted := startSession_granted hp₁ hs
    refine safe_update_bind fun s₂ hr₂ => ⟨?_, safe_update fun s₃ _ =>
      ⟨respects_getConnectedUsers s₃ p, fun _ _ => trivial⟩⟩
    exact respects_setSession ((hp₁.respects hstart).respects hr₂)
      (hr₂.later.sessions _ _ hgranted)

/-- The copies that are still to be sent. -/
theorem sendToPeers_respects {lastSeqnTemp : UInt64} {k : Nat} (i : Nat) (peers : List Peer)
    (hprimary : s.replicaManager.isPrimary = true) (htype : message.type = packetConnectCmd)
    (hpeers : ∀ peer ∈ peers, peer ∈ s.replicaManager.getSecondaryReplicas) :
    (sendToPeers message lastSeqnTemp k i peers).Safe (Respects Ok) (Respects Ok)
      (fun _ _ => True) s := by
  induction peers generalizing i s with
  | nil => exact fun _ _ => trivial
  | cons peer peers ih =>
    unfold sendToPeers
    refine safe_update_bind fun s₁ hr₁ => ?_
    have hprimary₁ := hr₁.later.isPrimary.trans hprimary
    have hpeers₁ : ∀ q ∈ peer :: peers, q ∈ s₁.replicaManager.getSecondaryReplicas := by
      rw [hr₁.later.secondaries]
      exact hpeers
    exact ⟨respects_forward hprimary₁ htype (hpeers₁ peer List.mem_cons_self),
      ih (i + 1) hprimary₁ fun q hq => hpeers₁ q (List.mem_cons_of_mem _ hq)⟩

theorem broadcastToSecondaries_respects (hprimary : s.replicaManager.isPrimary = true)
    (htype : message.type = packetConnectCmd) (hasked : Asked Ok (.connect u) address) :
    (broadcastToSecondaries message address).Safe (Respects Ok) (Respects Ok) (fun _ _ => True) s := by
  unfold broadcastToSecondaries
  refine safe_read_bind fun s₁ hr₁ => ⟨.refl s₁, safe_read_bind fun s₂ hr₂ => ⟨.refl s₂,
    safe_read_bind fun s₃ hr₃ => ⟨.refl s₃, safe_update_bind fun s₄ hr₄ => ?_⟩⟩⟩
  refine ⟨respects_incrementSeqn s₄, safe_update_bind fun s₅ hr₅ => ⟨respects_incrementSeqn s₅,
    safe_update_bind fun s₆ hr₆ => ⟨respects_incrementSeqn s₆, safe_atomic_bind fun s₇ hr₇ => ?_⟩⟩⟩
  have hread : Later s₁ s₄ := (hr₂.later.trans hr₃.later).trans hr₄.later
  have hcounted : Later s₄ s₇ := ((later_incrementSeqn s₄).trans hr₅.later).trans
    (((later_incrementSeqn s₅).trans hr₆.later).trans ((later_incrementSeqn s₆).trans hr₇.later))
  have hlater := hread.trans hcounted
  have hprimary₇ := (hr₁.later.trans hlater).isPrimary.trans hprimary
  refine ⟨respects_pushContainer hprimary₇ hasked _ _ _,
    sendToPeers_respects 0 _ hprimary₇ htype fun peer hp => ?_⟩
  · change peer ∈ s₇.replicaManager.getSecondaryReplicas
    rw [hlater.secondaries]
    exact hp

theorem confirmMessage_respects (now seqn : UInt64) (s : Server) :
    (confirmMessage now seqn).Safe (Respects Ok) (Respects Ok) (fun _ _ => True) s := by
  unfold confirmMessage
  refine safe_read_bind fun s₁ _ => ⟨.refl s₁, ?_⟩
  cases hprimary : s₁.replicaManager.isPrimary with
  | true => exact safe_update fun s₂ _ => ⟨respects_confirmBuffer now s₂ seqn, fun _ _ => trivial⟩
  | false =>
    exact safe_update fun s₂ hr₂ => ⟨respects_confirmToPrimary (hr₂.later.isPrimary.trans hprimary)
      now seqn, fun _ _ => trivial⟩

theorem replicate_respects (htype : message.type = packetConnectCmd)
    (hasked : Asked Ok (.connect u) address) (s : Server) :
    (replicate now message address).Safe (Respects Ok) (Respects Ok) (fun _ _ => True) s := by
  unfold replicate
  refine safe_read_bind fun s₁ _ => ⟨.refl s₁, ?_⟩
  cases hprimary : s₁.replicaManager.isPrimary with
  | true => exact broadcastToSecondaries_respects hprimary htype hasked
  | false => exact confirmMessage_respects now message.seqn s₁

theorem connectCmd_respects (hok : Ok message address) (htype : message.type = packetConnectCmd) :
    (connectCmd now message address).Safe (Respects Ok) (Respects Ok) (fun _ _ => True) s := by
  have hasked : Asked Ok (.connect message.text) address :=
    ⟨message, hok, request_connect.mpr ⟨htype, rfl⟩⟩
  unfold connectCmd
  refine Safe.bind Respects.refl ?_
  refine (findProfile_respects message.text s).mono (fun _ _ h => h) fun p s₁ hp => ?_
  refine Safe.bind Respects.refl ?_
  refine (admitUser_respects hp hasked).mono (fun _ _ h => h) fun _ s₂ _ => ?_
  exact replicate_respects htype hasked s₂

theorem disconnectCmd_respects : (disconnectCmd message address).Safe (Respects Ok) (Respects Ok)
    (fun _ _ => True) s := by
  unfold disconnectCmd
  refine safe_read_bind fun s₁ _ => ⟨.refl s₁, ?_⟩
  cases s₁.profileManager.getProfileByName message.text with
  | some p => exact safe_update fun s₂ _ => ⟨respects_endSession s₂ p address, fun _ _ => trivial⟩
  | none => exact fun _ _ => trivial

/-- A host that speaks for a user has connected as this user. -/
theorem Grounded.speaker (hg : s.Grounded Ok)
    (h : s.sessionManager.getUserNameByAddressAndIP address = some u) :
    Asked Ok (.connect u) address :=
  hg.placed.sockets u address ((SessionManager.getUserName_eq_some _ _ _).mp h).1

theorem addFollower_respects {username : Str} (hp : s.Known p u) (hne : username ≠ u)
    (hfollows : Follows Ok username u) :
    (addFollower p username).Safe (Respects Ok) (Respects Ok) (fun _ _ => True) s := by
  unfold addFollower
  refine safe_read_bind fun s₁ hr₁ => ⟨.refl s₁, ?_⟩
  cases hf : s₁.profileManager.getProfileByName username with
  | none =>
    exact safe_update fun s₂ _ => ⟨respects_record s₂ ⟨rfl, rfl, rfl⟩ fun _ _ _ h => (by cases h),
      fun _ _ => trivial⟩
  | some f =>
    have hknown := known_of_lookup hf
    refine safe_read_bind fun s₂ hr₂ => ⟨.refl s₂, ?_⟩
    split
    · exact fun _ _ => trivial
    · refine safe_update_bind fun s₃ hr₃ => ⟨?_, ?_⟩
      · have hf₃ := (hknown.respects hr₂).respects hr₃
        exact respects_pushFollower (((hp.respects hr₁).respects hr₂).respects hr₃)
          ⟨hf₃.known, hf₃.handle ▸ hne, hf₃.handle.symm ▸ hfollows⟩
      · exact safe_update fun s₄ _ => ⟨respects_sync s₄, fun _ _ => trivial⟩

theorem followCmd_respects (hg : s.Grounded Ok) (hok : Ok message address)
    (htype : message.type = packetFollowCmd) :
    (followCmd message address).Safe (Respects Ok) (Respects Ok) (fun _ _ => True) s := by
  unfold followCmd
  refine safe_read_bind fun s₁ hr₁ => ⟨.refl s₁, ?_⟩
  cases hname : s₁.sessionManager.getUserNameByAddressAndIP address with
  | none => exact fun _ _ => trivial
  | some username =>
    have hspeaker := (hr₁.grounded hg).speaker hname
    refine safe_read_bind fun s₂ _ => ⟨.refl s₂, ?_⟩
    split
    · exact fun _ _ => trivial
    · next hne =>
      cases hf : s₂.profileManager.getProfileByName message.text with
      | none => exact fun _ _ => trivial
      | some p =>
        refine addFollower_respects (known_of_lookup hf) (Ne.symm hne) ⟨address, hspeaker, ?_⟩
        exact ⟨message, hok, request_follow.mpr ⟨htype, rfl⟩⟩

theorem pushNotifications_respects {username body : Str} (followers : List ProfileRef)
    (hsent : ∃ a, Asked Ok (.connect username) a ∧ Asked Ok (.send body) a)
    (hreaders : ∀ f ∈ followers, Reader Ok s.profileManager f username) :
    (pushNotifications username body followers).Safe (Respects Ok) (Respects Ok)
      (fun _ _ => True) s := by
  induction followers generalizing s with
  | nil => exact fun _ _ => trivial
  | cons f followers ih =>
    unfold pushNotifications
    refine safe_update_bind fun s₁ hr₁ => ?_
    have hdue : Due Ok s₁.profileManager ⟨username, body, f⟩ :=
      ⟨(hreaders f List.mem_cons_self).later hr₁.later.handles, hsent⟩
    refine ⟨respects_enqueue hdue, ih fun g hg => ?_⟩
    exact (hreaders g (List.mem_cons_of_mem _ hg)).later hr₁.later.handles

theorem sendCmd_respects (hg : s.Grounded Ok) (hok : Ok message address)
    (htype : message.type = packetSendCmd) :
    (sendCmd message address).Safe (Respects Ok) (Respects Ok) (fun _ _ => True) s := by
  unfold sendCmd
  refine safe_read_bind fun s₁ hr₁ => ⟨.refl s₁, ?_⟩
  cases hname : s₁.sessionManager.getUserNameByAddressAndIP address with
  | none => exact fun _ _ => trivial
  | some username =>
    have hspeaker := (hr₁.grounded hg).speaker hname
    refine safe_read_bind fun s₂ hr₂ => ⟨.refl s₂, ?_⟩
    cases hf : s₂.profileManager.getProfileByName username with
    | none => exact fun _ _ => trivial
    | some p =>
      refine safe_read_bind fun s₃ hr₃ => ⟨.refl s₃, ?_⟩
      have hknown := (known_of_lookup hf).respects hr₃
      have hg₃ := hr₃.grounded (hr₂.grounded (hr₁.grounded hg))
      refine pushNotifications_respects _
        ⟨address, hspeaker, message, hok, request_send.mpr ⟨htype, rfl⟩⟩ fun f hfollower => ?_
      have hreader := hg₃.placed.followers p hknown.known f hfollower
      rwa [hknown.handle] at hreader

theorem requestUserInfo_respects : (requestUserInfo address).Safe (Respects Ok) (Respects Ok)
    (fun _ _ => True) s := by
  unfold requestUserInfo
  refine safe_read_bind fun s₁ _ => ⟨.refl s₁, ?_⟩
  cases s₁.sessionManager.getUserNameByAddressAndIP address with
  | none => exact fun _ _ => trivial
  | some username =>
    refine safe_read_bind fun s₂ _ => ⟨.refl s₂, ?_⟩
    cases s₂.profileManager.getProfileByName username with
    | none => exact fun _ _ => trivial
    | some p => exact safe_update fun s₃ _ => ⟨respects_getConnectedUsers s₃ p, fun _ _ => trivial⟩

theorem otherCmd_respects (type : UInt16) (s : Server) :
    (otherCmd type).Safe (Respects Ok) (Respects Ok) (fun _ _ => True) s := by
  unfold otherCmd
  cases typeToStr type with
  | some name => exact fun _ _ => trivial
  | none =>
    exact safe_update fun s₁ _ => ⟨respects_record s₁ ⟨rfl, rfl, rfl⟩ fun _ _ _ h => (by cases h),
      fun _ _ => trivial⟩

/-- A handler is safe beside all others. -/
theorem messageHandler_respects (hg : s.Grounded Ok) (hok : Ok message address) :
    (messageHandler now message address).Safe (Respects Ok) (Respects Ok) (fun _ _ => True) s := by
  unfold messageHandler
  refine safe_update_bind fun s₁ hr₁ => ?_
  have hstarted : Respects Ok s₁ (s₁.record (.started message address)) :=
    respects_record s₁ ⟨rfl, rfl, rfl⟩ fun _ _ _ h => by cases h
  have hg₁ := hstarted.grounded (hr₁.grounded hg)
  refine ⟨hstarted, ?_⟩
  split
  · next htype => exact connectCmd_respects hok htype
  split
  · exact disconnectCmd_respects
  split
  · next htype => exact followCmd_respects hg₁ hok htype
  split
  · next htype => exact sendCmd_respects hg₁ hok htype
  split
  · exact requestUserInfo_respects
  split
  · exact confirmMessage_respects now message.seqn _
  · exact otherCmd_respects message.type _

end handlers

namespace Parallel

/-- What can happen next: a packet gets a handler of its own, the handler at position
`i` performs one action, or the worker does one iteration. -/
inductive Move where
  | arrive (now : UInt64) (message : Packet) (address : SocketAddress)
  | advance (i : Nat)
  | worker (now : UInt64)

def move (c : Threads Server) : Move → Threads Server
  | .arrive now message address => c.start (messageHandler now message address)
  | .advance i => c.advance i
  | .worker now => c.interfere (pendingNotificationWorker now)

def run (s : Server) (moves : List Move) : Threads Server := moves.foldl move ⟨s, []⟩

theorem grounded_new (thisPeer : Peer) (peers : List Peer) (disk : Disk) :
    (new thisPeer peers disk ⟨[]⟩).Grounded Ok where
  placed := by
    refine ⟨fun u => ?_, fun u a ha => ?_, fun p hp => ?_, fun p hp => ?_⟩
    · change (SessionManager.empty.getUserAddresses u).length ≤ _
      rw [SessionManager.getUserAddresses_empty]
      exact Nat.zero_le _
    · change a ∈ SessionManager.empty.getUserAddresses u at ha
      rw [SessionManager.getUserAddresses_empty] at ha
      cases ha
    all_goals cases hp
  noted := ⟨List.Perm.refl _, fun _ h => (by cases h), fun _ _ h => (by cases h)⟩
  replicated := ⟨fun _ h => (by cases h), fun _ _ _ h => (by cases h), fun _ _ _ _ h => (by cases h),
    fun _ _ h => (by cases h)⟩

theorem move_guarded {c : Threads Server} (h : c.Guarded (Respects Ok) (Grounded Ok)) (m : Move)
    (hm : ∀ now message address, m = .arrive now message address → Ok message address) :
    (move c m).Guarded (Respects Ok) (Grounded Ok) := by
  cases m with
  | arrive now message address =>
    exact h.start (messageHandler_respects h.holds (hm now message address rfl))
  | advance i => exact h.advance Respects.refl Respects.trans (fun _ _ hr => hr.grounded) i
  | worker now =>
    exact h.interfere Respects.trans (fun _ _ hr => hr.grounded) (respects_worker now c.shared)

theorem move_later {c : Threads Server} (h : c.Guarded (Respects Ok) (Grounded Ok)) (m : Move) :
    Later c.shared (move c m).shared := by
  cases m with
  | arrive now message address => exact .refl _
  | advance i => exact (h.advance_rel Respects.refl i).later
  | worker now =>
    have hworker : Respects Ok c.shared (c.shared.pendingNotificationWorker now) :=
      respects_worker now c.shared
    exact hworker.later

theorem run_concat (s : Server) (moves : List Move) (m : Move) :
    run s (moves ++ [m]) = move (run s moves) m := by
  simp [run]

section runs

variable (thisPeer : Peer) (peers : List Peer) (disk : Disk)

theorem run_guarded {moves : List Move}
    (h : ∀ now message address, .arrive now message address ∈ moves → Ok message address) :
    (run (new thisPeer peers disk ⟨[]⟩) moves).Guarded (Respects Ok) (Grounded Ok) := by
  induction moves using List.reverseRecOn with
  | nil => exact Threads.guarded_init (grounded_new thisPeer peers disk)
  | append_singleton moves m ih =>
    rw [run_concat]
    have hguarded := ih fun now message address hm =>
      h now message address (List.mem_append_left _ hm)
    refine move_guarded hguarded m ?_
    rintro now message address rfl
    exact h now message address (List.mem_append_right _ List.mem_cons_self)

/-- Profiles, sessions and peers keep their places, and the log grows. -/
theorem run_later (moves : List Move) (m : Move) :
    Later (run (new thisPeer peers disk ⟨[]⟩) moves).shared
      (run (new thisPeer peers disk ⟨[]⟩) (moves ++ [m])).shared := by
  have hguarded : (run (new thisPeer peers disk ⟨[]⟩) moves).Guarded
      (Respects fun _ _ => True) (Grounded fun _ _ => True) :=
    run_guarded thisPeer peers disk fun _ _ _ _ => trivial
  rw [run_concat]
  exact move_later hguarded m

theorem run_peers (moves : List Move) :
    (run (new thisPeer peers disk ⟨[]⟩) moves).shared.replicaManager.thisPeer = thisPeer ∧
    (run (new thisPeer peers disk ⟨[]⟩) moves).shared.replicaManager.peers = peers := by
  induction moves using List.reverseRecOn with
  | nil => exact ⟨rfl, rfl⟩
  | append_singleton moves m ih =>
    have hlater := run_later thisPeer peers disk moves m
    exact ⟨hlater.thisPeer.trans ih.1, hlater.peers.trans ih.2⟩

end runs

/-- Two users connect, and the second one follows the first one twice, with both FOLLOWs
handled side by side. -/
def repeatedFollow : List Move :=
  .arrive 0 (clientPacket packetConnectCmd 0 [97]) ⟨[], 1⟩ :: List.replicate 20 (.advance 0) ++
    .arrive 0 (clientPacket packetConnectCmd 0 [98]) ⟨[], 2⟩ :: List.replicate 20 (.advance 1) ++
    [.arrive 0 (clientPacket packetFollowCmd 0 [97]) ⟨[], 2⟩,
      .arrive 0 (clientPacket packetFollowCmd 0 [97]) ⟨[], 2⟩] ++
    (List.replicate 10 [.advance 2, .advance 3]).flatten

/-- Both handlers look before either pushes, and the follower is listed twice. -/
example : ((run (new ⟨[], 0, true⟩ [] ⟨true, none⟩ ⟨[]⟩) repeatedFollow).shared.profileManager.deref
    0).followers = [1, 1] := by decide +kernel

end Parallel

end Server

end Piupiu
