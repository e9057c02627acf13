import Piupiu.Store

/-!
# The steps of a handler

What the worker may do between two actions of a handler, what a single action of
a handler is, with all that is known where it is performed, and the one proof
that `MessageHandler` performs only such actions and ends with the transition of
its packet done. Invariants of runs follow from this by cases on the step.
-/
namespace Piupiu

open Atomic Atomic.Prog

/-- The events that an iteration of the worker can add to the log. -/
def Event.byWorker : Event → Bool
  | .delivered _ _ | .requeued _ => true
  | .sent _ message .notification => message.type = packetNotification
  | .fault .payloadOverflow | .fault .unsetSession => true
  | _ => false

/-- The events that an action of a handler can add to it. -/
def Event.byHandler : Event → Bool
  | .delivered _ _ | .requeued _ | .sent _ _ .notification | .fault .payloadOverflow => false
  | _ => true

def Event.issued? : Event → Option PendingNotification
  | .enqueued n => some n
  | _ => none

/-- The notifications put into the queue, in order. -/
def issued (log : List Event) : List PendingNotification := log.filterMap Event.issued?

/-- A call of `BroadcastToSecondaries` and its two readings of the counter. -/
structure Broadcast where
  message : Packet
  senderAddress : SocketAddress
  lastSeqn : UInt64
  lastSeqnTemp : UInt64
  deriving DecidableEq

def Event.broadcast? : Event → Option Broadcast
  | .broadcast message senderAddress lastSeqn lastSeqnTemp =>
    some ⟨message, senderAddress, lastSeqn, lastSeqnTemp⟩
  | _ => none

def broadcasts (log : List Event) : List Broadcast := log.filterMap Event.broadcast?

/-- The packet whose handler was started last, and the `StartSession` it made. -/
structure Service where
  message : Packet
  address : SocketAddress
  session : Option (Str × SocketAddress × Bool)
  deriving DecidableEq

def Service.next (service : Option Service) : Event → Option Service
  | .started message address => some ⟨message, address, none⟩
  | .session user address granted =>
    service.map fun v => { v with session := some (user, address, granted) }
  | _ => service

def serving (log : List Event) : Option Service := log.foldl Service.next none

@[simp] theorem issued_append (log events : List Event) :
    issued (log ++ events) = issued log ++ issued events := List.filterMap_append
@[simp] theorem broadcasts_append (log events : List Event) :
    broadcasts (log ++ events) = broadcasts log ++ broadcasts events := List.filterMap_append
@[simp] theorem serving_concat (log : List Event) (e : Event) :
    serving (log ++ [e]) = Service.next (serving log) e := by
  simp [serving]

theorem issued_byWorker {events : List Event} (h : ∀ e ∈ events, e.byWorker = true) :
    issued events = [] := by
  refine List.filterMap_eq_nil_iff.mpr fun e he => ?_
  have := h e he
  cases e <;> first | rfl | cases this

theorem broadcasts_byWorker {events : List Event} (h : ∀ e ∈ events, e.byWorker = true) :
    broadcasts events = [] := by
  refine List.filterMap_eq_nil_iff.mpr fun e he => ?_
  have := h e he
  cases e <;> first | rfl | cases this

theorem serving_byWorker (log : List Event) {events : List Event}
    (h : ∀ e ∈ events, e.byWorker = true) : serving (log ++ events) = serving log := by
  induction events using List.reverseRecOn with
  | nil => simp
  | append_singleton events e ih =>
    have he := h e (by simp)
    rw [← List.append_assoc, serving_concat, ih fun e' he' => h e' (by simp [he'])]
    cases e <;> first | rfl | cases he

/-- The packet that is being served was started. -/
theorem started_of_serving {log : List Event} {v : Service} (h : serving log = some v) :
    .started v.message v.address ∈ log := by
  induction log using List.reverseRecOn generalizing v with
  | nil => cases h
  | append_singleton log e ih =>
    rw [serving_concat] at h
    cases e with
    | started message address =>
      cases h
      exact List.mem_append_right _ List.mem_cons_self
    | session user address granted =>
      obtain ⟨w, hw, rfl⟩ := Option.map_eq_some_iff.mp h
      have hstarted : .started w.message w.address ∈ log := ih hw
      exact List.mem_append_left _ hstarted
    | _ => exact List.mem_append_left _ (ih h)

namespace Server

/-- The packets that the callback sends when it is called for the container at `k`. -/
def callbackEvents (now : UInt64) (buffer : ConfirmationBuffer 3) (k : Nat) : List Event :=
  match buffer[k]? with
  | some container =>
    if container.firstPacket.type = packetConnectCmd then
      [.sent container.originalHost (makeAcceptConnCommand now container.originalSeqn) (.accept k)]
    else []
  | none => []

theorem callback_eq (now : UInt64) (s : Server) (k : Nat) : s.callback now k =
    { s with log := s.log ++ callbackEvents now s.replicaManager.confirmationBuffer k } := by
  cases hc : s.replicaManager.confirmationBuffer[k]? with
  | none => simp [callback, callbackEvents, hc]
  | some container =>
    by_cases ht : container.firstPacket.type = packetConnectCmd
    · simp [callback, callbackEvents, hc, ht, send, record]
    · simp [callback, callbackEvents, hc, ht]

theorem callbacks_eq (now : UInt64) (called : List Nat) (s : Server) :
    called.foldl (callback now) s =
      { s with
        log := s.log ++ called.flatMap (callbackEvents now s.replicaManager.confirmationBuffer) } := by
  induction called generalizing s with
  | nil => simp
  | cons k called ih => rw [List.foldl_cons, ih, callback_eq, List.flatMap_cons, List.append_assoc]

/-- The callbacks of one call of `Confirm`, in order. -/
def confirmEvents (now : UInt64) (buffer : ConfirmationBuffer 3) (seqn : UInt64) : List Event :=
  .confirm seqn :: (buffer.confirm seqn).2.2.flatMap (callbackEvents now (buffer.confirm seqn).1)

theorem confirmBuffer_eq (now : UInt64) (s : Server) (seqn : UInt64) : s.confirmBuffer now seqn =
    { s with
      replicaManager := { s.replicaManager with
        confirmationBuffer := (s.replicaManager.confirmationBuffer.confirm seqn).1 }
      log := s.log ++ confirmEvents now s.replicaManager.confirmationBuffer seqn } := by
  unfold confirmBuffer
  simp only [callbacks_eq, record, confirmEvents, List.append_assoc, List.singleton_append]

theorem mem_confirmEvents {now : UInt64} {buffer : ConfirmationBuffer 3} {seqn : UInt64} {e : Event}
    (he : e ∈ confirmEvents now buffer seqn) :
    e = .confirm seqn ∨ ∃ k container, (buffer.confirm seqn).1[k]? = some container ∧
      container.isConfirmed = true ∧ container.firstPacket.type = packetConnectCmd ∧
      e = .sent container.originalHost (makeAcceptConnCommand now container.originalSeqn)
        (.accept k) := by
  rcases List.mem_cons.mp he with he | he
  · exact .inl he
  · obtain ⟨k, hk, he⟩ := List.mem_flatMap.mp he
    obtain ⟨c, hc, hd⟩ := (ConfirmationBuffer.mem_confirm_called _ _ k).mp hk
    simp only [callbackEvents, hc] at he
    split at he
    · next ht => exact .inr ⟨k, c, hc, hd, ht, List.mem_singleton.mp he⟩
    · cases he

@[simp] theorem confirmBuffer_store (now : UInt64) (s : Server) (seqn : UInt64) :
    (s.confirmBuffer now seqn).store = s.store := by
  rw [confirmBuffer_eq]
  rfl

theorem issued_confirmEvents (now : UInt64) (buffer : ConfirmationBuffer 3) (seqn : UInt64) :
    issued (confirmEvents now buffer seqn) = [] := by
  refine List.filterMap_eq_nil_iff.mpr fun e he => ?_
  rcases mem_confirmEvents he with rfl | ⟨k, c, -, -, -, rfl⟩ <;> rfl

theorem confirmBuffer_issued (now : UInt64) (s : Server) (seqn : UInt64) :
    issued (s.confirmBuffer now seqn).log = issued s.log := by
  rw [confirmBuffer_eq, issued_append, issued_confirmEvents, List.append_nil]

@[simp] theorem confirmToPrimary_store (now : UInt64) (s : Server) (seqn : UInt64) :
    (s.confirmToPrimary now seqn).store = s.store := by
  unfold confirmToPrimary
  split <;> rfl

theorem confirmToPrimary_issued (now : UInt64) (s : Server) (seqn : UInt64) :
    issued (s.confirmToPrimary now seqn).log = issued s.log := by
  unfold confirmToPrimary
  split <;> simp [send, record, issued, Event.issued?]

/-- What the worker may have done meanwhile. -/
structure WorkerRely (s s' : Server) : Prop where
  store : s'.store = s.store
  replicas : s'.replicaManager = s.replicaManager
  seqn : s.lastSeqn ≤ s'.lastSeqn
  log : ∃ events, s'.log = s.log ++ events ∧ ∀ e ∈ events, e.byWorker = true

theorem WorkerRely.refl (s : Server) : WorkerRely s s :=
  ⟨rfl, rfl, Nat.le_refl _, [], by simp, by simp⟩

theorem WorkerRely.trans {s t u : Server} (h : WorkerRely s t) (h' : WorkerRely t u) :
    WorkerRely s u := by
  obtain ⟨es, he, hes⟩ := h.log
  obtain ⟨es', he', hes'⟩ := h'.log
  refine ⟨h'.store.trans h.store, h'.replicas.trans h.replicas, h.seqn.trans h'.seqn, es ++ es',
    by rw [he', he, List.append_assoc], fun e hm => ?_⟩
  rcases List.mem_append.mp hm with hm | hm
  · exact hes e hm
  · exact hes' e hm

/-- An action of the handler of `message` from `address` that began in `s₀`. -/
inductive Step (s₀ : Server) (now : UInt64) (message : Packet) (address : SocketAddress)
    (s : Server) : Server → Prop
  | look : Step s₀ now message address s s
  | started : Step s₀ now message address s (s.record (.started message address))
  | pushProfile (htype : message.type = packetConnectCmd)
      (fresh : s.profileManager.getProfileByName message.text = none) :
      Step s₀ now message address s (s.pushProfile message.text).1
  | sync : Step s₀ now message address s s.sync
  | startSession (p : ProfileRef) (htype : message.type = packetConnectCmd)
      (hp : (s.profileManager.deref p).handle = message.text)
      (hserving : serving s.log = some ⟨message, address, none⟩) :
      Step s₀ now message address s (s.startSession p address).1
  | setSession (p : ProfileRef) (r : SessionRef) (hp : p < s.profileManager.profiles.length)
      (hr : s.sessionManager.sessions[(s.profileManager.deref p).handle]? = some r) :
      Step s₀ now message address s (s.setSession p r)
  | getConnectedUsers (p : ProfileRef) (hstore : s.store = s₀.store.handle message address)
      (hcaller : message.type = packetConnectCmd ∨ ∃ username,
        s₀.sessionManager.getUserNameByAddressAndIP address = some username) :
      Step s₀ now message address s (s.getConnectedUsers p)
  | endSession (p : ProfileRef) : Step s₀ now message address s (s.endSession p address)
  | pushFollower (p follower : ProfileRef) (hp : p < s.profileManager.profiles.length)
      (hnew : follower ∉ (s.profileManager.deref p).followers) :
      Step s₀ now message address s (s.pushFollower p follower)
  | noReturnValue (username : Str)
      (hname : s₀.sessionManager.getUserNameByAddressAndIP address = some username)
      (hnone : s₀.profileManager.getProfileByName username = none) :
      Step s₀ now message address s (s.record (.fault .noReturnValue))
  | enqueue (n : PendingNotification) (hn : n ∈ s₀.store.notifications message address)
      (hstore : s.store = s₀.store) : Step s₀ now message address s (s.enqueue n)
  | incrementSeqn : Step s₀ now message address s s.incrementSeqn
  | pushContainer (lastSeqn lastSeqnTemp : Nat) (granted : Bool)
      (htype : message.type = packetConnectCmd) (hprimary : s.replicaManager.isPrimary = true)
      (hserving : serving s.log =
        some ⟨message, address, some (message.text, address, granted)⟩)
      (hbroadcasts : broadcasts s.log = broadcasts s₀.log) (h₀ : s₀.lastSeqn ≤ lastSeqn)
      (h₁ : lastSeqn ≤ lastSeqnTemp) (h₂ : lastSeqnTemp + 3 ≤ s.lastSeqn) :
      Step s₀ now message address s (s.pushContainer message address (UInt64.ofNat lastSeqn)
        (UInt64.ofNat lastSeqnTemp)).1
  | forward (lastSeqn lastSeqnTemp : UInt64) (i : Nat) (peer : Peer)
      (htype : message.type = packetConnectCmd)
      (hpeer : s.replicaManager.getSecondaryReplicas[i]? = some peer)
      (hbroadcasts : broadcasts s.log =
        broadcasts s₀.log ++ [⟨message, address, lastSeqn, lastSeqnTemp⟩]) :
      Step s₀ now message address s (s.send peer.getSocketAddress
        { message with seqn := lastSeqnTemp + UInt64.ofNat i }
        (.forward s₀.replicaManager.confirmationBuffer.length i))
  | confirmBuffer (htype : message.type = packetConfirmStateChange)
      (hprimary : s.replicaManager.isPrimary = true) :
      Step s₀ now message address s (s.confirmBuffer now message.seqn)
  | confirmToPrimary (hprimary : s.replicaManager.isPrimary = false)
      (hserved : message.type = packetConfirmStateChange ∨ message.type = packetConnectCmd ∧
        ∃ granted, serving s.log =
          some ⟨message, address, some (message.text, address, granted)⟩) :
      Step s₀ now message address s (s.confirmToPrimary now message.seqn)
  | unknownType (htype : packetConfirmStateChange < message.type)
      (hserving : serving s.log = some ⟨message, address, none⟩) :
      Step s₀ now message address s (s.record (.fault .unknownType))

/-- The handler that began in `s₀` has brought the store to `st` so far. -/
structure At (s₀ : Server) (st : Store) (service : Option Service) (s : Server) : Prop where
  store : s.store = st
  replicas : s.replicaManager = s₀.replicaManager
  broadcasts : broadcasts s.log = broadcasts s₀.log
  issued : issued s.log = issued s₀.log
  serving : serving s.log = service
  seqn : s₀.lastSeqn ≤ s.lastSeqn

theorem At.rely {s₀ s s' : Server} {st : Store} {service : Option Service}
    (h : At s₀ st service s) (hr : WorkerRely s s') : At s₀ st service s' := by
  obtain ⟨events, hlog, hevents⟩ := hr.log
  refine ⟨hr.store.trans h.store, hr.replicas.trans h.replicas, ?_, ?_, ?_, h.seqn.trans hr.seqn⟩
  · rw [hlog, broadcasts_append, broadcasts_byWorker hevents, List.append_nil, h.broadcasts]
  · rw [hlog, issued_append, issued_byWorker hevents, List.append_nil, h.issued]
  · rw [hlog, serving_byWorker _ hevents, h.serving]

theorem At.incrementSeqn {s₀ s : Server} {st : Store} {service : Option Service}
    (h : At s₀ st service s) : At s₀ st service s.incrementSeqn :=
  ⟨h.store, h.replicas, h.broadcasts, h.issued, h.serving, h.seqn.trans (Nat.le_succ _)⟩

theorem At.set {s₀ s s' : Server} {st st' : Store} {service : Option Service}
    (h : At s₀ st service s) (hstore : s'.store = st')
    (hreplicas : s'.replicaManager = s.replicaManager) (hlog : s'.log = s.log)
    (hseqn : s'.lastSeqn = s.lastSeqn) : At s₀ st' service s' :=
  ⟨hstore, hreplicas.trans h.replicas, hlog ▸ h.broadcasts, hlog ▸ h.issued, hlog ▸ h.serving,
    hseqn ▸ h.seqn⟩

theorem At.record {s₀ s : Server} {st : Store} {service : Option Service} (h : At s₀ st service s)
    (e : Event) (hi : e.issued? = none) (hb : e.broadcast? = none) :
    At s₀ st (Service.next service e) (s.record e) := by
  refine ⟨h.store, h.replicas, ?_, ?_, ?_, h.seqn⟩
  · simp only [Server.record, broadcasts_append, h.broadcasts]
    simp [Piupiu.broadcasts, hb]
  · simp only [Server.record, issued_append, h.issued]
    simp [Piupiu.issued, hi]
  · simp only [Server.record, serving_concat, h.serving]

theorem sync_store (s : Server) : s.sync.store = s.store.sync := by
  by_cases h : s.disk.writable = true <;> simp [Server.sync, Store.sync, Server.store, h]

theorem sync_same (s : Server) :
    s.sync.replicaManager = s.replicaManager ∧ s.sync.log = s.log ∧ s.sync.lastSeqn = s.lastSeqn := by
  unfold Server.sync
  split <;> exact ⟨rfl, rfl, rfl⟩

theorem At.sync {s₀ s : Server} {st : Store} {service : Option Service} (h : At s₀ st service s) :
    At s₀ st.sync service s.sync :=
  h.set (by rw [sync_store, h.store]) (sync_same s).1 (sync_same s).2.1 (sync_same s).2.2

theorem At.getConnectedUsers {s₀ s : Server} {st : Store} {service : Option Service}
    (h : At s₀ st service s) (p : ProfileRef) : At s₀ st service (s.getConnectedUsers p) := by
  unfold Server.getConnectedUsers
  split
  · exact h
  · exact h.record (.fault .unsetSession) rfl rfl

/-- The handler that began in `s₀` is done. -/
structure Ended (s₀ : Server) (message : Packet) (address : SocketAddress) (s : Server) : Prop where
  store : s.store = s₀.store.handle message address
  issued : issued s.log = issued s₀.log ++ s₀.store.notifications message address

section handlers

variable {s₀ : Server} {now : UInt64} {message : Packet} {address : SocketAddress}
  {st : Store} {service : Option Service}

/-- The copies that are still to be sent once the container is pushed. -/
theorem sendToPeers_safe {lastSeqn lastSeqnTemp : UInt64} (i : Nat) (peers : List Peer)
    (htype : message.type = packetConnectCmd)
    (hpeers : s₀.replicaManager.getSecondaryReplicas.drop i = peers) {s : Server}
    (hstore : s.store = st) (hissued : issued s.log = issued s₀.log)
    (hreplicas : s.replicaManager.getSecondaryReplicas = s₀.replicaManager.getSecondaryReplicas)
    (hbroadcasts : broadcasts s.log =
      broadcasts s₀.log ++ [⟨message, address, lastSeqn, lastSeqnTemp⟩]) :
    (sendToPeers message lastSeqnTemp s₀.replicaManager.confirmationBuffer.length i peers).Safe
      WorkerRely (Step s₀ now message address)
      (fun _ s' => s'.store = st ∧ issued s'.log = issued s₀.log) s := by
  induction peers generalizing i s with
  | nil =>
    intro s' hr
    obtain ⟨events, hlog, hevents⟩ := hr.log
    refine ⟨hr.store.trans hstore, ?_⟩
    rw [hlog, issued_append, issued_byWorker hevents, List.append_nil, hissued]
  | cons peer peers ih =>
    intro s' hr
    obtain ⟨events, hlog, hevents⟩ := hr.log
    have hb' : broadcasts s'.log =
        broadcasts s₀.log ++ [⟨message, address, lastSeqn, lastSeqnTemp⟩] := by
      rw [hlog, broadcasts_append, broadcasts_byWorker hevents, List.append_nil, hbroadcasts]
    have hget : s₀.replicaManager.getSecondaryReplicas[i]? = some peer := by
      rw [← List.head?_drop, hpeers]
      rfl
    have hdrop : s₀.replicaManager.getSecondaryReplicas.drop (i + 1) = peers := by
      rw [← List.tail_drop, hpeers]
      rfl
    refine ⟨.forward lastSeqn lastSeqnTemp i peer htype ?_ hb', ih (i + 1) hdrop ?_ ?_ ?_ ?_⟩
    · rw [hr.replicas, hreplicas, hget]
    · exact hr.store.trans hstore
    · simp only [send, record, hlog, issued_append, issued_byWorker hevents, hissued]
      simp [issued, Event.issued?]
    · exact (congrArg _ hr.replicas).trans hreplicas
    · simp only [send, record, broadcasts_append, hb']
      simp [broadcasts, Event.broadcast?]

theorem broadcastToSecondaries_safe {granted : Bool} {s : Server}
    (h : At s₀ st (some ⟨message, address, some (message.text, address, granted)⟩) s)
    (htype : message.type = packetConnectCmd) (hprimary : s₀.replicaManager.isPrimary = true) :
    (broadcastToSecondaries message address).Safe WorkerRely (Step s₀ now message address)
      (fun _ s' => s'.store = st ∧ issued s'.log = issued s₀.log) s := by
  intro s₁ hr₁
  have h₁ := h.rely hr₁
  refine ⟨.look, fun s₂ hr₂ => ⟨.look, fun s₃ hr₃ => ⟨.look, fun s₄ hr₄ => ⟨.incrementSeqn,
    fun s₅ hr₅ => ⟨.incrementSeqn, fun s₆ hr₆ => ⟨.incrementSeqn, fun s₇ hr₇ => ⟨?_, ?_⟩⟩⟩⟩⟩⟩⟩
  all_goals
    have h₂ := h₁.rely hr₂
    have h₃ := h₂.rely hr₃
    have h₅ := (h₃.rely hr₄).incrementSeqn.rely hr₅
    have h₇ := (h₅.incrementSeqn.rely hr₆).incrementSeqn.rely hr₇
  · have hle₃ := hr₃.seqn
    have hle : s₃.lastSeqn + 3 ≤ s₇.lastSeqn := by
      have := hr₄.seqn
      have := hr₅.seqn
      have := hr₆.seqn
      have := hr₇.seqn
      simp only [incrementSeqn] at *
      omega
    exact .pushContainer s₂.lastSeqn s₃.lastSeqn granted htype (by rw [h₇.replicas, hprimary])
      h₇.serving h₇.broadcasts h₂.seqn hle₃ hle
  · have hcontainer : (s₇.pushContainer message address s₂.getLastSeqn s₃.getLastSeqn).2 =
        s₀.replicaManager.confirmationBuffer.length := by
      rw [← h₇.replicas]
      rfl
    have hpeers : s₁.replicaManager.getSecondaryReplicas =
        s₀.replicaManager.getSecondaryReplicas := congrArg _ h₁.replicas
    have hpeers₇ := congrArg ReplicaManager.getSecondaryReplicas h₇.replicas
    simp only [hcontainer, hpeers]
    have hbroadcasts : broadcasts (s₇.pushContainer message address s₂.getLastSeqn
        s₃.getLastSeqn).1.log = broadcasts s₀.log ++
          [⟨message, address, s₂.getLastSeqn, s₃.getLastSeqn⟩] := by
      simp only [pushContainer, record, broadcasts_append, h₇.broadcasts]
      simp [broadcasts, Event.broadcast?]
    refine sendToPeers_safe 0 _ htype rfl h₇.store ?_ hpeers₇ hbroadcasts
    simp only [pushContainer, record, issued_append, h₇.issued]
    simp [issued, Event.issued?]

theorem at_result {s s' : Server} (h : At s₀ st service s) (hr : WorkerRely s s') :
    s'.store = st ∧ issued s'.log = issued s₀.log :=
  ⟨(h.rely hr).store, (h.rely hr).issued⟩

/-- The confirmation changes neither the store nor the queue. -/
theorem confirmMessage_safe {s : Server} (h : At s₀ st service s)
    (hserved : message.type = packetConfirmStateChange ∨
      message.type = packetConnectCmd ∧ s₀.replicaManager.isPrimary = false ∧ ∃ granted,
        service = some ⟨message, address, some (message.text, address, granted)⟩) :
    (confirmMessage now message.seqn).Safe WorkerRely (Step s₀ now message address)
      (fun _ s' => s'.store = st ∧ issued s'.log = issued s₀.log) s := by
  unfold confirmMessage
  refine safe_read_bind fun s₁ hr₁ => ⟨.look, ?_⟩
  have h₁ := h.rely hr₁
  rw [h₁.replicas]
  cases hp : s₀.replicaManager.isPrimary with
  | true =>
    have htype : message.type = packetConfirmStateChange := by
      rcases hserved with ht | ⟨-, hn, -⟩
      · exact ht
      · rw [hp] at hn
        cases hn
    refine safe_update fun s₂ hr₂ => ?_
    have h₂ := h₁.rely hr₂
    refine ⟨.confirmBuffer htype (by rw [h₂.replicas, hp]), fun t hr => ?_⟩
    obtain ⟨events, hlog, hevents⟩ := hr.log
    refine ⟨?_, ?_⟩
    · rw [hr.store, confirmBuffer_store, h₂.store]
    · rw [hlog, issued_append, issued_byWorker hevents, List.append_nil, confirmBuffer_issued,
        h₂.issued]
  | false =>
    refine safe_update fun s₂ hr₂ => ?_
    have h₂ := h₁.rely hr₂
    refine ⟨.confirmToPrimary (by rw [h₂.replicas, hp]) ?_, fun t hr => ?_⟩
    · rcases hserved with ht | ⟨ht, -, granted, he⟩
      · exact .inl ht
      · exact .inr ⟨ht, granted, by rw [h₂.serving, he]⟩
    · obtain ⟨events, hlog, hevents⟩ := hr.log
      refine ⟨?_, ?_⟩
      · rw [hr.store, confirmToPrimary_store, h₂.store]
      · rw [hlog, issued_append, issued_byWorker hevents, List.append_nil, confirmToPrimary_issued,
          h₂.issued]

theorem replicate_safe {granted : Bool} {s : Server}
    (h : At s₀ st (some ⟨message, address, some (message.text, address, granted)⟩) s)
    (htype : message.type = packetConnectCmd) :
    (replicate now message address).Safe WorkerRely (Step s₀ now message address)
      (fun _ s' => s'.store = st ∧ issued s'.log = issued s₀.log) s := by
  unfold replicate
  refine safe_read_bind fun s₁ hr₁ => ⟨.look, ?_⟩
  have h₁ := h.rely hr₁
  rw [h₁.replicas]
  cases hp : s₀.replicaManager.isPrimary with
  | true => exact broadcastToSecondaries_safe h₁ htype hp
  | false => exact confirmMessage_safe h₁ (.inr ⟨htype, hp, granted, rfl⟩)

theorem findProfile_safe {s : Server} (h : At s₀ st service s)
    (htype : message.type = packetConnectCmd) :
    (findProfile message.text).Safe WorkerRely (Step s₀ now message address)
      (fun p s' => At s₀ (st.ensure message.text) service s' ∧
        (st.ensure message.text).profiles.getProfileByName
          message.text = some p) s := by
  unfold findProfile
  refine safe_read_bind fun s₁ hr₁ => ⟨.look, ?_⟩
  have h₁ := h.rely hr₁
  have hpm : s₁.profileManager = st.profiles := congrArg Store.profiles h₁.store
  rw [hpm]
  cases hf : st.profiles.getProfileByName message.text with
  | some p =>
    have hensure : st.ensure message.text = st := by simp [Store.ensure, hf]
    intro s₂ hr₂
    rw [hensure]
    exact ⟨h₁.rely hr₂, hf⟩
  | none =>
    have hensure : st.ensure message.text = st.create message.text := by
      simp [Store.ensure, hf]
    rw [hensure]
    unfold newProfile
    refine safe_atomic_bind fun s₂ hr₂ => ?_
    have h₂ := h₁.rely hr₂
    have hpm₂ : s₂.profileManager = st.profiles := congrArg Store.profiles h₂.store
    refine ⟨.pushProfile htype (by rw [hpm₂, hf]), safe_update_bind fun s₃ hr₃ => ⟨.sync, fun s₄ hr₄ => ?_⟩⟩
    have hpush : At s₀ { st with profiles := st.profiles.newProfile message.text }
        service (s₂.pushProfile message.text).1 :=
      h₂.set (by rw [← h₂.store]; rfl) rfl rfl rfl
    refine ⟨(hpush.rely hr₃).sync.rely hr₄, ?_⟩
    rw [Store.create_lookup hf, ← hpm₂]
    rfl

theorem admitUser_safe {p : ProfileRef} {s : Server} (h : At s₀ st (some ⟨message, address, none⟩) s)
    (htype : message.type = packetConnectCmd)
    (hp : st.profiles.getProfileByName message.text = some p)
    (hend : st.openSession p message.text address = s₀.store.handle message address) :
    (admitUser p address).Safe WorkerRely (Step s₀ now message address)
      (fun _ s' => ∃ granted, At s₀ (s₀.store.handle message address)
        (some ⟨message, address, some (message.text, address, granted)⟩) s') s := by
  obtain ⟨hlt, huser⟩ := ProfileManager.getProfileByName_some _ hp
  unfold admitUser
  refine safe_atomic_bind fun s₁ hr₁ => ?_
  have h₁ := h.rely hr₁
  have hpm : s₁.profileManager = st.profiles := congrArg Store.profiles h₁.store
  have hsm : s₁.sessionManager = st.sessions := congrArg Store.sessions h₁.store
  refine ⟨.startSession p htype (by rw [hpm, huser]) h₁.serving, ?_⟩
  have hstart : s₁.startSession p address =
      (({ s₁ with sessionManager := (st.sessions.startSession message.text address).1 } :
        Server).record (.session message.text address
          (st.sessions.startSession message.text address).2.isSome),
        (st.sessions.startSession message.text address).2) := by
    simp only [startSession, hpm, hsm, huser]
  have hat : At s₀ { st with
        sessions := (st.sessions.startSession message.text address).1 }
      (some ⟨message, address, some (message.text, address,
        (st.sessions.startSession message.text address).2.isSome)⟩)
      (s₁.startSession p address).1 := by
    have hset : At s₀ { st with
        sessions := (st.sessions.startSession message.text address).1 }
      (some ⟨message, address, none⟩) { s₁ with
        sessionManager := (st.sessions.startSession message.text address).1 } :=
      h₁.set (by rw [← h₁.store]; rfl) rfl rfl rfl
    rw [hstart]
    exact hset.record (.session _ _ _) rfl rfl
  rw [hstart] at hat ⊢
  simp only [Store.openSession] at hend
  cases hs : st.sessions.startSession message.text address with
  | mk sessions session =>
    rw [hs] at hat hend
    cases session with
    | some r =>
      simp only at hat hend ⊢
      refine safe_update_bind fun s₂ hr₂ => ?_
      have h₂ := hat.rely hr₂
      have hpm₂ : s₂.profileManager = st.profiles := congrArg Store.profiles h₂.store
      have hstore : (s₂.setSession p r).store = s₀.store.handle message address := by
        rw [← hend]
        exact congrArg (fun t : Store => { t with profiles := t.profiles.setSession p (.ref r) })
          h₂.store
      have h₃ := h₂.set hstore rfl rfl rfl
      have hsm₂ : s₂.sessionManager = sessions := congrArg Store.sessions h₂.store
      have hr : s₂.sessionManager.sessions[(s₂.profileManager.deref p).handle]? = some r := by
        have hgranted := SessionManager.startSession_ref st.sessions message.text address (by rw [hs])
        rwa [hs, ← hsm₂, ← huser, ← hpm₂] at hgranted
      refine ⟨.setSession p r (by rw [hpm₂]; exact hlt) hr, safe_update fun s₃ hr₃ => ?_⟩
      have h₄ := h₃.rely hr₃
      exact ⟨.getConnectedUsers p h₄.store (.inl htype),
        fun t hr => ⟨_, (h₄.getConnectedUsers p).rely hr⟩⟩
    | none =>
      simp only at hat hend ⊢
      intro t hr
      rw [← hend]
      exact ⟨_, hat.rely hr⟩

theorem connectCmd_safe {s : Server} (h : At s₀ s₀.store (some ⟨message, address, none⟩) s)
    (htype : message.type = packetConnectCmd) :
    (connectCmd now message address).Safe WorkerRely (Step s₀ now message address)
      (fun _ s' => s'.store = s₀.store.handle message address ∧ issued s'.log = issued s₀.log) s := by
  unfold connectCmd
  refine Safe.bind WorkerRely.refl ((findProfile_safe h htype).mono (fun _ _ hg => hg) ?_)
  rintro p t ⟨ht, hp⟩
  refine Safe.bind WorkerRely.refl ((admitUser_safe ht htype hp ?_).mono (fun _ _ hg => hg) ?_)
  · rw [Store.handle_connect htype, Store.connect, hp]
  · rintro _ t' ⟨granted, ht'⟩
    exact replicate_safe ht' htype

theorem disconnectCmd_safe {s : Server} (h : At s₀ s₀.store service s)
    (htype : message.type = packetDisconnectCmd) :
    (disconnectCmd message address).Safe WorkerRely (Step s₀ now message address)
      (fun _ s' => s'.store = s₀.store.handle message address ∧ issued s'.log = issued s₀.log) s := by
  rw [Store.handle_disconnect htype]
  unfold disconnectCmd
  refine safe_read_bind fun s₁ hr₁ => ⟨.look, ?_⟩
  have h₁ := h.rely hr₁
  have hpm : s₁.profileManager = s₀.store.profiles := congrArg Store.profiles h₁.store
  rw [hpm, Store.disconnect]
  cases hp : s₀.store.profiles.getProfileByName message.text with
  | none =>
    intro t hr
    exact at_result h₁ hr
  | some p =>
    obtain ⟨-, huser⟩ := ProfileManager.getProfileByName_some _ hp
    refine safe_update fun s₂ hr₂ => ⟨.endSession p, fun t hr => ?_⟩
    have h₂ := h₁.rely hr₂
    have hpm₂ : s₂.profileManager = s₀.store.profiles := congrArg Store.profiles h₂.store
    obtain ⟨events, hlog, hevents⟩ := hr.log
    refine ⟨?_, ?_⟩
    · rw [hr.store, if_neg (by simp), ← huser, ← hpm₂, ← h₂.store]
      rfl
    · rw [hlog, issued_append, issued_byWorker hevents, List.append_nil, ← h₂.issued]
      simp [endSession, record, issued, Event.issued?]

theorem followCmd_safe {s : Server} (h : At s₀ s₀.store service s)
    (htype : message.type = packetFollowCmd) :
    (followCmd message address).Safe WorkerRely (Step s₀ now message address)
      (fun _ s' => s'.store = s₀.store.handle message address ∧ issued s'.log = issued s₀.log) s := by
  rw [Store.handle_follow htype, Store.follow, Store.followEdge]
  unfold followCmd
  refine safe_read_bind fun s₁ hr₁ => ⟨.look, ?_⟩
  have h₁ := h.rely hr₁
  have hsm : s₁.sessionManager = s₀.store.sessions := congrArg Store.sessions h₁.store
  rw [hsm]
  cases hname : s₀.store.sessions.getUserNameByAddressAndIP address with
  | none => exact fun t hr => at_result h₁ hr
  | some username =>
    refine safe_read_bind fun s₂ hr₂ => ⟨.look, ?_⟩
    have h₂ := h₁.rely hr₂
    have hpm : s₂.profileManager = s₀.store.profiles := congrArg Store.profiles h₂.store
    rw [hpm]
    by_cases hself : message.text = username
    · simp only [hself, if_true]
      exact fun t hr => at_result h₂ hr
    simp only [hself, if_false]
    cases hp : s₀.store.profiles.getProfileByName message.text with
    | none => exact fun t hr => at_result h₂ hr
    | some p =>
      have hlt := (ProfileManager.getProfileByName_some _ hp).1
      unfold addFollower
      refine safe_read_bind fun s₃ hr₃ => ⟨.look, ?_⟩
      have h₃ := h₂.rely hr₃
      have hpm₃ : s₃.profileManager = s₀.store.profiles := congrArg Store.profiles h₃.store
      rw [hpm₃]
      cases hf : s₀.store.profiles.getProfileByName username with
      | none =>
        refine safe_update fun s₄ hr₄ => ⟨.noReturnValue username hname hf, fun t hr => ?_⟩
        exact at_result ((h₃.rely hr₄).record (.fault .noReturnValue) rfl rfl) hr
      | some follower =>
        refine safe_read_bind fun s₄ hr₄ => ⟨.look, ?_⟩
        have h₄ := h₃.rely hr₄
        have hpm₄ : s₄.profileManager = s₀.store.profiles := congrArg Store.profiles h₄.store
        simp only [ProfileManager.isFollower, hpm₄, decide_eq_true_eq, Store.addEdge]
        by_cases hm : follower ∈ (s₀.store.profiles.deref p).followers
        · rw [if_pos hm, if_pos hm]
          exact fun t hr => at_result h₄ hr
        · rw [if_neg hm, if_neg hm]
          refine safe_update_bind fun s₅ hr₅ => ?_
          have h₅ := h₄.rely hr₅
          have hpm₅ : s₅.profileManager = s₀.store.profiles := congrArg Store.profiles h₅.store
          have hpush : At s₀ { s₀.store with
              profiles := (s₀.store.profiles.pushFollower p follower).1 } service
              (s₅.pushFollower p follower) := by
            rw [← ProfileManager.appendFollower_of_new _ hm]
            exact h₅.set (by rw [← h₅.store]; rfl) rfl rfl rfl
          refine ⟨.pushFollower p follower (by rwa [hpm₅]) (by rwa [hpm₅]), ?_⟩
          exact safe_update fun s₆ hr₆ => ⟨.sync, fun t hr => at_result (hpush.rely hr₆).sync hr⟩

/-- The pushes of SEND, from some follower on. -/
theorem pushNotifications_safe {username body : Str} (followers : List ProfileRef)
    (hmem : ∀ f ∈ followers, (⟨username, body, f⟩ : PendingNotification) ∈
      s₀.store.notifications message address) {s : Server} {queued : List PendingNotification}
    (hstore : s.store = s₀.store) (hissued : issued s.log = issued s₀.log ++ queued) :
    (pushNotifications username body followers).Safe WorkerRely (Step s₀ now message address)
      (fun _ s' => s'.store = s₀.store ∧ issued s'.log = issued s₀.log ++
        (queued ++ followers.map fun f => ⟨username, body, f⟩)) s := by
  induction followers generalizing s queued with
  | nil =>
    intro t hr
    obtain ⟨events, hlog, hevents⟩ := hr.log
    refine ⟨hr.store.trans hstore, ?_⟩
    rw [hlog, issued_append, issued_byWorker hevents, hissued]
    simp
  | cons f followers ih =>
    refine safe_update_bind fun s₁ hr₁ => ?_
    obtain ⟨events, hlog, hevents⟩ := hr₁.log
    have hstore₁ := hr₁.store.trans hstore
    refine ⟨.enqueue _ (hmem f List.mem_cons_self) hstore₁, ?_⟩
    have hqueued : issued (s₁.enqueue ⟨username, body, f⟩).log =
        issued s₀.log ++ (queued ++ [⟨username, body, f⟩]) := by
      simp only [enqueue, record, hlog, issued_append, issued_byWorker hevents, hissued]
      simp [issued, Event.issued?]
    simpa using ih (s := s₁.enqueue ⟨username, body, f⟩)
      (fun g hg => hmem g (List.mem_cons_of_mem _ hg)) hstore₁ hqueued

theorem sendCmd_safe {s : Server} (h : At s₀ s₀.store service s)
    (htype : message.type = packetSendCmd) :
    (sendCmd message address).Safe WorkerRely (Step s₀ now message address)
      (fun _ s' => s'.store = s₀.store ∧ issued s'.log =
        issued s₀.log ++ s₀.store.notifications message address) s := by
  unfold sendCmd
  refine safe_read_bind fun s₁ hr₁ => ⟨.look, ?_⟩
  have h₁ := h.rely hr₁
  have hsm : s₁.sessionManager = s₀.store.sessions := congrArg Store.sessions h₁.store
  rw [hsm]
  cases hname : s₀.store.sessions.getUserNameByAddressAndIP address with
  | none =>
    have hnil : s₀.store.notifications message address = [] := by
      simp [Store.notifications, hname]
    rw [hnil, List.append_nil]
    exact fun t hr => at_result h₁ hr
  | some username =>
    refine safe_read_bind fun s₂ hr₂ => ⟨.look, ?_⟩
    have h₂ := h₁.rely hr₂
    have hpm : s₂.profileManager = s₀.store.profiles := congrArg Store.profiles h₂.store
    rw [hpm]
    cases hp : s₀.store.profiles.getProfileByName username with
    | none =>
      have hnil : s₀.store.notifications message address = [] := by
        simp [Store.notifications, hname, hp]
      rw [hnil, List.append_nil]
      exact fun t hr => at_result h₂ hr
    | some p =>
      have hall : s₀.store.notifications message address =
          (s₀.store.profiles.deref p).followers.map fun f =>
            ⟨username, message.text, f⟩ := by
        simp [Store.notifications, htype, hname, hp]
      refine safe_read_bind fun s₃ hr₃ => ⟨.look, ?_⟩
      have h₃ := h₂.rely hr₃
      have hpm₃ : s₃.profileManager = s₀.store.profiles := congrArg Store.profiles h₃.store
      rw [hpm₃]
      have hmem : ∀ f ∈ (s₀.store.profiles.deref p).followers,
          (⟨username, message.text, f⟩ : PendingNotification) ∈
            s₀.store.notifications message address := by
        intro f hf
        rw [hall]
        exact List.mem_map.mpr ⟨f, hf, rfl⟩
      have hissued : issued s₃.log = issued s₀.log ++ [] := by rw [h₃.issued, List.append_nil]
      rw [hall]
      simpa using pushNotifications_safe _ hmem h₃.store hissued

theorem requestUserInfo_safe {s : Server} (h : At s₀ s₀.store service s)
    (hend : s₀.store.handle message address = s₀.store) :
    (requestUserInfo address).Safe WorkerRely (Step s₀ now message address)
      (fun _ s' => s'.store = s₀.store ∧ issued s'.log = issued s₀.log) s := by
  unfold requestUserInfo
  refine safe_read_bind fun s₁ hr₁ => ⟨.look, ?_⟩
  have h₁ := h.rely hr₁
  have hsm : s₁.sessionManager = s₀.sessionManager := congrArg Store.sessions h₁.store
  rw [hsm]
  cases hname : s₀.sessionManager.getUserNameByAddressAndIP address with
  | none => exact fun t hr => at_result h₁ hr
  | some username =>
    refine safe_read_bind fun s₂ hr₂ => ⟨.look, ?_⟩
    have h₂ := h₁.rely hr₂
    cases s₂.profileManager.getProfileByName username with
    | none => exact fun t hr => at_result h₂ hr
    | some p =>
      refine safe_update fun s₃ hr₃ => ?_
      have h₃ := h₂.rely hr₃
      exact ⟨.getConnectedUsers p (by rw [h₃.store, hend]) (.inr ⟨username, hname⟩), fun t hr =>
        at_result (h₃.getConnectedUsers p) hr⟩

end handlers

/-- A handler performs nothing but its steps, whatever the worker does meanwhile,
and when it ends it has done the transition of its packet on the store and put
the notifications of its packet into the queue. -/
theorem messageHandler_safe (s₀ : Server) (now : UInt64) (message : Packet)
    (address : SocketAddress) : (messageHandler now message address).Safe WorkerRely
      (Step s₀ now message address) (fun _ s => Ended s₀ message address s) s₀ := by
  have h₀ : At s₀ s₀.store (serving s₀.log) s₀ :=
    ⟨rfl, rfl, rfl, rfl, rfl, Nat.le_refl _⟩
  unfold messageHandler
  refine safe_update_bind fun s₁ hr₁ => ⟨.started, ?_⟩
  have h₁ : At s₀ s₀.store (some ⟨message, address, none⟩)
      (s₁.record (.started message address)) :=
    (h₀.rely hr₁).record (.started message address) rfl rfl
  have hquiet : message.type ≠ packetSendCmd → s₀.store.notifications message address = [] :=
    fun h => by simp [Store.notifications, h]
  have hended : ∀ s, message.type ≠ packetSendCmd →
      s.store = s₀.store.handle message address ∧ issued s.log = issued s₀.log →
        Ended s₀ message address s := fun s hn h =>
    ⟨h.1, by rw [h.2, hquiet hn, List.append_nil]⟩
  by_cases hconnect : message.type = packetConnectCmd
  · rw [if_pos hconnect]
    exact (connectCmd_safe h₁ hconnect).mono (fun _ _ hg => hg) fun _ s =>
      hended s (by rw [hconnect]; decide)
  rw [if_neg hconnect]
  by_cases hdisconnect : message.type = packetDisconnectCmd
  · rw [if_pos hdisconnect]
    exact (disconnectCmd_safe h₁ hdisconnect).mono (fun _ _ hg => hg) fun _ s =>
      hended s (by rw [hdisconnect]; decide)
  rw [if_neg hdisconnect]
  by_cases hfollow : message.type = packetFollowCmd
  · rw [if_pos hfollow]
    exact (followCmd_safe h₁ hfollow).mono (fun _ _ hg => hg) fun _ s =>
      hended s (by rw [hfollow]; decide)
  rw [if_neg hfollow]
  have hsame : s₀.store.handle message address = s₀.store :=
    Store.handle_other hconnect hdisconnect hfollow
  by_cases hsend : message.type = packetSendCmd
  · rw [if_pos hsend]
    refine (sendCmd_safe h₁ hsend).mono (fun _ _ hg => hg) fun _ s h => ⟨?_, h.2⟩
    rw [hsame, h.1]
  rw [if_neg hsend]
  by_cases hinfo : message.type = packetRequestUserInfo
  · rw [if_pos hinfo]
    refine (requestUserInfo_safe h₁ hsame).mono (fun _ _ hg => hg) fun _ s h => ?_
    exact hended s hsend (by rwa [hsame])
  rw [if_neg hinfo]
  by_cases hconfirm : message.type = packetConfirmStateChange
  · rw [if_pos hconfirm]
    refine (confirmMessage_safe h₁ (.inl hconfirm)).mono (fun _ _ hg => hg) fun _ s h => ?_
    exact hended s hsend (by rwa [hsame])
  rw [if_neg hconfirm, otherCmd]
  cases htext : typeToStr message.type with
  | some text =>
    intro t hr
    exact hended t hsend (by rw [hsame]; exact at_result h₁ hr)
  | none =>
    have hunknown := ((typeToStr_eq_none message.type).mp htext).resolve_right hinfo
    refine safe_update fun s₂ hr₂ => ?_
    have h₂ := h₁.rely hr₂
    refine ⟨.unknownType hunknown h₂.serving, fun t hr => hended t hsend ?_⟩
    rw [hsame]
    exact at_result (h₂.record (.fault .unknownType) rfl rfl) hr

end Server

end Piupiu
