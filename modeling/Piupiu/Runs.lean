import Piupiu.Steps

/-!
# Runs

What one iteration of the worker does, the rule for invariants of runs in which
the worker comes in between the actions of the handlers, and the reading of runs
in which packets are handled with nothing in between.
-/
namespace Piupiu

open Atomic Atomic.Prog

namespace Server

/-- What one `Reply` shows: the packet with the next number, or the overflow. -/
def replyEvent (now : UInt64) (n : PendingNotification) (seqn : Nat) (socket : SocketAddress) :
    Event :=
  match makeNotification now (UInt64.ofNat seqn) n.body n.senderUsername with
  | some message => .sent socket message .notification
  | none => .fault .payloadOverflow

def replyEvents (now : UInt64) (n : PendingNotification) : Nat → List SocketAddress → List Event
  | _, [] => []
  | seqn, socket :: sockets =>
    replyEvent now n (seqn + 1) socket :: replyEvents now n (seqn + 1) sockets

theorem notify_eq (now : UInt64) (n : PendingNotification) (s : Server) (socket : SocketAddress) :
    s.notify now n socket = s.incrementSeqn.record (replyEvent now n (s.lastSeqn + 1) socket) := by
  unfold notify replyEvent
  simp only [getLastSeqn, incrementSeqn, send]
  cases makeNotification now (UInt64.ofNat (s.lastSeqn + 1)) n.body n.senderUsername <;> rfl

theorem notifyAll_eq (now : UInt64) (n : PendingNotification) (sockets : List SocketAddress)
    (s : Server) : sockets.foldl (notify now n) s =
      { s with
        lastSeqn := s.lastSeqn + sockets.length
        log := s.log ++ replyEvents now n s.lastSeqn sockets } := by
  induction sockets generalizing s with
  | nil => simp [replyEvents]
  | cons socket sockets ih =>
    rw [List.foldl_cons, ih, notify_eq]
    simp only [incrementSeqn, record, replyEvents, List.append_assoc, List.singleton_append,
      List.length_cons]
    congr 1
    omega

/-- The sockets behind the session of a profile; `none` when it was never set. -/
def recipientSockets (s : Server) (recipient : ProfileRef) : Option (List SocketAddress) :=
  s.sessionManager.behind (s.profileManager.deref recipient).session

/-- An iteration finds nothing to do, hands the front of the queue to the sockets
of its recipient, or puts it back. -/
theorem worker_cases (now : UInt64) (s : Server) :
    (s.notificationQueue = [] ∧ s.pendingNotificationWorker now = s) ∨
    (∃ n rest, s.notificationQueue = n :: rest ∧ s.recipientSockets n.recipient = none ∧
      s.pendingNotificationWorker now = (s.record (.fault .unsetSession)).requeue n rest) ∨
    (∃ n rest, s.notificationQueue = n :: rest ∧ s.recipientSockets n.recipient = some [] ∧
      s.pendingNotificationWorker now = s.requeue n rest) ∨
    ∃ n rest sockets, s.notificationQueue = n :: rest ∧
      s.recipientSockets n.recipient = some sockets ∧ sockets ≠ [] ∧
      s.pendingNotificationWorker now =
        { s with
          notificationQueue := rest
          lastSeqn := s.lastSeqn + sockets.length
          log := s.log ++ .delivered n sockets :: replyEvents now n s.lastSeqn sockets } := by
  cases hq : s.notificationQueue with
  | nil => exact .inl ⟨rfl, by simp [pendingNotificationWorker, hq]⟩
  | cons n rest =>
    refine .inr ?_
    cases hs : s.recipientSockets n.recipient with
    | none =>
      unfold recipientSockets at hs
      exact .inl ⟨n, rest, rfl, hs, by simp [pendingNotificationWorker, hq, hs]⟩
    | some sockets =>
      unfold recipientSockets at hs
      cases sockets with
      | nil => exact .inr (.inl ⟨n, rest, rfl, hs, by simp [pendingNotificationWorker, hq, hs]⟩)
      | cons a sockets =>
        refine .inr (.inr ⟨n, rest, a :: sockets, rfl, hs, by simp, ?_⟩)
        simp only [pendingNotificationWorker, hq, hs, notifyAll_eq, record, List.append_assoc,
          List.singleton_append]

theorem replyEvents_byWorker (now : UInt64) (n : PendingNotification) (sockets : List SocketAddress)
    (seqn : Nat) : ∀ e ∈ replyEvents now n seqn sockets, e.byWorker = true := by
  induction sockets generalizing seqn with
  | nil => simp [replyEvents]
  | cons socket sockets ih =>
    intro e he
    rcases List.mem_cons.mp he with rfl | he
    · unfold replyEvent
      split
      · next message hm => simpa [Event.byWorker] using makeText_type hm
      · rfl
    · exact ih (seqn + 1) e he

theorem mem_replyEvents {now : UInt64} {n : PendingNotification} {seqn : Nat}
    {sockets : List SocketAddress} {address : SocketAddress} {message : Packet} {origin : Origin}
    (h : .sent address message origin ∈ replyEvents now n seqn sockets) : address ∈ sockets := by
  induction sockets generalizing seqn with
  | nil => cases h
  | cons socket sockets ih =>
    rcases List.mem_cons.mp h with h | h
    · unfold replyEvent at h
      split at h
      · cases h
        exact List.mem_cons_self
      · cases h
    · exact List.mem_cons_of_mem _ (ih h)

theorem worker_rely (now : UInt64) (s : Server) :
    WorkerRely s (s.pendingNotificationWorker now) := by
  rcases s.worker_cases now with ⟨-, he⟩ | ⟨n, rest, -, -, he⟩ | ⟨n, rest, -, -, he⟩ |
    ⟨n, rest, sockets, -, -, -, he⟩ <;> rw [he]
  · exact .refl s
  · exact ⟨rfl, rfl, Nat.le_refl _, [.fault .unsetSession, .requeued n],
      by simp [requeue, record], by simp [Event.byWorker]⟩
  · exact ⟨rfl, rfl, Nat.le_refl _, [.requeued n], rfl, by simp [Event.byWorker]⟩
  · refine ⟨rfl, rfl, Nat.le_add_right _ _, _, rfl, fun e he => ?_⟩
    rcases List.mem_cons.mp he with rfl | he
    · rfl
    · exact replyEvents_byWorker now n sockets s.lastSeqn e he

/-- The worker puts nothing new into the queue. -/
theorem worker_queue_subset (s : Server) (now : UInt64) :
    ∀ n ∈ (s.pendingNotificationWorker now).notificationQueue, n ∈ s.notificationQueue := by
  intro n hn
  obtain ⟨-, he⟩ | ⟨n', rest, hq, -, he⟩ | ⟨n', rest, hq, -, he⟩ | ⟨n', rest, sockets, hq, -, -, he⟩ :=
    s.worker_cases now <;> rw [he] at hn
  · exact hn
  · rw [hq]
    exact List.perm_append_comm.subset hn
  · rw [hq]
    exact List.perm_append_comm.subset hn
  · rw [hq]
    exact List.mem_cons_of_mem _ hn

/-- The events that an action of the handler of `message` from `address` can add. -/
def Adds (message : Packet) (address : SocketAddress) : Event → Prop
  | .started m a => m = message ∧ a = address
  | .broadcast _ _ _ _ | .sent _ _ (.forward _ _) => message.type = packetConnectCmd
  | e => e.byHandler = true

theorem Adds.byHandler {message : Packet} {address : SocketAddress} {e : Event}
    (h : Adds message address e) : e.byHandler = true := by
  cases e with
  | started | broadcast => rfl
  | sent address message origin =>
    cases origin with
    | forward => rfl
    | _ => exact h
  | _ => exact h

theorem step_events {s₀ s s' : Server} {now : UInt64} {message : Packet} {address : SocketAddress}
    (h : Step s₀ now message address s s') :
    ∃ events, s'.log = s.log ++ events ∧
      s'.notificationQueue = s.notificationQueue ++ issued events ∧
      (∀ e ∈ events, Adds message address e) ∧
      ∀ n ∈ issued events, n ∈ s₀.store.notifications message address ∧ s'.store = s₀.store := by
  have hnone : ∀ s' : Server, s'.log = s.log → s'.notificationQueue = s.notificationQueue →
      ∃ events, s'.log = s.log ++ events ∧
        s'.notificationQueue = s.notificationQueue ++ issued events ∧
        (∀ e ∈ events, Adds message address e) ∧
        ∀ n ∈ issued events, n ∈ s₀.store.notifications message address ∧ s'.store = s₀.store :=
    fun s' hl hq => ⟨[], by simp [hl], by simp [hq, issued], by simp, by simp [issued]⟩
  have hone : ∀ (s' : Server) (e : Event), s'.log = s.log ++ [e] →
      s'.notificationQueue = s.notificationQueue → Adds message address e → e.issued? = none →
      ∃ events, s'.log = s.log ++ events ∧
        s'.notificationQueue = s.notificationQueue ++ issued events ∧
        (∀ e ∈ events, Adds message address e) ∧
        ∀ n ∈ issued events, n ∈ s₀.store.notifications message address ∧ s'.store = s₀.store :=
    fun s' e hl hq he hi => ⟨[e], hl, by simp [hq, issued, hi], by simpa using he,
      by simp [issued, hi]⟩
  cases h with
  | look | pushProfile | setSession | pushFollower | incrementSeqn => exact hnone _ rfl rfl
  | sync => exact hnone _ (sync_same s).2.1 (by unfold Server.sync; split <;> rfl)
  | started => exact hone _ _ rfl rfl ⟨rfl, rfl⟩ rfl
  | startSession | endSession | noReturnValue | unknownType => exact hone _ _ rfl rfl rfl rfl
  | pushContainer lastSeqn lastSeqnTemp granted htype | forward lastSeqn lastSeqnTemp i peer htype =>
    exact hone _ _ rfl rfl htype rfl
  | getConnectedUsers =>
    unfold getConnectedUsers
    split
    · exact hnone _ rfl rfl
    · exact hone _ _ rfl rfl rfl rfl
  | enqueue n hn hstore =>
    exact ⟨[.enqueued n], rfl, rfl, by simp [Adds, Event.byHandler], fun n' hn' =>
      ⟨List.mem_singleton.mp hn' ▸ hn, hstore⟩⟩
  | confirmBuffer =>
    rw [confirmBuffer_eq]
    refine ⟨_, rfl, by rw [issued_confirmEvents, List.append_nil], fun e he => ?_, by
      simp [issued_confirmEvents]⟩
    rcases mem_confirmEvents he with rfl | ⟨k, c, -, -, -, rfl⟩ <;> rfl
  | confirmToPrimary =>
    unfold confirmToPrimary
    split <;> exact hone _ _ rfl rfl rfl rfl

theorem run_concat (s : Server) (moves : List Move) (m : Move) :
    s.run (moves ++ [m]) = move (s.run moves) m := by
  simp [run]

theorem run_append (s : Server) (moves more : List Move) :
    s.run (moves ++ more) = more.foldl move (s.run moves) := by
  simp [run]

/-- A run goes on from a state in which no handler is running. -/
theorem run_resume {s : Server} {moves : List Move} (h : (s.run moves).idle = true)
    (more : List Move) : s.run (moves ++ more) = (s.run moves).shared.run more := by
  have hc : s.run moves = ⟨(s.run moves).shared, .done ()⟩ :=
    congrArg (Config.mk _) (Config.running_of_idle h)
  rw [run_append, hc]
  rfl

section invariant

variable {Ok : Server → Packet → SocketAddress → Prop} {Rest P : Server → Prop}

/-- A step of a handler that was started in `s₀` for a packet that may come there. -/
def HandlerStep (Ok : Server → Packet → SocketAddress → Prop) (s₀ s s' : Server) : Prop :=
  ∃ now message address, Ok s₀ message address ∧ Step s₀ now message address s s'

abbrev Tracked (Ok : Server → Packet → SocketAddress → Prop) (Rest P : Server → Prop)
    (c : Config Server) : Prop := Config.Tracked WorkerRely (HandlerStep Ok) Rest P c

structure Preserves (Ok : Server → Packet → SocketAddress → Prop) (Rest P : Server → Prop) :
    Prop where
  stable : ∀ s s', Rest s → WorkerRely s s' → Rest s'
  ended : ∀ s₀ s message address, Ok s₀ message address → Rest s₀ → P s₀ →
    Ended s₀ message address s → Rest s
  step : ∀ s₀ s s' now message address, Ok s₀ message address → Rest s₀ → P s₀ → P s →
    Step s₀ now message address s s' → P s'
  worker : ∀ s now, P s → P (s.pendingNotificationWorker now)

theorem move_tracked (h : Preserves Ok Rest P) {c : Config Server} (hc : Tracked Ok Rest P c)
    {m : Move} (hm : ∀ now message address, m = .arrive now message address → c.idle = true →
      Ok c.shared message address) : Tracked Ok Rest P (move c m) := by
  cases m with
  | arrive now message address =>
    refine hc.start WorkerRely.refl fun hi hrest hp => ?_
    have hok := hm now message address rfl hi
    exact (messageHandler_safe c.shared now message address).mono
      (fun a b hstep => ⟨now, message, address, hok, hstep⟩)
      fun _ t hend => h.ended c.shared t message address hok hrest hp hend
  | advance =>
    refine hc.advance WorkerRely.refl fun s₀ s s' hrest hp₀ hp hstep => ?_
    obtain ⟨now, message, address, hok, hstep⟩ := hstep
    exact h.step s₀ s s' now message address hok hrest hp₀ hp hstep
  | worker now =>
    exact hc.interfere (fun _ _ _ => WorkerRely.trans) (worker_rely now _) (h.worker _ now)

/-- What a move can do to the shared state. -/
theorem move_cases {c : Config Server} (hc : Tracked Ok Rest P c) (m : Move) :
    (move c m).shared = c.shared ∨
    (∃ s₀, Rest s₀ ∧ P s₀ ∧ HandlerStep Ok s₀ c.shared (move c m).shared) ∨
    ∃ now, m = .worker now ∧ (move c m).shared = c.shared.pendingNotificationWorker now := by
  cases m with
  | arrive now message address => exact .inl (Config.start_shared _ _)
  | advance =>
    obtain ⟨s₀, hrest, hp, hsafe⟩ := hc.safe
    exact (Config.guarantee_advance WorkerRely.refl hsafe).imp_right fun hg =>
      .inl ⟨s₀, hrest, hp, hg⟩
  | worker now => exact .inr (.inr ⟨now, rfl, rfl⟩)

/-- The packets that are handled in a run, each in the state it is handled in. -/
def Admits (Ok : Server → Packet → SocketAddress → Prop) (s : Server) (moves : List Move) : Prop :=
  ∀ (i : Nat) now message address, moves[i]? = some (.arrive now message address) →
    (s.run (moves.take i)).idle = true → Ok (s.run (moves.take i)).shared message address

theorem admits_of_mem {Ok : Packet → SocketAddress → Prop} (s : Server) {moves : List Move}
    (h : ∀ now message address, Move.arrive now message address ∈ moves → Ok message address) :
    Admits (fun _ => Ok) s moves :=
  fun _ now message address hi _ => h now message address (List.mem_of_getElem? hi)

theorem admits_true (s : Server) (moves : List Move) : Admits (fun _ _ _ => True) s moves :=
  fun _ _ _ _ _ _ => trivial

/-- The rule for invariants of runs: `P` holds in every state and `Rest` whenever
no handler is running. -/
theorem run_tracked (h : Preserves Ok Rest P) {s : Server} (hrest : Rest s) (hp : P s)
    {moves : List Move} (hok : Admits Ok s moves) : Tracked Ok Rest P (s.run moves) := by
  induction moves using List.reverseRecOn with
  | nil => exact Config.tracked_init hrest hp fun t hr => h.stable s t hrest hr
  | append_singleton moves m ih =>
    have hok' : Admits Ok s moves := by
      intro i now message address hi hidle
      have hlt := (List.getElem?_eq_some_iff.mp hi).1
      have htake : (moves ++ [m]).take i = moves.take i := List.take_append_of_le_length hlt.le
      rw [← htake] at hidle ⊢
      exact hok i now message address (by rw [List.getElem?_append_left hlt, hi]) hidle
    rw [run_concat]
    refine move_tracked h (ih hok') fun now message address hm hidle => ?_
    have hlast := hok moves.length now message address (by simp [hm])
    rw [List.take_left] at hlast
    exact hlast hidle

end invariant

/-- Every move adds to the log. -/
theorem move_log_mono (s : Server) (moves : List Move) (mv : Move) :
    (s.run moves).shared.log <+: (move (s.run moves) mv).shared.log := by
  have hpreserves : Preserves (fun _ _ _ => True) (fun _ => True) (fun _ => True) :=
    ⟨fun _ _ _ _ => trivial, fun _ _ _ _ _ _ _ _ => trivial,
      fun _ _ _ _ _ _ _ _ _ _ _ => trivial, fun _ _ _ => trivial⟩
  have hc : Tracked (fun _ _ _ => True) (fun _ => True) (fun _ => True) (s.run moves) :=
    run_tracked hpreserves trivial trivial (admits_true s moves)
  rcases move_cases hc mv with he | ⟨s₀, -, -, now, message, address, -, hstep⟩ | ⟨now, -, he⟩
  · rw [he]
  · obtain ⟨events, hlog, -⟩ := step_events hstep
    rw [hlog]
    exact List.prefix_append _ _
  · obtain ⟨events, hlog, -⟩ := (worker_rely now (s.run moves).shared).log
    rw [he, hlog]
    exact List.prefix_append _ _

theorem handle_ended (s : Server) (now : UInt64) (message : Packet) (address : SocketAddress) :
    Ended s message address (s.handle now message address) :=
  (messageHandler_safe s now message address).exec WorkerRely.refl

theorem handle_steps (s : Server) (now : UInt64) (message : Packet) (address : SocketAddress) :
    Relation.ReflTransGen (Step s now message address) s (s.handle now message address) :=
  (messageHandler_safe s now message address).exec_guarantee WorkerRely.refl

/-- What the actions of a handler preserve is preserved by the handler. -/
theorem handle_preserves {P : Server → Prop} {s : Server} {now : UInt64} {message : Packet}
    {address : SocketAddress} (hstep : ∀ a b, Step s now message address a b → P a → P b)
    (h : P s) : P (s.handle now message address) := by
  have hsteps := handle_steps s now message address
  generalize s.handle now message address = s' at hsteps
  induction hsteps with
  | refl => exact h
  | tail _ hab ih => exact hstep _ _ hab ih

theorem handle_log (s : Server) (now : UInt64) (message : Packet) (address : SocketAddress) :
    s.log <+: (s.handle now message address).log := by
  refine handle_preserves (P := fun s' => s.log <+: s'.log) (fun a b hab h => ?_) List.prefix_rfl
  obtain ⟨events, hlog, -⟩ := step_events hab
  rw [hlog]
  exact h.trans (List.prefix_append _ _)

/-- Handling a packet with nothing in between is a run. -/
theorem handle_run (s : Server) (now : UInt64) (message : Packet) (address : SocketAddress) :
    ∃ n, s.run (.arrive now message address :: List.replicate n .advance) =
      ⟨s.handle now message address, .done ()⟩ := by
  have hadvances : ∀ (n : Nat) (c : Config Server),
      (List.replicate n Move.advance).foldl move c = Config.advance^[n] c := by
    intro n
    induction n with
    | zero => exact fun c => rfl
    | succ n ih => exact fun c => ih c.advance
  obtain ⟨n, hn⟩ := Config.exec_eq_iterate (messageHandler now message address) s
  refine ⟨n, ?_⟩
  have hstart : s.run (.arrive now message address :: List.replicate n .advance) =
      (List.replicate n Move.advance).foldl move ⟨s, messageHandler now message address⟩ := rfl
  rw [hstart, hadvances, hn]
  rfl

/-- A packet that arrives, and the time at which it is handled. -/
structure Arrival where
  now : UInt64
  message : Packet
  address : SocketAddress
  deriving DecidableEq

/-- Packets handled one at a time. -/
def serve (s : Server) (arrivals : List Arrival) : Server :=
  arrivals.foldl (fun s a => s.handle a.now a.message a.address) s

theorem serve_concat (s : Server) (arrivals : List Arrival) (a : Arrival) :
    s.serve (arrivals ++ [a]) = (s.serve arrivals).handle a.now a.message a.address := by
  simp [serve]

/-- Packets handled one at a time are a run. -/
theorem serve_run (s : Server) (arrivals : List Arrival) :
    ∃ moves, s.run moves = ⟨s.serve arrivals, .done ()⟩ := by
  induction arrivals using List.reverseRecOn with
  | nil => exact ⟨[], rfl⟩
  | append_singleton arrivals a ih =>
    obtain ⟨moves, hmoves⟩ := ih
    obtain ⟨n, hn⟩ := handle_run (s.serve arrivals) a.now a.message a.address
    refine ⟨moves ++ .arrive a.now a.message a.address :: List.replicate n .advance, ?_⟩
    have hidle : (s.run moves).idle = true := by
      rw [hmoves]
      rfl
    rw [run_resume hidle, hmoves, serve_concat, hn]

/-- On the store a run is the sequence of the transitions of its packets. -/
theorem serve_store (s : Server) (arrivals : List Arrival) :
    (s.serve arrivals).store = s.store.handleAll (arrivals.map fun a => (a.message, a.address)) := by
  induction arrivals using List.reverseRecOn with
  | nil => rfl
  | append_singleton arrivals a ih =>
    rw [serve_concat, (handle_ended _ _ _ _).store, ih]
    simp [Store.handleAll]

/-- A packet as a client fills it in. -/
def clientPacket (type : UInt16) (seqn : UInt64) (text : Str) : Packet :=
  ⟨type, seqn, UInt16.ofNat text.length, 0, (Payload.strcpy text).getD Payload.zero⟩

theorem clientPacket_text {type : UInt16} {seqn : UInt64} {text : Str} (h : Payload.Fits text) :
    (clientPacket type seqn text).text = cString text := by
  obtain ⟨p, hp⟩ := Option.isSome_iff_exists.mp ((strcpy_isSome text).mpr h)
  simp [clientPacket, Packet.text, hp, cString_strcpy hp]

/-- A server on its own, before its first packet. -/
def alone : Server := new ⟨[], 0, true⟩ [] ⟨true, none⟩ ⟨[]⟩

/-- The moves of a handler that has at most `n` actions, with nothing in between. -/
def handling (n : Nat) (message : Packet) (address : SocketAddress) : List Move :=
  .arrive 0 message address :: List.replicate n .advance

end Server

end Piupiu
