import Piupiu.World
import Piupiu.Linearization
import Piupiu.Acceptance

/-!
# What can still be delivered

A post that a client has sent can still come to the console of each reader who is
connected: the network delivers it, its handler runs to its end, the worker comes to the
notification, and the client of the reader takes it and shows it. This holds where
nothing that the source leaves undefined has happened yet, and where all that waits can
be delivered; then nothing of the kind happens on the way either.
-/
namespace Piupiu

open Atomic Batches

namespace Server

variable {s : Server} {n : PendingNotification} {message : Packet} {address : SocketAddress}

theorem notifications_send (h : n ∈ s.store.notifications message address) :
    message.type = packetSendCmd := by
  by_contra hne
  simp [Store.notifications, hne] at h

theorem exec_pushNotifications (username body : Str) (followers : List ProfileRef) (s : Server) :
    ((pushNotifications username body followers).exec s).1 = { s with
      notificationQueue := s.notificationQueue ++
        followers.map fun follower => ⟨username, body, follower⟩
      log := s.log ++ followers.map fun follower => .enqueued ⟨username, body, follower⟩ } := by
  induction followers generalizing s with
  | nil => simp [pushNotifications]
  | cons follower followers ih =>
    have hexec : (pushNotifications username body (follower :: followers)).exec s =
        (pushNotifications username body followers).exec (s.enqueue ⟨username, body, follower⟩) := rfl
    rw [hexec, ih]
    simp [enqueue, record]

/-- All that the handler of a SEND does is to push the notifications. -/
theorem handle_send (now : UInt64) (h : n ∈ s.store.notifications message address) :
    s.handle now message address = { s with
      notificationQueue := s.notificationQueue ++ s.store.notifications message address
      log := s.log ++ .started message address ::
        (s.store.notifications message address).map .enqueued } := by
  have htype := notifications_send h
  have hcmd : s.handle now message address =
      ((sendCmd message address).exec (s.record (.started message address))).1 := by
    simp [handle, messageHandler, htype, packetConnectCmd, packetDisconnectCmd, packetFollowCmd,
      packetSendCmd]
  cases hname : s.store.sessions.getUserNameByAddressAndIP address with
  | none => simp [Store.notifications, hname] at h
  | some username =>
    cases hp : s.store.profiles.getProfileByName username with
    | none => simp [Store.notifications, hname, hp] at h
    | some p =>
      have hall : s.store.notifications message address =
          (s.store.profiles.deref p).followers.map fun follower =>
            ⟨username, message.text, follower⟩ := by
        simp [Store.notifications, htype, hname, hp]
      have hname' : s.sessionManager.getUserNameByAddressAndIP address = some username := hname
      have hp' : s.profileManager.getProfileByName username = some p := hp
      have hexec : ((sendCmd message address).exec (s.record (.started message address))).1 =
          ((pushNotifications username message.text (s.profileManager.deref p).followers).exec
            (s.record (.started message address))).1 := by
        simp [sendCmd, record, hname', hp']
      rw [hcmd, hexec, exec_pushNotifications, hall]
      simp [record, store]

theorem recipientSockets_congr {s' : Server} (h : s'.store = s.store) (f : ProfileRef) :
    s'.recipientSockets f = s.recipientSockets f := by
  have hprofiles : s'.profileManager = s.profileManager := congrArg Store.profiles h
  have hsessions : s'.sessionManager = s.sessionManager := congrArg Store.sessions h
  rw [recipientSockets, recipientSockets, hprofiles, hsessions]

/-- The notification fits its packet, and the session of its recipient was set. -/
def Deliverable (s : Server) (n : PendingNotification) : Prop :=
  n.Fits ∧ s.recipientSockets n.recipient ≠ none

instance (s : Server) (n : PendingNotification) : Decidable (s.Deliverable n) := by
  unfold Deliverable
  infer_instance

/-- An iteration meets nothing undefined when what waits can be delivered, and what waits
after it still can. -/
theorem worker_deliverable (now : UInt64) (h : ∀ x ∈ s.notificationQueue, s.Deliverable x) :
    faults (s.pendingNotificationWorker now).log = faults s.log ∧
      ∀ x ∈ (s.pendingNotificationWorker now).notificationQueue,
        (s.pendingNotificationWorker now).Deliverable x := by
  constructor
  · obtain ⟨-, he⟩ | ⟨x, rest, hq, hs, -⟩ | ⟨x, rest, hq, -, he⟩ | ⟨x, rest, sockets, hq, -, -, he⟩ :=
      s.worker_cases now
    · rw [he]
    · exact absurd hs (h x (by simp [hq])).2
    · simp [he, requeue, record, faults, Event.fault?]
    · have hnone : faults (replyEvents now x s.lastSeqn sockets) = [] := by
        refine List.eq_nil_iff_forall_not_mem.mpr fun f hf => ?_
        exact (replyEvents_fault (mem_faults.mp hf)).2 (h x (by simp [hq])).1
      have hdelivered : faults (.delivered x sockets :: replyEvents now x s.lastSeqn sockets) =
          faults (replyEvents now x s.lastSeqn sockets) := rfl
      rw [he, faults_append, hdelivered, hnone, List.append_nil]
  · intro x hx
    obtain ⟨hfits, hsockets⟩ := h x (s.worker_queue_subset now x hx)
    exact ⟨hfits, by rwa [recipientSockets_congr (worker_rely now s).store]⟩

theorem workers_faults (now : UInt64) (k : Nat) (h : ∀ x ∈ s.notificationQueue, s.Deliverable x) :
    faults ((pendingNotificationWorker now)^[k] s).log = faults s.log := by
  induction k generalizing s with
  | zero => rfl
  | succ k ih =>
    obtain ⟨hlog, hqueue⟩ := worker_deliverable now h
    rw [Function.iterate_succ_apply, ih hqueue, hlog]

theorem worker_recipientSockets (now : UInt64) (k : Nat) (f : ProfileRef) :
    ((pendingNotificationWorker now)^[k] s).recipientSockets f = s.recipientSockets f := by
  induction k generalizing s with
  | zero => rfl
  | succ k ih =>
    rw [Function.iterate_succ_apply, ih]
    exact recipientSockets_congr (worker_rely now s).store f

/-- The worker comes to what waits after as many iterations as others are before it. -/
theorem worker_front (now : UInt64) {before after : List PendingNotification}
    (h : s.notificationQueue = before ++ n :: after) :
    ∃ rest, ((pendingNotificationWorker now)^[before.length] s).notificationQueue = n :: rest := by
  induction before generalizing s after with
  | nil => exact ⟨after, h⟩
  | cons x before ih =>
    have hnext : ∃ after', (s.pendingNotificationWorker now).notificationQueue =
        before ++ n :: after' := by
      obtain ⟨hq, -⟩ | ⟨y, rest, hq, -, he⟩ | ⟨y, rest, hq, -, he⟩ | ⟨y, rest, sockets, hq, -, -, he⟩ :=
        s.worker_cases now
      · rw [hq] at h
        cases h
      all_goals
        rw [hq] at h
        obtain ⟨rfl, rfl⟩ := List.cons.inj h
        rw [he]
      · exact ⟨after ++ [y], by simp [requeue, record]⟩
      · exact ⟨after ++ [y], by simp [requeue, record]⟩
      · exact ⟨after, rfl⟩
    obtain ⟨after', hqueue⟩ := hnext
    rw [List.length_cons, Function.iterate_succ_apply]
    exact ih hqueue

/-- The iteration that finds it in front sends it to every socket of its recipient. -/
theorem worker_notifies (now : UInt64) {rest : List PendingNotification}
    {sockets : List SocketAddress} (hq : s.notificationQueue = n :: rest)
    (hsockets : s.recipientSockets n.recipient = some sockets) {a : SocketAddress} (ha : a ∈ sockets)
    (hfits : n.Fits) : ∃ message,
      .sent a message .notification ∈ (s.pendingNotificationWorker now).log ∧
      message.type = packetNotification ∧
      message.text = cString (notificationText n.body n.senderUsername) := by
  obtain ⟨he, -⟩ | ⟨x, rest', he, hs, -⟩ | ⟨x, rest', he, hs, -⟩ | ⟨x, rest', sockets', he, hs, -, hw⟩ :=
    s.worker_cases now
  all_goals
    rw [he] at hq
    cases hq
  · rw [hsockets] at hs
    cases hs
  · rw [hsockets] at hs
    cases hs
    cases ha
  · rw [hsockets] at hs
    cases hs
    have hnotice : (a, cString (notificationText n.body n.senderUsername)) ∈
        notices (replyEvents now n s.lastSeqn sockets) := by
      rw [notices_replyEvents, if_pos hfits]
      exact List.mem_map.mpr ⟨a, ha, rfl⟩
    obtain ⟨e, hmem, hnotice⟩ := List.mem_filterMap.mp hnotice
    split at hnotice
    · next address message =>
      obtain ⟨rfl, -⟩ := Prod.ext_iff.mp (Option.some.inj hnotice)
      obtain ⟨-, htype, htext⟩ := replyEvents_due hmem
      refine ⟨message, ?_, htype, htext⟩
      rw [hw]
      exact List.mem_append_right _ (List.mem_cons_of_mem _ hmem)
    · cases hnotice

end Server

/-- A client that listens shows a notification at the next turn of `Reorder`, and has
nothing to say to it. -/
theorem Terminal.shows (s : Sorter Packet.before) {t : Terminal} {p : Packet} (now : UInt64)
    (hstage : t.stage = .connected) (hlistening : t.console.client.isListening = true)
    (htype : p.type = packetNotification) :
    ⟨.notification, p.text, now⟩ ∈
      ((t.move s (.packet now p)).move s (.reorder now)).console.messages ∧
    ((t.move s (.packet now p)).move s (.reorder now)).console.client.log =
      t.console.client.log := by
  have hlisten : (t.console.listen now p).client =
      { t.console.client with packetList := t.console.client.packetList ++ [p] } := by
    rw [Console.listen_client, Client.listen, if_pos hlistening, if_neg (by rw [htype]; decide),
      if_neg (by rw [htype]; decide), if_pos htype]
  have hmove : (t.move s (.packet now p)).move s (.reorder now) =
      { t with console := ((t.console.listen now p).reorder s now).1 } := by
    simp [Terminal.move, Console.move, hstage]
  rw [hmove]
  constructor
  · have hmessages : ((t.console.listen now p).reorder s now).1.messages =
        (t.console.listen now p).messages ++ (s.sort (t.console.listen now p).client.packetList).map
          fun p => ⟨.notification, p.text, now⟩ := addNotifications_messages _ _ _
    have hsorted : p ∈ s.sort (t.console.client.packetList ++ [p]) :=
      (s.perm _).symm.subset (List.mem_append_right _ List.mem_cons_self)
    show _ ∈ ((t.console.listen now p).reorder s now).1.messages
    rw [hmessages, hlisten]
    exact List.mem_append_right _ (List.mem_map.mpr ⟨p, hsorted, rfl⟩)
  · have hclient : ((t.console.listen now p).reorder s now).1.client =
        { (t.console.listen now p).client with packetList := [] } := (Console.addNotifications _ _ _).1
    show ((t.console.listen now p).reorder s now).1.client.log = _
    rw [hclient, hlisten]

namespace World

/-- Neither a server nor a client has met anything that the source leaves undefined. -/
def Faultless {ι : Type} (w : World ι) : Prop :=
  (∀ n, faults (w.server n).shared.log = []) ∧ ∀ i, (w.terminal i).console.client.faults = []

theorem Faultless.update_server {ι : Type} {w : World ι} (h : w.Faultless) {n : Node} {c : Threads Server}
    (hc : faults c.shared.log = faults (w.server n).shared.log) :
    Faultless { w with server := Function.update w.server n c } := by
  refine ⟨fun n' => ?_, h.2⟩
  by_cases hn : n' = n
  · subst hn
    show faults (Function.update w.server n' c n').shared.log = []
    rw [Function.update_self, hc, h.1]
  · show faults (Function.update w.server n c n').shared.log = []
    rw [Function.update_of_ne hn, h.1]

theorem Faultless.update_terminal {ι : Type} [DecidableEq ι] {w : World ι} (h : w.Faultless) {i : ι}
    {t : Terminal} (ht : t.console.client.faults = (w.terminal i).console.client.faults) :
    Faultless { w with terminal := Function.update w.terminal i t } := by
  refine ⟨h.1, fun i' => ?_⟩
  by_cases hi : i' = i
  · subst hi
    show (Function.update w.terminal i' t i').console.client.faults = []
    rw [Function.update_self, ht, h.2]
  · show (Function.update w.terminal i t i').console.client.faults = []
    rw [Function.update_of_ne hi, h.2]

variable {ι : Type} [DecidableEq ι] (s : Sorter Packet.before) (site : Site ι)

theorem run_append (w : World ι) (moves more : List (Move ι)) :
    w.run s site (moves ++ more) = (w.run s site moves).run s site more := List.foldl_append

/-- A move of one server, done again and again. -/
theorem run_replicate (mv : Move ι) {n : Node} {m : Server.Parallel.Move}
    (hserver : ∀ w, serverMove site w mv = some (n, m)) (hclient : ∀ w, clientMove site w mv = none)
    (w : World ι) (k : Nat) :
    w.run s site (List.replicate k mv) = { w with
      server := Function.update w.server n ((fun c => Server.Parallel.move c m)^[k] (w.server n)) } := by
  induction k generalizing w with
  | zero => simp [run]
  | succ k ih =>
    have hmove : w.move s site mv =
        { w with server := Function.update w.server n (Server.Parallel.move (w.server n) m) } := by
      simp [move, hserver, hclient]
    have hrun : w.run s site (List.replicate (k + 1) mv) =
        (w.move s site mv).run s site (List.replicate k mv) := rfl
    rw [hrun, ih, hmove, Function.iterate_succ_apply]
    simp

theorem run_workers (w : World ι) (n : Node) (now : UInt64) (k : Nat) :
    w.run s site (List.replicate k (.worker n now)) = { w with
      server := Function.update w.server n
        ⟨(Server.pendingNotificationWorker now)^[k] (w.server n).shared, (w.server n).running⟩ } := by
  have hiterate : ∀ c : Threads Server, (fun c => Server.Parallel.move c (.worker now))^[k] c =
      ⟨(Server.pendingNotificationWorker now)^[k] c.shared, c.running⟩ := by
    induction k with
    | zero => exact fun c => rfl
    | succ k ih => exact fun c => ih _
  rw [run_replicate s site (.worker n now) (fun _ => rfl) (fun _ => rfl) w k, hiterate]

variable {site} {s}

/-- A packet of a client comes to the primary, and its handler goes through. -/
theorem exists_handled {w : World ι} {j : ι} {message : Packet}
    (hsent : w.Sent (.client j) (site.deployment.address .primary) message) (now : UInt64) :
    ∃ more running, w.run s site more = { w with
      server := Function.update w.server .primary
        ⟨(w.server .primary).shared.handle now message (site.host j), running⟩ } := by
  obtain ⟨k, hk⟩ := List.mem_iff_getElem?.mp hsent
  let handler := Server.messageHandler now message (site.host j)
  obtain ⟨steps, hsteps⟩ := Threads.iterate_advance (w.server .primary).running handler
    (w.server .primary).shared
  have harrive : serverMove site w (.toServer now j k) =
      some (.primary, .arrive now message (site.host j)) := by
    simp [serverMove, hk, Cluster.nodeAt_address]
  have hmove : w.move s site (.toServer now j k) = { w with
      server := Function.update w.server .primary
        ⟨(w.server .primary).shared, (w.server .primary).running ++ [handler]⟩ } := by
    simp only [move, harrive, clientMove]
    rfl
  refine ⟨.toServer now j k :: List.replicate steps
    (.advance .primary (w.server .primary).running.length),
    (w.server .primary).running ++ [.done ()], ?_⟩
  have hrun : w.run s site (.toServer now j k :: List.replicate steps
      (.advance .primary (w.server .primary).running.length)) =
        (w.move s site (.toServer now j k)).run s site (List.replicate steps
          (.advance .primary (w.server .primary).running.length)) := rfl
  rw [hrun, run_replicate s site (.advance .primary _) (fun _ => rfl) (fun _ => rfl), hmove]
  simp only [Function.update_self, Function.update_idem]
  exact congrArg (fun c => World.mk (Function.update w.server .primary c) w.terminal) hsteps

/-- A notification that was sent to a client comes to its console. -/
theorem exists_shown {w : World ι} {i : ι} {n : Node} {message : Packet}
    (hfaultless : w.Faultless)
    (hsent : .sent (site.host i) message .notification ∈ (w.server n).shared.log)
    (htype : message.type = packetNotification) (hstage : (w.terminal i).stage = .connected)
    (hlistening : (w.terminal i).console.client.isListening = true) :
    ∃ more, (w.run s site more).Faultless ∧
      ∃ m ∈ ((w.run s site more).terminal i).console.messages,
        m.type = .notification ∧ m.body = message.text := by
  obtain ⟨k, hk⟩ := List.mem_iff_getElem?.mp hsent
  have hcome : clientMove site w (.toClient 0 n k i) = some (i, .packet 0 message) := by
    simp [clientMove, hk]
  let reorder : Move ι := .terminal i (.reorder 0) fun _ _ h => by cases h
  have hrun : w.run s site [.toClient 0 n k i, reorder] = { w with
      terminal := Function.update w.terminal i
        (((w.terminal i).move s (.packet 0 message)).move s (.reorder 0)) } := by
    have hmove : w.move s site (.toClient 0 n k i) = { w with
        terminal := Function.update w.terminal i ((w.terminal i).move s (.packet 0 message)) } := by
      simp only [move, hcome]
      rfl
    have hboth : w.run s site [.toClient 0 n k i, reorder] =
        (w.move s site (.toClient 0 n k i)).move s site reorder := rfl
    rw [hboth, hmove]
    simp [move, reorder, serverMove, clientMove]
  obtain ⟨hshown, hlog⟩ := Terminal.shows s 0 hstage hlistening htype
  refine ⟨[.toClient 0 n k i, reorder], ?_, ⟨.notification, message.text, 0⟩, ?_, rfl, rfl⟩
  · rw [hrun]
    exact hfaultless.update_terminal (congrArg (List.filterMap ClientEvent.fault?) hlog)
  · rw [hrun]
    show _ ∈ (Function.update w.terminal i _ i).console.messages
    rw [Function.update_self]
    exact hshown

/-- What waits on the primary for a connected reader can still come to its console, when
all that waits can be delivered. -/
theorem waiting_can_be_shown {w : World ι} {i : ι} {x : PendingNotification}
    {sockets : List SocketAddress} (hfaultless : w.Faultless)
    (hqueue : ∀ y ∈ (w.server .primary).shared.notificationQueue,
      (w.server .primary).shared.Deliverable y)
    (hwaits : x ∈ (w.server .primary).shared.notificationQueue)
    (hsockets : (w.server .primary).shared.recipientSockets x.recipient = some sockets)
    (hi : site.host i ∈ sockets) (hstage : (w.terminal i).stage = .connected)
    (hlistening : (w.terminal i).console.client.isListening = true) :
    ∃ more, (w.run s site more).Faultless ∧
      ∃ m ∈ ((w.run s site more).terminal i).console.messages, m.type = .notification ∧
        m.body = cString (notificationText x.body x.senderUsername) := by
  obtain ⟨before, after, hbefore⟩ := List.append_of_mem hwaits
  have hfits := (hqueue x hwaits).1
  have hrun := run_workers s site w .primary 0 (before.length + 1)
  have hfaults := Server.workers_faults 0 (before.length + 1) hqueue
  obtain ⟨rest, hfront⟩ := Server.worker_front 0 hbefore
  rw [← Server.worker_recipientSockets 0 before.length] at hsockets
  obtain ⟨message, hsent, htype, htext⟩ := Server.worker_notifies 0 hfront hsockets hi hfits
  rw [← Function.iterate_succ_apply' (Server.pendingNotificationWorker 0)] at hsent
  have hnext := hfaultless.update_server (c := ⟨(Server.pendingNotificationWorker 0)^[before.length + 1]
    (w.server .primary).shared, (w.server .primary).running⟩) hfaults
  rw [← hrun] at hnext
  have hsent' : .sent (site.host i) message .notification ∈ ((w.run s site
      (List.replicate (before.length + 1) (.worker .primary 0))).server .primary).shared.log := by
    rw [hrun]
    show _ ∈ (Function.update w.server .primary _ .primary).shared.log
    rw [Function.update_self]
    exact hsent
  obtain ⟨more, hdone, m, hm, hmtype, hbody⟩ := exists_shown (s := s) hnext hsent' htype
    (by rw [hrun]; exact hstage) (by rw [hrun]; exact hlistening)
  rw [← run_append] at hdone hm
  exact ⟨_, hdone, m, hm, hmtype, hbody.trans htext⟩

/-- In every world that is reached with nothing undefined on the way: a post that a client
has sent can still come to the console of every reader who is connected, when all that
waits, and all that the post is to bring, can be delivered. -/
theorem post_can_be_shown (disk : Node → Disk) (moves : List (Move ι)) {i j : ι} {message : Packet}
    {x : PendingNotification} {sockets : List SocketAddress}
    (hfaultless : ((start site disk).run s site moves).Faultless)
    (hsent : ((start site disk).run s site moves).Sent (.client j) (site.deployment.address .primary)
      message)
    (hx : x ∈ (((start site disk).run s site moves).server .primary).shared.store.notifications message
      (site.host j))
    (hwaiting : ∀ y ∈ (((start site disk).run s site moves).server .primary).shared.notificationQueue,
      (((start site disk).run s site moves).server .primary).shared.Deliverable y)
    (hposted : ∀ y ∈ (((start site disk).run s site moves).server
      .primary).shared.store.notifications message (site.host j),
      (((start site disk).run s site moves).server .primary).shared.Deliverable y)
    (hsockets : (((start site disk).run s site moves).server .primary).shared.recipientSockets
      x.recipient = some sockets)
    (hi : site.host i ∈ sockets)
    (hstage : (((start site disk).run s site moves).terminal i).stage = .connected) :
    ∃ more, ((start site disk).run s site (moves ++ more)).Faultless ∧
      ∃ m ∈ (((start site disk).run s site (moves ++ more)).terminal i).console.messages,
        m.type = .notification ∧ m.body = cString (notificationText x.body x.senderUsername) := by
  have hlistening := ((run_keeps s site disk moves).2 i).listening (by rw [hstage]; decide)
  simp only [run_append]
  generalize (start site disk).run s site moves = w at *
  obtain ⟨handled, running, hrun⟩ := exists_handled (s := s) hsent 0
  have hprimary : ((w.run s site handled).server .primary).shared =
      (w.server .primary).shared.handle 0 message (site.host j) := by
    simp [hrun]
  have hdone : (w.run s site handled).Faultless := by
    rw [hrun]
    refine hfaultless.update_server ?_
    simp [Server.handle_send 0 hx, faults, Event.fault?]
  rw [Server.handle_send 0 hx] at hprimary
  obtain ⟨more, hmore, m, hm, hmtype, hbody⟩ := waiting_can_be_shown (s := s) (x := x) hdone
    (by
      rw [hprimary]
      intro y hy
      exact (List.mem_append.mp hy).elim (hwaiting y) (hposted y))
    (by rw [hprimary]; exact List.mem_append_right _ hx) (by rw [hprimary]; exact hsockets) hi
    (by rw [hrun]; exact hstage) (by rw [hrun]; exact hlistening)
  rw [← run_append] at hmore hm
  exact ⟨handled ++ more, hmore, m, hm, hmtype, hbody⟩

/-- The two users as far as the post, which the network still has. -/
def posted : List (Move Bool) :=
  connects false ++ served false 0 0 ++ connects true ++ served true 0 1 ++
    types true (literal "/follow a") ++ served true 1 2 ++ types false (literal "m")

theorem post_can_be_shown_posted : ∃ more,
    ((start pair fun _ => ⟨true, none⟩).run insertion pair (posted ++ more)).Faultless ∧
    ∃ m ∈ (((start pair fun _ => ⟨true, none⟩).run insertion pair (posted ++ more)).terminal
      true).console.messages, m.type = .notification ∧ m.body = cString (notificationText [109] [97]) := by
  have hfaultless : ((start pair fun _ => ⟨true, none⟩).run insertion pair posted).Faultless := by
    constructor
    · rintro (_ | i)
      · decide +kernel
      · revert i
        decide +kernel
    · decide +kernel
  have hsent : ((start pair fun _ => ⟨true, none⟩).run insertion pair posted).Sent (.client false)
      (pair.deployment.address .primary) (Server.clientPacket packetSendCmd 3 [109]) := by
    unfold Sent
    decide +kernel
  have hx : (⟨[97], [109], 1⟩ : PendingNotification) ∈
      (((start pair fun _ => ⟨true, none⟩).run insertion pair posted).server
        .primary).shared.store.notifications (Server.clientPacket packetSendCmd 3 [109])
          (pair.host false) := by
    decide +kernel
  have hsockets : (((start pair fun _ => ⟨true, none⟩).run insertion pair posted).server
      .primary).shared.recipientSockets 1 = some [pair.host true] := by
    decide +kernel
  exact post_can_be_shown (fun _ => ⟨true, none⟩) posted hfaultless hsent hx (by decide +kernel)
    (by decide +kernel) hsockets List.mem_cons_self (by decide +kernel)

end World

end Piupiu
