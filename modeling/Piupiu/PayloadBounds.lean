import Piupiu.Console
import Piupiu.Notifications
import Piupiu.Lib.History

/-!
# What fits into a payload

A constructor copies its text with `strcpy` into an array of 512 bytes. The server
calls one that copies, for notifications, and puts four bytes around two texts of
up to 511 bytes each. The client limits what it posts and nothing else.
-/
namespace Piupiu

open Atomic

/-- Sender and body leave room for what `MakeNotification` puts around them. -/
def PendingNotification.Short (n : PendingNotification) : Prop :=
  n.senderUsername.length + n.body.length + 4 ≤ packetMaxPayloadLen

/-- The text ends where it ends as a C string. -/
def Terminated (text : Str) : Prop := ∀ b ∈ text, b ≠ 0

theorem terminated_text (message : Packet) : Terminated message.text := cString_ne_zero _

theorem fits_iff_short {n : PendingNotification} (hs : Terminated n.senderUsername)
    (hb : Terminated n.body) : n.Fits ↔ n.Short := by
  have htext : cString (notificationText n.body n.senderUsername) =
      notificationText n.body n.senderUsername := by
    refine cString_of_ne_zero fun b hm => ?_
    simp only [notificationText, List.mem_append, List.mem_cons, List.not_mem_nil, or_false] at hm
    obtain ((rfl | hm) | rfl | rfl) | hm := hm
    · decide
    · exact hs b hm
    · decide
    · decide
    · exact hb b hm
  unfold PendingNotification.Fits Payload.Fits PendingNotification.Short
  rw [htext]
  simp only [notificationText, List.length_append, List.length_cons, List.length_nil]
  omega

namespace Server

/-- No user and no notification carries a NUL. -/
structure Readable (s : Server) : Prop where
  users : ∀ (k : Str) (r : SessionRef), s.sessionManager.sessions[k]? = some r → Terminated k
  queue : ∀ n ∈ s.notificationQueue, Terminated n.senderUsername ∧ Terminated n.body

theorem notifications_readable {s : Server}
    (h : ∀ (k : Str) (r : SessionRef), s.sessionManager.sessions[k]? = some r → Terminated k)
    {message : Packet} {address : SocketAddress} {n : PendingNotification}
    (hn : n ∈ s.store.notifications message address) :
    Terminated n.senderUsername ∧ Terminated n.body := by
  unfold Store.notifications at hn
  split at hn
  · split at hn
    · cases hn
    · next username hname =>
      have hmem := ((SessionManager.getUserName_eq_some _ _ _).mp hname).1
      have huser : Terminated username := by
        have hsessions : s.store.sessions = s.sessionManager := rfl
        rw [hsessions] at hmem
        cases hr : s.sessionManager.sessions[username]? with
        | none => simp [SessionManager.getUserAddresses, hr] at hmem
        | some r => exact h username r hr
      split at hn
      · cases hn
      · obtain ⟨f, -, rfl⟩ := List.mem_map.mp hn
        exact ⟨huser, terminated_text message⟩
  · cases hn

theorem step_readable {s₀ s s' : Server} {now : UInt64} {message : Packet} {address : SocketAddress}
    (h₀ : s₀.Readable) (h : s.Readable) (hstep : Step s₀ now message address s s') :
    s'.Readable := by
  cases hstep with
  | startSession p htype hp =>
    refine ⟨fun k r hr => ?_, h.queue⟩
    simp only [Server.startSession, record, hp] at hr
    by_cases hk : k = message.text
    · rw [hk]
      exact terminated_text message
    · rw [SessionManager.startSession_keys _ _ _ hk] at hr
      exact h.users k r hr
  | endSession p =>
    refine ⟨fun k r hr => ?_, h.queue⟩
    simp only [Server.endSession, record, SessionManager.endSession_sessions] at hr
    exact h.users k r hr
  | enqueue n hn hstore =>
    refine ⟨h.users, fun n' hn' => ?_⟩
    obtain hn' | hn' := List.mem_append.mp hn'
    · exact h.queue n' hn'
    · rw [List.mem_singleton.mp hn']
      exact notifications_readable h₀.users hn
  | sync =>
    unfold Server.sync
    split <;> exact ⟨h.users, h.queue⟩
  | getConnectedUsers =>
    unfold Server.getConnectedUsers
    split <;> exact ⟨h.users, h.queue⟩
  | confirmBuffer =>
    rw [confirmBuffer_eq]
    exact ⟨h.users, h.queue⟩
  | confirmToPrimary =>
    unfold Server.confirmToPrimary
    split <;> exact ⟨h.users, h.queue⟩
  | _ => exact ⟨h.users, h.queue⟩

theorem worker_readable {s : Server} (h : s.Readable) (now : UInt64) :
    (s.pendingNotificationWorker now).Readable := by
  have hsm : (s.pendingNotificationWorker now).sessionManager = s.sessionManager :=
    congrArg Store.sessions (worker_rely now s).store
  refine ⟨by rw [hsm]; exact h.users, fun n hn => h.queue n ?_⟩
  exact s.worker_queue_subset now n hn

theorem readable_preserved : Preserves (fun _ _ _ => True) (fun _ => True) Readable where
  stable _ _ _ _ := trivial
  ended _ _ _ _ _ _ _ _ := trivial
  step _ _ _ _ _ _ _ _ h₀ h hstep := step_readable h₀ h hstep
  worker _ now h := worker_readable h now

/-- A reply that is too long is recorded for the first socket already. -/
theorem overflow_mem_replyEvents {n : PendingNotification} (hlong : ¬n.Fits) (now : UInt64)
    (seqn : Nat) {sockets : List SocketAddress} (hne : sockets ≠ []) :
    .fault .payloadOverflow ∈ replyEvents now n seqn sockets := by
  cases sockets with
  | nil => exact absurd rfl hne
  | cons socket sockets =>
    have hnone : makeNotification now (UInt64.ofNat (seqn + 1)) n.body n.senderUsername = none := by
      rw [← Option.not_isSome_iff_eq_none, makeNotification, makeText_isSome]
      exact hlong
    have hfirst : replyEvent now n (seqn + 1) socket = .fault .payloadOverflow := by
      unfold replyEvent
      rw [hnone]
    rw [replyEvents, hfirst]
    exact List.mem_cons_self

/-- An iteration of the worker overflows a payload exactly when it delivers a
notification that is too long. -/
theorem worker_overflow {s : Server} (h : s.Readable) (now : UInt64) :
    .fault .payloadOverflow ∈ (s.pendingNotificationWorker now).log ↔
      .fault .payloadOverflow ∈ s.log ∨
        ∃ n, s.notificationQueue.head? = some n ∧ s.Online n.recipient ∧ ¬n.Short := by
  obtain ⟨hq, he⟩ | ⟨n, rest, hq, hs, he⟩ | ⟨n, rest, hq, hs, he⟩ |
    ⟨n, rest, sockets, hq, hs, hne, he⟩ := s.worker_cases now
  · rw [he, hq]
    simp
  · rw [he, hq]
    simp [Online, hs, requeue, record]
  · rw [he, hq]
    simp [Online, hs, requeue, record]
  · obtain ⟨hsender, hbody⟩ := h.queue n (by simp [hq])
    have honline : s.Online n.recipient := ⟨sockets, hs, hne⟩
    rw [he, hq]
    simp only [List.mem_append, List.mem_cons, reduceCtorEq, false_or, List.head?_cons,
      Option.some.injEq]
    refine or_congr_right ⟨fun hf => ?_, ?_⟩
    · have hfit := (replyEvents_fault hf).2
      rw [fits_iff_short hsender hbody] at hfit
      exact ⟨n, rfl, honline, hfit⟩
    · rintro ⟨n', rfl, -, hlong⟩
      rw [← fits_iff_short hsender hbody] at hlong
      exact overflow_mem_replyEvents hlong now s.lastSeqn hne

/-- No step of a handler copies a text into a payload. -/
theorem step_overflow {s₀ s s' : Server} {now : UInt64} {message : Packet} {address : SocketAddress}
    (h : Step s₀ now message address s s') :
    .fault .payloadOverflow ∈ s'.log ↔ .fault .payloadOverflow ∈ s.log := by
  obtain ⟨events, hlog, -, hevents, -⟩ := step_events h
  rw [hlog, List.mem_append]
  refine ⟨fun hm => hm.resolve_right fun hm => ?_, .inl⟩
  have hhandler := hevents _ hm
  cases hhandler

/-- An iteration of the worker delivers a short notification, if it delivers one. -/
def ShortDelivery (s : Server) : Move → Prop
  | .worker _ => ∀ n, s.notificationQueue.head? = some n → s.Online n.recipient → n.Short
  | _ => True

theorem move_overflow {Ok : Server → Packet → SocketAddress → Prop} {Rest : Server → Prop}
    {c : Config Server} (hc : Tracked Ok Rest Readable c) (m : Move) :
    .fault .payloadOverflow ∈ (move c m).shared.log ↔
      .fault .payloadOverflow ∈ c.shared.log ∨ ¬c.shared.ShortDelivery m := by
  cases m with
  | worker now =>
    have hworker := worker_overflow hc.holds now
    simp only [ShortDelivery, not_forall, exists_prop]
    exact hworker
  | arrive now message address =>
    have hshared : (move c (.arrive now message address)).shared = c.shared :=
      Config.start_shared _ _
    simp [hshared, ShortDelivery]
  | advance =>
    obtain he | ⟨s₀, -, -, now, message, address, -, hstep⟩ | ⟨now, he, -⟩ := move_cases hc .advance
    · simp [he, ShortDelivery]
    · simp [step_overflow hstep, ShortDelivery]
    · cases he

theorem run_overflow (thisPeer : Peer) (peers : List Peer) (disk : Disk) (profiles : ProfileManager)
    (moves : List Move) :
    .fault .payloadOverflow ∉ ((new thisPeer peers disk profiles).run moves).shared.log ↔
      ∀ k m, moves[k]? = some m →
        ((new thisPeer peers disk profiles).run (moves.take k)).shared.ShortDelivery m := by
  have hreadable : (new thisPeer peers disk profiles).Readable :=
    ⟨fun k r hr => by simp [new, SessionManager.empty] at hr, fun n hn => by simp [new] at hn⟩
  have hiff : ¬.fault .payloadOverflow ∈ ((new thisPeer peers disk profiles).run moves).shared.log ↔
      History.EachStep (fun before m =>
        ((new thisPeer peers disk profiles).run before).shared.ShortDelivery m) moves := by
    apply History.not_wrong_iff fun before =>
      .fault .payloadOverflow ∈ ((new thisPeer peers disk profiles).run before).shared.log
    · simp [run, new]
    · intro before m
      have htracked := run_tracked readable_preserved trivial hreadable (admits_true _ before)
      simp only [run_concat]
      exact move_overflow htracked m
  exact hiff

end Server

namespace Console

/-- The text that a call of a method copies into a payload, or none. -/
def Fitting (c : Console) : Move → Prop
  | .key _ ch => c.running = true → (ch = keyEnter ∨ ch = 10 ∨ ch = 13) → ∀ username,
      CommandParser.parseInput c.userInput = some ⟨true, literal "follow", [username]⟩ →
        Payload.Fits username
  | .packet _ p => c.client.isListening = true → p.type ≠ packetAcceptConnCmd →
      p.type ≠ packetNotification → p.type ≠ packetError → p.type ≠ packetInfo →
      Payload.Fits c.client.profileHandle
  | .connect _ opened => opened = true → Payload.Fits c.client.profileHandle
  | .connectAs _ opened profileHandle _ => opened = true → Payload.Fits profileHandle
  | .shutdown _ => Payload.Fits c.client.profileHandle
  | .followUser _ profile => Payload.Fits profile
  | _ => True

end Console

namespace Client

def Overflown (c : Client) : Prop := .fault .payloadOverflow ∈ c.log

theorem sendMessageToServer_overflown (c : Client) (message : Packet) :
    (c.sendMessageToServer message).Overflown ↔ c.Overflown := by
  obtain ⟨events, he, hevents⟩ := c.sendMessageToServer_eq message
  have hquiet : .fault .payloadOverflow ∉ events := fun hf => by cases hevents _ hf
  simp [Overflown, he, hquiet]

theorem getInfo_overflown (now : UInt64) (c : Client) :
    (c.getInfo now).Overflown ↔ c.Overflown := c.incrementSeqn.sendMessageToServer_overflown _

theorem sendMade_overflown (c : Client) (type : UInt16) (now lastSeqn : UInt64) (text : Str) :
    (c.sendMade (makeText type now lastSeqn text text)).Overflown ↔
      c.Overflown ∨ ¬Payload.Fits text := by
  have hsome := makeText_isSome type now lastSeqn text text
  unfold sendMade
  cases hm : makeText type now lastSeqn text text with
  | some message =>
    rw [hm] at hsome
    have hfits := hsome.mp rfl
    simp only [sendMessageToServer_overflown, hfits, not_true_eq_false, or_false]
  | none =>
    rw [hm] at hsome
    have hlong : ¬Payload.Fits text := fun hfits => by simpa using hsome.mpr hfits
    simp [Overflown, record, hlong]

theorem shutdown_overflown (now : UInt64) (c : Client) :
    (c.shutdown now).Overflown ↔ c.Overflown ∨ ¬Payload.Fits c.profileHandle :=
  sendMade_overflown c.incrementSeqn _ _ _ _

theorem connect_overflown (now : UInt64) (opened : Bool) (c : Client) :
    (c.connect now opened).Overflown ↔
      c.Overflown ∨ ¬(opened = true → Payload.Fits c.profileHandle) := by
  cases opened with
  | true =>
    simp only [forall_const]
    exact sendMade_overflown { c with socketOpen := true }.incrementSeqn _ _ _ _
  | false => simp [connect, Overflown]

theorem followUser_overflown (now : UInt64) (profile : Str) (c : Client) :
    (c.followUser now profile).Overflown ↔ c.Overflown ∨ ¬Payload.Fits profile :=
  sendMade_overflown c.incrementSeqn _ _ _ _

/-- What `Post` accepts fits. -/
theorem post_overflown (now : UInt64) (message : Str) (c : Client) :
    (c.post now message).Overflown ↔ c.Overflown := by
  unfold post
  split
  · next hle =>
    have hfits : Payload.Fits message := fits_of_short (Nat.lt_of_le_of_lt hle (by decide))
    refine (sendMade_overflown c.incrementSeqn _ _ _ _).trans ?_
    simp only [hfits, not_true_eq_false, or_false]
    rfl
  · rfl

theorem listen_overflown (now : UInt64) (p : Packet) (c : Client) :
    (c.listen now p).1.Overflown ↔ c.Overflown ∨ ¬(c.isListening = true →
      p.type ≠ packetAcceptConnCmd → p.type ≠ packetNotification → p.type ≠ packetError →
      p.type ≠ packetInfo → Payload.Fits c.profileHandle) := by
  obtain ⟨hl, h⟩ | ⟨hl, ⟨ht, h⟩ | ⟨ht, h⟩ | ⟨ht, h⟩ | ⟨ht, h⟩ | ⟨ht, h⟩⟩ := c.listen_cases now p
  · simp [h, hl]
  · simp [h, ht, Overflown]
  · simp [h, ht, Overflown]
  · simp [h, ht]
  · simp [h, ht]
  · rw [h, shutdown_overflown]
    simp [hl, ht]

end Client

namespace Console

theorem handleUserInput_overflown (now : UInt64) (c : Console) :
    (c.handleUserInput now c.userInput).client.Overflown ↔ c.client.Overflown ∨ ¬∀ username,
      CommandParser.parseInput c.userInput = some ⟨true, literal "follow", [username]⟩ →
        Payload.Fits username := by
  unfold handleUserInput
  cases hparse : CommandParser.parseInput c.userInput with
  | none => simp [Client.Overflown, Client.record]
  | some result =>
    obtain ⟨foundMatch, command, arguments⟩ := result
    cases foundMatch with
    | false => simpa using Client.post_overflown now c.userInput c.client
    | true =>
      by_cases hfollow : command = literal "follow"
      · subst hfollow
        match arguments with
        | [] => simp [addMessage]
        | [username] => simpa using Client.followUser_overflown now username c.client
        | _ :: _ :: _ => simp [addMessage]
      · have hnone : ∀ username, some (⟨true, command, arguments⟩ : CommandParserResult) ≠
            some ⟨true, literal "follow", [username]⟩ := by
          intro username he
          cases he
          exact hfollow rfl
        simp only [if_true, hfollow, if_false]
        split
        · simp [addMessage, hnone]
        · split
          · simp [hnone]
          · split <;> simp [hnone]

/-- A step of the client overflows a payload exactly when its text does not fit. -/
theorem move_overflown (c : Console) (m : Move) :
    (c.move m).client.Overflown ↔ c.client.Overflown ∨ ¬c.Fitting m := by
  cases m with
  | key now ch =>
    simp only [move, Fitting]
    by_cases hrunning : c.running = true
    swap
    · simp [hrunning]
    rw [if_pos hrunning]
    unfold getUserInput
    by_cases henter : ch = keyEnter ∨ ch = 10 ∨ ch = 13
    · have hback : ¬(ch = keyBackspace ∨ ch = 127) := by
        simp only [keyEnter, keyBackspace] at henter ⊢
        omega
      rw [if_neg hback, if_pos henter]
      simp only [hrunning, henter, forall_const]
      exact handleUserInput_overflown now c
    · simp only [henter, if_false, false_imp_iff, imp_true_iff, not_true_eq_false, or_false]
      split
      · rfl
      · split
        · rfl
        · split
          · split <;> rfl
          · split <;> rfl
  | packet now p =>
    have hlisten := Client.listen_overflown now p c.client
    have hclient : (c.move (.packet now p)).client = (c.client.listen now p).1 := by
      simp only [move, listen]
      split <;> rfl
    rw [hclient]
    exact hlisten
  | connect now opened => exact Client.connect_overflown now opened c.client
  | connectAs now opened profileHandle serverAddress =>
    exact Client.connect_overflown now opened
      { c.client with profileHandle := profileHandle, serverAddress := serverAddress }
  | shutdown now => exact Client.shutdown_overflown now c.client
  | followUser now profile => exact Client.followUser_overflown now profile c.client
  | post now message =>
    have hpost := Client.post_overflown now message c.client
    simpa [move, Fitting] using hpost
  | getInfo now =>
    have hinfo := Client.getInfo_overflown now c.client
    simpa [move, Fitting] using hinfo
  | setProfileHandle profileHandle =>
    simp [move, Fitting, Client.setProfileHandle, Client.Overflown]
  | setServerAddress serverAddress =>
    simp [move, Fitting, Client.setServerAddress, Client.Overflown]

theorem run_overflown (profile : Str) (serverAddress : SocketAddress) (moves : List Move) :
    ¬((launch profile serverAddress).run moves).client.Overflown ↔
      ∀ k m, moves[k]? = some m → ((launch profile serverAddress).run (moves.take k)).Fitting m := by
  have hiff : ¬((launch profile serverAddress).run moves).client.Overflown ↔
      History.EachStep (fun before m => ((launch profile serverAddress).run before).Fitting m)
        moves := by
    apply History.not_wrong_iff fun before =>
      ((launch profile serverAddress).run before).client.Overflown
    · simp [run, launch, Client.new, Client.Overflown]
    · intro before m
      simp only [run_concat]
      exact move_overflown _ m
  exact hiff

end Console

/-- No payload overflows in a run of the server exactly when the worker delivers
short notifications only, and in a run of the client exactly when the handles and
the followed names fit. -/
theorem payloads_fit_iff (thisPeer : Peer) (peers : List Peer) (disk : Disk)
    (profiles : ProfileManager) (moves : List Server.Move) (profile : Str)
    (serverAddress : SocketAddress) (calls : List Console.Move) :
    (.fault .payloadOverflow ∉
        ((Server.new thisPeer peers disk profiles).run moves).shared.log ↔
      ∀ k m, moves[k]? = some m →
        ((Server.new thisPeer peers disk profiles).run (moves.take k)).shared.ShortDelivery m) ∧
    (.fault .payloadOverflow ∉ ((Console.launch profile serverAddress).run calls).client.log ↔
      ∀ k m, calls[k]? = some m →
        ((Console.launch profile serverAddress).run (calls.take k)).Fitting m) :=
  ⟨Server.run_overflow thisPeer peers disk profiles moves,
    Console.run_overflown profile serverAddress calls⟩

/-- A user posts the longest body that a packet holds, and a follower is online. -/
def longPost : List Server.Move :=
  Server.handling 16 (Server.clientPacket packetConnectCmd 0 [97]) ⟨[], 1⟩ ++
    Server.handling 16 (Server.clientPacket packetConnectCmd 0 [98]) ⟨[], 2⟩ ++
    Server.handling 16 (Server.clientPacket packetFollowCmd 1 [97]) ⟨[], 2⟩ ++
    Server.handling 16 (Server.clientPacket packetSendCmd 1 (List.replicate 511 120)) ⟨[], 1⟩ ++
    [.worker 0]

/-- The notification is longer than the body, and a handle of 512 bytes is as long
as the payload without its NUL. -/
theorem payload_overflow :
    .fault .payloadOverflow ∈ (Server.alone.run longPost).shared.log ∧
    .fault .payloadOverflow ∈
      ((Console.launch (List.replicate 512 97) ⟨[], 1⟩).run [.connect 0 true]).client.log := by
  decide +kernel

end Piupiu
