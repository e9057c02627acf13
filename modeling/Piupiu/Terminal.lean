import Piupiu.ReorderBuffer
import Piupiu.InputLines

/-!
# The client program

`main` with three arguments: it connects, lets the user type until the console stops
running, and shuts the client down. Meanwhile the listening and the reordering thread
run; `Connect` starts them.
-/
namespace Piupiu

open Batches

inductive MainStage where
  | launched
  | connected
  | ended
  deriving DecidableEq

structure Terminal where
  console : Console
  stage : MainStage

/-- What a client with this handle asks its server for: it connects and disconnects
under its own handle only. -/
def Command (handle : Str) (message : Packet) : Prop :=
  (message.type = packetConnectCmd ∨ message.type = packetDisconnectCmd) ∧ message.text = handle ∨
    message.type = packetFollowCmd ∨ message.type = packetSendCmd

/-- The two kinds of packets a server has for a client. -/
def Expected (p : Packet) : Prop := p.type = packetAcceptConnCmd ∨ p.type = packetNotification

namespace Client

/-- The events of `c'` are those of `c` and commands to the server of `c`. -/
structure Speaks (c c' : Client) : Prop where
  handle : c'.profileHandle = c.profileHandle
  server : c'.serverAddress = c.serverAddress
  log : ∃ events, c'.log = c.log ++ events ∧ ∀ address message, .sent address message ∈ events →
    address = c.serverAddress ∧ Command (cString c.profileHandle) message

theorem Speaks.same {c c' : Client} (handle : c'.profileHandle = c.profileHandle)
    (server : c'.serverAddress = c.serverAddress) (log : c'.log = c.log) : Speaks c c' :=
  ⟨handle, server, [], by rw [log, List.append_nil], fun _ _ h => by cases h⟩

/-- A text that was copied into a packet is the text of the packet. -/
theorem makeText_text {type : UInt16} {now lastSeqn : UInt64} {argument text : Str} {message : Packet}
    (h : makeText type now lastSeqn argument text = some message) : message.text = cString text := by
  obtain ⟨payload, hpayload, rfl⟩ := Option.map_eq_some_iff.mp h
  exact cString_strcpy hpayload

theorem sendMade_speaks (c : Client) (made : Option Packet)
    (h : ∀ message, made = some message → Command (cString c.profileHandle) message) :
    Speaks c (c.sendMade made) := by
  obtain ⟨events, he, hevents⟩ := c.sendMade_eq made
  rw [he]
  refine ⟨rfl, rfl, events, rfl, fun address m hm => ?_⟩
  obtain ⟨message, hmade, hsent⟩ | hfault := hevents _ hm
  · cases hsent
    exact ⟨rfl, h m hmade⟩
  · cases hfault

theorem shutdown_speaks (now : UInt64) (c : Client) : Speaks c (c.shutdown now) := by
  have h := sendMade_speaks c.incrementSeqn
    (makeDisconnectCommand now c.incrementSeqn.lastSentSeqn c.profileHandle) fun message hm =>
      .inl ⟨.inr (makeText_type hm), makeText_text hm⟩
  exact ⟨h.handle, h.server, h.log⟩

theorem connect_speaks (now : UInt64) (c : Client) : Speaks c (c.connect now true) := by
  have hcommand : ∀ message, makeConnectCommand now c.incrementSeqn.lastSentSeqn c.profileHandle =
      some message → Command (cString c.profileHandle) message := fun message hm =>
    .inl ⟨.inl (makeText_type hm), makeText_text hm⟩
  have h := sendMade_speaks { c with socketOpen := true }.incrementSeqn _ hcommand
  exact ⟨h.handle, h.server, h.log⟩

theorem followUser_speaks (now : UInt64) (profile : Str) (c : Client) :
    Speaks c (c.followUser now profile) := by
  have h := sendMade_speaks c.incrementSeqn
    (makeFollowCommand now c.incrementSeqn.lastSentSeqn profile) fun message hm =>
      .inr (.inl (makeText_type hm))
  exact ⟨h.handle, h.server, h.log⟩

theorem post_speaks (now : UInt64) (message : Str) (c : Client) : Speaks c (c.post now message) := by
  unfold post
  split
  · have h := sendMade_speaks c.incrementSeqn
      (makeSendCommand now c.incrementSeqn.lastSentSeqn message) fun made hm =>
        .inr (.inr (makeText_type hm))
    exact ⟨h.handle, h.server, h.log⟩
  · exact .same rfl rfl rfl

end Client

namespace Console

/-- What the keys can do: the client may speak, and the console may say one of the two
things that it says on its own. -/
structure Typed (c c' : Console) : Prop where
  client : Client.Speaks c.client c'.client
  listening : c'.client.isListening = c.client.isListening
  packetList : c'.client.packetList = c.client.packetList
  messages : ∀ m ∈ c'.messages, m ∈ c.messages ∨ m.type = .error ∧ m.body = complaint ∨
    m.type = .info ∧ m.body = helpPage

theorem Typed.spoken {c : Console} {client : Client} (h : Client.Speaks c.client client)
    (hlistening : client.isListening = c.client.isListening)
    (hlist : client.packetList = c.client.packetList) : Typed c { c with client := client } :=
  ⟨h, hlistening, hlist, fun _ hm => .inl hm⟩

theorem Typed.quiet {c c' : Console} (hclient : c'.client = c.client)
    (hmessages : c'.messages = c.messages) : Typed c c' :=
  ⟨hclient ▸ .same rfl rfl rfl, by rw [hclient], by rw [hclient], fun _ hm => .inl (hmessages ▸ hm)⟩

theorem Typed.said {c : Console} {type : MessageType} {body : Str} (now : UInt64)
    (h : type = .error ∧ body = complaint ∨ type = .info ∧ body = helpPage) :
    Typed c (c.addMessage type body now) := by
  refine ⟨.same rfl rfl rfl, rfl, rfl, fun m hm => ?_⟩
  obtain hm | hm := List.mem_append.mp hm
  · exact .inl hm
  · rw [List.mem_singleton.mp hm]
    exact .inr h

theorem sendMade_listening (c : Client) (made : Option Packet) :
    (c.sendMade made).isListening = c.isListening := by
  obtain ⟨events, he, -⟩ := c.sendMade_eq made
  rw [he]

theorem handleUserInput_typed (now : UInt64) (input : Str) (c : Console) :
    Typed c (c.handleUserInput now input) := by
  unfold handleUserInput
  split
  · refine .spoken ⟨rfl, rfl, [.fault .outOfRange], rfl, fun _ _ hm => by simp at hm⟩ rfl rfl
  · split
    · split
      · split
        · next username _ =>
          exact .spoken (Client.followUser_speaks now username c.client) (sendMade_listening _ _)
            (Client.followUser_packetList _ _ _)
        · exact .said now (.inl ⟨rfl, rfl⟩)
      · split
        · exact .said now (.inr ⟨rfl, rfl⟩)
        · split
          · exact .quiet rfl rfl
          · split <;> exact .quiet rfl rfl
    · refine .spoken (Client.post_speaks now c.userInput c.client) ?_ (Client.post_packetList _ _ _)
      unfold Client.post
      split
      · exact sendMade_listening _ _
      · rfl

theorem getUserInput_typed (now : UInt64) (ch : Int) (c : Console) :
    Typed c (c.getUserInput now ch) := by
  unfold getUserInput
  split
  · exact .quiet rfl rfl
  · split
    · have h := handleUserInput_typed now c.userInput c
      exact ⟨h.client, h.listening, h.packetList, h.messages⟩
    · split
      · exact .quiet rfl rfl
      · split
        · split <;> exact .quiet rfl rfl
        · split <;> exact .quiet rfl rfl

theorem listen_client (now : UInt64) (p : Packet) (c : Console) :
    (c.listen now p).client = (c.client.listen now p).1 := by
  unfold listen
  generalize c.client.listen now p = answer
  obtain ⟨client, _ | message⟩ := answer <;> rfl

end Console

namespace Terminal

/-- A step of `main`, or a turn of one of the two threads. -/
inductive Move where
  | connect (now : UInt64)
  | key (now : UInt64) (ch : Int)
  | shutdown (now : UInt64)
  | packet (now : UInt64) (p : Packet)
  | reorder (now : UInt64)

def launch (profile : Str) (serverAddress : SocketAddress) : Terminal :=
  ⟨.launch profile serverAddress, .launched⟩

variable (s : Sorter Packet.before)

/-- The socket is taken to open. -/
def move (t : Terminal) : Move → Terminal
  | .connect now =>
    if t.stage = .launched then ⟨t.console.move (.connect now true), .connected⟩ else t
  | .key now ch =>
    if t.stage = .connected then { t with console := t.console.move (.key now ch) } else t
  | .shutdown now =>
    if t.stage = .connected ∧ t.console.running = false then
      ⟨t.console.move (.shutdown now), .ended⟩ else t
  | .packet now p =>
    if t.stage = .launched then t else { t with console := t.console.move (.packet now p) }
  | .reorder now =>
    if t.stage = .launched then t else { t with console := (t.console.reorder s now).1 }

/-- Every move adds to the log of the client. -/
theorem move_log (t : Terminal) (m : Move) :
    t.console.client.log <+: (t.move s m).console.client.log := by
  have hspeaks : ∀ {c : Client}, Client.Speaks t.console.client c → t.console.client.log <+: c.log := by
    intro c h
    obtain ⟨events, hlog, -⟩ := h.log
    exact ⟨events, hlog.symm⟩
  cases m with
  | connect now =>
    simp only [move]
    split
    · exact hspeaks (Client.connect_speaks now t.console.client)
    · exact List.prefix_rfl
  | key now ch =>
    simp only [move, Console.move]
    split
    · split
      · exact hspeaks (Console.getUserInput_typed now ch t.console).client
      · exact List.prefix_rfl
    · exact List.prefix_rfl
  | shutdown now =>
    simp only [move]
    split
    · exact hspeaks (Client.shutdown_speaks now t.console.client)
    · exact List.prefix_rfl
  | packet now p =>
    simp only [move]
    split
    · exact List.prefix_rfl
    · change _ <+: (t.console.listen now p).client.log
      rw [Console.listen_client]
      obtain ⟨-, he⟩ | ⟨-, ⟨-, he⟩ | ⟨-, he⟩ | ⟨-, he⟩ | ⟨-, he⟩ | ⟨-, he⟩⟩ :=
        t.console.client.listen_cases now p
      all_goals rw [he]
      exact hspeaks (Client.shutdown_speaks now t.console.client)
  | reorder now =>
    simp only [move]
    split
    · exact List.prefix_rfl
    · have hclient : (t.console.reorder s now).1.client =
          { t.console.client with packetList := [] } := (Console.addNotifications _ _ _).1
      rw [hclient]

/-- What holds of a client to which only packets `Came` have come. -/
structure Keeps (Came : Packet → Prop) (profile : Str) (server : SocketAddress) (t : Terminal) :
    Prop where
  ofHandle : t.console.client.profileHandle = Client.trimCopy profile
  ofServer : t.console.client.serverAddress = server
  commands : ∀ address message, .sent address message ∈ t.console.client.log →
    address = server ∧ Command (cString (Client.trimCopy profile)) message
  listening : t.stage ≠ .ended → t.console.client.isListening = true
  waiting : ∀ p ∈ t.console.client.packetList, Came p ∧ p.type = packetNotification
  notifications : ∀ m ∈ t.console.messages, m.type = .notification →
    ∃ p, Came p ∧ p.type = packetNotification ∧ m.body = p.text
  errors : ∀ m ∈ t.console.messages, m.type = .error → m.body = Console.complaint
  infos : ∀ m ∈ t.console.messages, m.type = .info → m.body = Console.helpPage

variable {s} {Came : Packet → Prop} {profile : Str} {server : SocketAddress} {t : Terminal}

theorem Keeps.mono {Came' : Packet → Prop} (h : t.Keeps Came profile server)
    (hcame : ∀ p, Came p → Came' p) : t.Keeps Came' profile server where
  ofHandle := h.ofHandle
  ofServer := h.ofServer
  commands := h.commands
  listening := h.listening
  waiting p hp := (h.waiting p hp).imp_left (hcame p)
  notifications m hm ht := by
    obtain ⟨p, hp, hbody⟩ := h.notifications m hm ht
    exact ⟨p, hcame p hp, hbody⟩
  errors := h.errors
  infos := h.infos

theorem keeps_launch : (launch profile server).Keeps Came profile server where
  ofHandle := rfl
  ofServer := rfl
  commands _ _ hm := by cases hm
  listening _ := rfl
  waiting _ hp := by cases hp
  notifications _ hm := by cases hm
  errors _ hm := by cases hm
  infos _ hm := by cases hm

/-- A client that speaks goes on giving commands to its server. -/
theorem Keeps.commands_speaks (h : t.Keeps Came profile server) {c : Client}
    (hspeaks : Client.Speaks t.console.client c) :
    c.profileHandle = Client.trimCopy profile ∧ c.serverAddress = server ∧
    ∀ address message, .sent address message ∈ c.log →
      address = server ∧ Command (cString (Client.trimCopy profile)) message := by
  refine ⟨hspeaks.handle.trans h.ofHandle, hspeaks.server.trans h.ofServer, fun address message hm => ?_⟩
  obtain ⟨events, hlog, hevents⟩ := hspeaks.log
  rw [hlog] at hm
  obtain hm | hm := List.mem_append.mp hm
  · exact h.commands address message hm
  · rw [← h.ofServer, ← h.ofHandle]
    exact hevents address message hm

theorem Keeps.typed (h : t.Keeps Came profile server) {c : Console} (htyped : Console.Typed t.console c)
    (stage : MainStage) (hstage : t.stage = .ended → stage = .ended) :
    (⟨c, stage⟩ : Terminal).Keeps Came profile server := by
  obtain ⟨hhandle, hserver, hcommands⟩ := h.commands_speaks htyped.client
  refine ⟨hhandle, hserver, hcommands, fun hs => ?_, fun p hp => ?_, fun m hm ht => ?_,
    fun m hm ht => ?_, fun m hm ht => ?_⟩
  · rw [htyped.listening]
    exact h.listening fun he => hs (hstage he)
  · rw [htyped.packetList] at hp
    exact h.waiting p hp
  · obtain hm | ⟨he, -⟩ | ⟨he, -⟩ := htyped.messages m hm
    · exact h.notifications m hm ht
    · cases ht.symm.trans he
    · cases ht.symm.trans he
  · obtain hm | ⟨-, hbody⟩ | ⟨he, -⟩ := htyped.messages m hm
    · exact h.errors m hm ht
    · exact hbody
    · cases ht.symm.trans he
  · obtain hm | ⟨he, -⟩ | ⟨-, hbody⟩ := htyped.messages m hm
    · exact h.infos m hm ht
    · cases ht.symm.trans he
    · exact hbody

/-- A packet that a client expects makes it neither speak nor say anything. -/
theorem Keeps.packet (h : t.Keeps Came profile server) (now : UInt64) {p : Packet} (hcame : Came p)
    (hexpected : Expected p) :
    ({ t with console := t.console.listen now p } : Terminal).Keeps Came profile server := by
  have hcases : t.console.listen now p = t.console ∨ t.console.listen now p =
        { t.console with client := { t.console.client with connected := true } } ∨
      p.type = packetNotification ∧ t.console.listen now p = { t.console with
        client := { t.console.client with packetList := t.console.client.packetList ++ [p] } } := by
    unfold Console.listen
    obtain ⟨-, he⟩ | ⟨-, ⟨-, he⟩ | ⟨htype, he⟩ | ⟨htype, -⟩ | ⟨htype, -⟩ | ⟨⟨haccept, hnotify, -⟩, -⟩⟩ :=
      t.console.client.listen_cases now p
    · exact .inl (by rw [he])
    · exact .inr (.inl (by rw [he]))
    · exact .inr (.inr ⟨htype, by rw [he]⟩)
    · obtain he | he := hexpected <;> exact absurd (he.symm.trans htype) (by decide)
    · obtain he | he := hexpected <;> exact absurd (he.symm.trans htype) (by decide)
    · exact absurd hexpected (not_or.mpr ⟨haccept, hnotify⟩)
  obtain he | he | ⟨htype, he⟩ := hcases <;> rw [he]
  · exact h
  · exact ⟨h.ofHandle, h.ofServer, h.commands, h.listening, h.waiting, h.notifications, h.errors,
      h.infos⟩
  · refine ⟨h.ofHandle, h.ofServer, h.commands, h.listening, fun q hq => ?_, h.notifications,
      h.errors, h.infos⟩
    obtain hq | hq := List.mem_append.mp hq
    · exact h.waiting q hq
    · rw [List.mem_singleton.mp hq]
      exact ⟨hcame, htype⟩

theorem addNotifications_messages (batch : List Packet) (now : UInt64) (c : Console) :
    (batch.foldl (fun c p => c.addMessage .notification p.text now) c).messages =
      c.messages ++ batch.map fun p => ⟨.notification, p.text, now⟩ := by
  induction batch generalizing c with
  | nil => simp
  | cons p batch ih =>
    rw [List.foldl_cons, ih]
    simp [Console.addMessage]

theorem Keeps.reorder (h : t.Keeps Came profile server) (now : UInt64) :
    ({ t with console := (t.console.reorder s now).1 } : Terminal).Keeps Came profile server := by
  have hclient : (t.console.reorder s now).1.client = { t.console.client with packetList := [] } :=
    (Console.addNotifications _ _ _).1
  have hmessages : (t.console.reorder s now).1.messages = t.console.messages ++
      (s.sort t.console.client.packetList).map fun p => ⟨.notification, p.text, now⟩ :=
    addNotifications_messages _ _ _
  have hold : ∀ m ∈ (t.console.reorder s now).1.messages, m ∈ t.console.messages ∨
      m.type = .notification ∧ ∃ p ∈ t.console.client.packetList, m.body = p.text := by
    intro m hm
    rw [hmessages] at hm
    obtain hm | hm := List.mem_append.mp hm
    · exact .inl hm
    · obtain ⟨p, hp, rfl⟩ := List.mem_map.mp hm
      exact .inr ⟨rfl, p, (s.perm _).subset hp, rfl⟩
  refine ⟨by rw [hclient]; exact h.ofHandle, by rw [hclient]; exact h.ofServer, ?_, ?_, ?_,
    fun m hm ht => ?_, fun m hm ht => ?_, fun m hm ht => ?_⟩
  · rw [hclient]
    exact h.commands
  · rw [hclient]
    exact h.listening
  · rw [hclient]
    intro p hp
    cases hp
  · obtain hm | ⟨-, p, hp, hbody⟩ := hold m hm
    · exact h.notifications m hm ht
    · exact ⟨p, (h.waiting p hp).1, (h.waiting p hp).2, hbody⟩
  · obtain hm | ⟨he, -⟩ := hold m hm
    · exact h.errors m hm ht
    · cases ht.symm.trans he
  · obtain hm | ⟨he, -⟩ := hold m hm
    · exact h.infos m hm ht
    · cases ht.symm.trans he

/-- Whatever is done with a client, it keeps to this as long as the packets that come
are of the two kinds it expects. -/
theorem Keeps.move (h : t.Keeps Came profile server) {m : Move}
    (hm : ∀ now p, m = .packet now p → Came p ∧ Expected p) :
    (t.move s m).Keeps Came profile server := by
  cases m with
  | connect now =>
    simp only [Terminal.move]
    split
    · next hstage =>
      have hspeaks := Client.connect_speaks now t.console.client
      exact h.typed (c := t.console.move (.connect now true))
        (.spoken hspeaks (Console.sendMade_listening _ _) (Client.connect_packetList _ _ _)) .connected
        (by rw [hstage]; exact fun he => (by cases he))
    · exact h
  | key now ch =>
    simp only [Terminal.move, Console.move]
    split
    · split
      · exact h.typed (Console.getUserInput_typed now ch t.console) t.stage id
      · exact h
    · exact h
  | shutdown now =>
    simp only [Terminal.move]
    split
    · have hspeaks := Client.shutdown_speaks now t.console.client
      obtain ⟨hhandle, hserver, hcommands⟩ := h.commands_speaks hspeaks
      have hlist := Client.shutdown_packetList now t.console.client
      exact ⟨hhandle, hserver, hcommands, fun hs => absurd rfl hs,
        fun p hp => h.waiting p (hlist ▸ hp), h.notifications, h.errors, h.infos⟩
    · exact h
  | packet now p =>
    simp only [Terminal.move]
    split
    · exact h
    · obtain ⟨hcame, hexpected⟩ := hm now p rfl
      exact h.packet now hcame hexpected
  | reorder now =>
    simp only [Terminal.move]
    split
    · exact h
    · exact h.reorder now

end Terminal

end Piupiu
