import Piupiu.Console
import Piupiu.Lib.Batches

/-!
# The reorder buffer

`Listen` appends each notification to `PacketList`; `Reorder` sorts what is in the
list, hands the texts to the message handler in that order and clears the list. Each
of the two is done under `packetQueueMutex`.
-/
namespace Piupiu

open Batches

/-- The comparator that `Reorder` sorts by. -/
def Packet.before (a b : Packet) : Bool := decide (a.seqn < b.seqn)

theorem Packet.before_iff (a b : Packet) : Packet.before a b = true ↔ a.seqn < b.seqn := by
  simp [Packet.before]

theorem Packet.not_before_iff (a b : Packet) : Packet.before b a = false ↔ a.seqn ≤ b.seqn := by
  simp [Packet.before]

/-- One way in which `std::sort` may order the packets. -/
def insertion : Sorter Packet.before where
  sort := List.insertionSort fun a b => a.seqn.toNat ≤ b.seqn.toNat
  perm := List.perm_insertionSort _
  sorted l := by
    have htotal : Std.Total fun a b : Packet => a.seqn.toNat ≤ b.seqn.toNat :=
      ⟨fun a b => Nat.le_total _ _⟩
    have htrans : IsTrans Packet fun a b => a.seqn.toNat ≤ b.seqn.toNat :=
      ⟨fun a b c => Nat.le_trans⟩
    have hsorted := List.pairwise_insertionSort (fun a b : Packet => a.seqn.toNat ≤ b.seqn.toNat) l
    exact hsorted.imp fun h => (Packet.not_before_iff _ _).mpr (UInt64.le_iff_toNat_le.mpr h)

namespace Client

/-- One turn of the loop of `Reorder`, and the packets whose texts it hands on. -/
def reorder (s : Sorter Packet.before) (c : Client) : Client × List Packet :=
  ({ c with packetList := [] }, s.sort c.packetList)

/-- The notification that a turn of `Listen` receives. -/
def received (c : Client) (p : Packet) : Option Packet :=
  if c.isListening ∧ p.type = packetNotification then some p else none

@[simp] theorem sendMade_packetList (c : Client) (message : Option Packet) :
    (c.sendMade message).packetList = c.packetList := by
  obtain ⟨events, he, -⟩ := c.sendMade_eq message
  rw [he]

@[simp] theorem getInfo_packetList (now : UInt64) (c : Client) :
    (c.getInfo now).packetList = c.packetList := by
  obtain ⟨events, he, -⟩ := c.incrementSeqn.sendMessageToServer_eq
    (makeRequestUserInfo now c.incrementSeqn.lastSentSeqn)
  rw [getInfo, he]
  rfl

@[simp] theorem shutdown_packetList (now : UInt64) (c : Client) :
    (c.shutdown now).packetList = c.packetList :=
  sendMade_packetList _ _

@[simp] theorem connect_packetList (now : UInt64) (opened : Bool) (c : Client) :
    (c.connect now opened).packetList = c.packetList := by
  cases opened with
  | true => exact sendMade_packetList _ _
  | false => rfl

@[simp] theorem followUser_packetList (now : UInt64) (profile : Str) (c : Client) :
    (c.followUser now profile).packetList = c.packetList :=
  sendMade_packetList _ _

@[simp] theorem post_packetList (now : UInt64) (message : Str) (c : Client) :
    (c.post now message).packetList = c.packetList := by
  unfold post
  split
  · exact sendMade_packetList _ _
  · rfl

theorem listen_packetList (now : UInt64) (p : Packet) (c : Client) :
    (c.listen now p).1.packetList = c.packetList ++ (c.received p).toList := by
  obtain ⟨hl, h⟩ | ⟨hl, ⟨ht, h⟩ | ⟨ht, h⟩ | ⟨ht, h⟩ | ⟨ht, h⟩ | ⟨ht, h⟩⟩ := c.listen_cases now p
  · simp [h, received, hl]
  · simp [h, received, hl, ht, packetAcceptConnCmd, packetNotification]
  · simp [h, received, hl, ht]
  · simp [h, received, hl, ht, packetError, packetNotification]
  · simp [h, received, hl, ht, packetInfo, packetNotification]
  · simp [h, received, hl, ht.2.1]

/-- `Listen` never hands on a notification itself. -/
theorem listen_message {now : UInt64} {p : Packet} {c : Client} {body : Str} {type : MessageType}
    (h : (c.listen now p).2 = some (body, type)) : type ≠ .notification := by
  obtain ⟨-, he⟩ | ⟨-, ⟨-, he⟩ | ⟨-, he⟩ | ⟨-, he⟩ | ⟨-, he⟩ | ⟨-, he⟩⟩ := c.listen_cases now p
  all_goals
    rw [he] at h
    cases h
  · decide
  · decide

end Client

namespace Console

/-- One turn of the reordering thread, with the console as the message handler. -/
def reorder (s : Sorter Packet.before) (now : UInt64) (c : Console) : Console × List Packet :=
  let (client, batch) := c.client.reorder s
  (batch.foldl (fun c p => c.addMessage .notification p.text now) { c with client := client }, batch)

/-- The notifications among the messages of the console. -/
def notified (c : Console) : List Str :=
  (c.messages.filter fun m => m.type = .notification).map ConsoleMessage.body

theorem addMessage_notified {type : MessageType} (c : Console) (body : Str) (timestamp : UInt64)
    (h : type ≠ .notification) : (c.addMessage type body timestamp).notified = c.notified := by
  simp [notified, addMessage, h]

theorem addNotifications (batch : List Packet) (now : UInt64) (c : Console) :
    (batch.foldl (fun c p => c.addMessage .notification p.text now) c).client = c.client ∧
    (batch.foldl (fun c p => c.addMessage .notification p.text now) c).notified =
      c.notified ++ batch.map Packet.text := by
  induction batch generalizing c with
  | nil => simp
  | cons p batch ih =>
    obtain ⟨hclient, hnotified⟩ := ih (c.addMessage .notification p.text now)
    rw [List.foldl_cons, hclient, hnotified]
    exact ⟨rfl, by simp [notified, addMessage]⟩

/-- What a turn of the listening thread receives in a move. -/
def received (c : Console) : Move → Option Packet
  | .packet _ p => c.client.received p
  | _ => none

theorem handleUserInput_packetList (now : UInt64) (input : Str) (c : Console) :
    (c.handleUserInput now input).client.packetList = c.client.packetList ∧
    (c.handleUserInput now input).notified = c.notified := by
  unfold handleUserInput
  split
  · exact ⟨rfl, rfl⟩
  · split
    · split
      · split
        · exact ⟨Client.followUser_packetList _ _ _, rfl⟩
        · exact ⟨rfl, addMessage_notified c _ _ (by decide)⟩
      · split
        · exact ⟨rfl, addMessage_notified c _ _ (by decide)⟩
        · split
          · exact ⟨rfl, rfl⟩
          · split <;> exact ⟨rfl, rfl⟩
    · exact ⟨Client.post_packetList _ _ _, rfl⟩

theorem getUserInput_packetList (now : UInt64) (ch : Int) (c : Console) :
    (c.getUserInput now ch).client.packetList = c.client.packetList ∧
    (c.getUserInput now ch).notified = c.notified := by
  unfold getUserInput
  split
  · exact ⟨rfl, rfl⟩
  · split
    · exact handleUserInput_packetList now c.userInput c
    · split
      · exact ⟨rfl, rfl⟩
      · split
        · split <;> exact ⟨rfl, rfl⟩
        · split <;> exact ⟨rfl, rfl⟩

theorem listen_packetList (now : UInt64) (p : Packet) (c : Console) :
    (c.listen now p).client.packetList = c.client.packetList ++ (c.client.received p).toList ∧
    (c.listen now p).notified = c.notified := by
  have hlist := Client.listen_packetList now p c.client
  cases hmessage : (c.client.listen now p).2 with
  | none =>
    simp only [listen, hmessage]
    exact ⟨hlist, rfl⟩
  | some message =>
    simp only [listen, hmessage]
    exact ⟨hlist, addMessage_notified _ _ _ (Client.listen_message hmessage)⟩

/-- A move appends what it receives, and shows no notification. -/
theorem move_packetList (c : Console) (m : Move) :
    (c.move m).client.packetList = c.client.packetList ++ (c.received m).toList ∧
    (c.move m).notified = c.notified := by
  cases m with
  | key now ch =>
    simp only [move, received, Option.toList_none, List.append_nil]
    split
    · exact getUserInput_packetList now ch c
    · exact ⟨rfl, rfl⟩
  | packet now p => exact listen_packetList now p c
  | connect now opened => simp [move, received, notified]
  | connectAs now opened profileHandle serverAddress =>
    simp [move, received, notified, Client.connectAs]
  | shutdown now => simp [move, received, notified]
  | followUser now profile => simp [move, received, notified]
  | post now message => simp [move, received, notified]
  | getInfo now => simp [move, received, notified]
  | setProfileHandle profileHandle => simp [move, received, notified, Client.setProfileHandle]
  | setServerAddress serverAddress => simp [move, received, notified, Client.setServerAddress]

/-- What happens next: a move of the others, or one turn of the reordering thread. -/
inductive Turn where
  | move (m : Move)
  | reorder (now : UInt64)

/-- A console and the packets that its handler was given, drain by drain. -/
structure Feed where
  console : Console
  handed : List (List Packet)

variable (s : Sorter Packet.before)

def Feed.turn (f : Feed) : Turn → Feed
  | .move m => { f with console := f.console.move m }
  | .reorder now => ⟨(f.console.reorder s now).1, f.handed ++ [(f.console.reorder s now).2]⟩

def Feed.run (f : Feed) (turns : List Turn) : Feed := turns.foldl (Feed.turn s) f

/-- What a turn does to the reorder buffer. -/
def event? (c : Console) : Turn → Option (Event Packet)
  | .move m => (c.received m).map .arrive
  | .reorder _ => some .drain

def Feed.events (f : Feed) : List Turn → List (Event Packet)
  | [] => []
  | t :: turns => (f.console.event? t).toList ++ (f.turn s t).events turns

theorem Feed.run_append (f : Feed) (turns more : List Turn) :
    f.run s (turns ++ more) = (f.run s turns).run s more :=
  List.foldl_append

/-- The packets of the client are those of a buffer, sorted where they were taken. -/
structure Feed.Represents (f : Feed) (b : Batches.Buffer Packet) : Prop where
  waiting : f.console.client.packetList = b.waiting
  taken : f.handed = b.taken.map s.sort
  shown : f.console.notified = f.handed.flatten.map Packet.text

variable {s}

theorem Feed.Represents.turn {f : Feed} {b : Batches.Buffer Packet} (h : f.Represents s b) (t : Turn) :
    (f.turn s t).Represents s ((f.console.event? t).toList.foldl Batches.Buffer.step b) := by
  cases t with
  | move m =>
    obtain ⟨hlist, hnotified⟩ := move_packetList f.console m
    cases hm : f.console.received m with
    | none =>
      rw [hm, Option.toList_none, List.append_nil] at hlist
      simp only [event?, hm, Option.map_none, Option.toList_none, List.foldl_nil]
      exact ⟨hlist.trans h.waiting, h.taken, hnotified.trans h.shown⟩
    | some p =>
      rw [hm, h.waiting] at hlist
      simp only [event?, hm, Option.map_some, Option.toList_some, List.foldl_cons, List.foldl_nil]
      exact ⟨hlist, h.taken, hnotified.trans h.shown⟩
  | reorder now =>
    obtain ⟨hclient, hnotified⟩ := addNotifications (s.sort f.console.client.packetList) now
      { f.console with client := { f.console.client with packetList := [] } }
    simp only [event?, Option.toList_some, List.foldl_cons, List.foldl_nil]
    constructor
    · exact congrArg Client.packetList hclient
    · simp [Feed.turn, Console.reorder, Client.reorder, Batches.Buffer.step, h.taken, h.waiting]
    · refine hnotified.trans ?_
      have hshown : Console.notified
          { f.console with client := { f.console.client with packetList := [] } } =
            f.handed.flatten.map Packet.text := h.shown
      rw [hshown]
      simp [Feed.turn, Console.reorder, Client.reorder]

/-- The client runs its reorder buffer as a buffer of batches. -/
theorem Feed.Represents.run {f : Feed} {b : Batches.Buffer Packet} (h : f.Represents s b)
    (turns : List Turn) : (f.run s turns).Represents s ((f.events s turns).foldl Batches.Buffer.step b) := by
  induction turns generalizing f b with
  | nil => exact h
  | cons t turns ih =>
    rw [Feed.events, List.foldl_append]
    exact ih (h.turn t)

/-- A client before its first packet. -/
def start (profile : Str) (serverAddress : SocketAddress) : Feed :=
  ⟨launch profile serverAddress, []⟩

theorem run_represents (profile : Str) (serverAddress : SocketAddress) (turns : List Turn) :
    ((start profile serverAddress).run s turns).Represents s
      (Batches.run ((start profile serverAddress).events s turns)) :=
  Feed.Represents.run ⟨rfl, rfl, rfl⟩ turns

theorem run_handed (profile : Str) (serverAddress : SocketAddress) (turns : List Turn) :
    ((start profile serverAddress).run s turns).handed =
      Batches.handed s ((start profile serverAddress).events s turns) :=
  (run_represents profile serverAddress turns).taken

/-- A turn of the reordering thread hands on what came since its last one, sorted. -/
theorem handed_reorder (profile : Str) (serverAddress : SocketAddress) (turns : List Turn)
    (now : UInt64) : ((start profile serverAddress).run s (turns ++ [.reorder now])).handed =
      ((start profile serverAddress).run s turns).handed ++
        [s.sort (sinceDrain ((start profile serverAddress).events s turns))] := by
  have hwaiting := (run_represents (s := s) profile serverAddress turns).waiting
  rw [Feed.run_append, ← run_waiting, ← hwaiting]
  rfl

/-- What was handed on and what is in the list are together what was received; the
console shows what was handed on; and each turn of the reordering thread hands on
what was received since its last one, by non-decreasing sequence number. -/
theorem reorder_conserves (s : Sorter Packet.before) (profile : Str)
    (serverAddress : SocketAddress) (turns : List Turn) :
    (((start profile serverAddress).run s turns).handed.flatten ++
      ((start profile serverAddress).run s turns).console.client.packetList).Perm
        (arrivals ((start profile serverAddress).events s turns)) ∧
    ((start profile serverAddress).run s turns).console.notified =
      ((start profile serverAddress).run s turns).handed.flatten.map Packet.text ∧
    ∀ now, ∃ batch, ((start profile serverAddress).run s (turns ++ [.reorder now])).handed =
        ((start profile serverAddress).run s turns).handed ++ [batch] ∧
      batch.Perm (sinceDrain ((start profile serverAddress).events s turns)) ∧
      batch.Pairwise fun a b => a.seqn ≤ b.seqn := by
  have hrun := run_represents (s := s) profile serverAddress turns
  refine ⟨?_, hrun.shown, fun now => ⟨_, handed_reorder profile serverAddress turns now,
    s.perm _, (s.sorted _).imp fun h => (Packet.not_before_iff _ _).mp h⟩⟩
  rw [hrun.waiting, run_handed]
  exact handed_conserves s _

/-- The numbers of all that is handed on increase exactly when no packet is received
after a turn of the reordering thread that handed on a larger number, and handed on
itself by a later turn. -/
theorem notifications_in_order_iff (s : Sorter Packet.before) (profile : Str)
    (serverAddress : SocketAddress) (turns : List Turn)
    (hdistinct : (arrivals ((start profile serverAddress).events s turns)).Pairwise
      fun a b => a.seqn ≠ b.seqn) :
    (((start profile serverAddress).run s turns).handed.flatten.Pairwise
      fun a b => a.seqn < b.seqn) ↔
    ∀ a b, [.arrive a, .drain, .arrive b, .drain].Sublist
      ((start profile serverAddress).events s turns) → a.seqn < b.seqn := by
  have hcomparable : (arrivals ((start profile serverAddress).events s turns)).Pairwise
      fun a b => Packet.before a b = true ∨ Packet.before b a = true := by
    refine hdistinct.imp fun hne => ?_
    rw [Packet.before_iff, Packet.before_iff]
    exact UInt64.lt_or_lt_of_ne hne
  have hsorted := handed_sorted_iff s _ hcomparable
  simp only [Packet.before_iff] at hsorted
  rw [run_handed, hsorted]

/-- A notification without a text. -/
def numbered (seqn : UInt64) : Packet := makeEmpty packetNotification 0 seqn

/-- Two notifications come the wrong way round within one turn. -/
theorem notifications_in_order_batch :
    ((start [97] ⟨[], 1⟩).run insertion [.move (.packet 0 (numbered 2)),
      .move (.packet 0 (numbered 1)), .reorder 0]).handed.flatten.Pairwise
        fun a b => a.seqn < b.seqn := by
  have hdistinct : (arrivals ((start [97] ⟨[], 1⟩).events insertion [.move (.packet 0 (numbered 2)),
      .move (.packet 0 (numbered 1)), .reorder 0])).Pairwise fun a b => a.seqn ≠ b.seqn := by
    decide +kernel
  refine (notifications_in_order_iff insertion [97] ⟨[], 1⟩ _ hdistinct).mpr fun a b h => ?_
  have hlength : 4 ≤ _ := h.length_le
  exact absurd hlength (by decide +kernel)

/-- With a turn of the reordering thread between them they stay the wrong way round. -/
theorem notifications_out_of_order :
    (arrivals ((start [97] ⟨[], 1⟩).events insertion [.move (.packet 0 (numbered 2)), .reorder 0,
      .move (.packet 0 (numbered 1)), .reorder 0])).Pairwise (fun a b => a.seqn ≠ b.seqn) ∧
    ¬((start [97] ⟨[], 1⟩).run insertion [.move (.packet 0 (numbered 2)), .reorder 0,
      .move (.packet 0 (numbered 1)), .reorder 0]).handed.flatten.Pairwise
        fun a b => a.seqn < b.seqn := by
  decide +kernel

end Console

end Piupiu
