import Piupiu.Abstraction
import Piupiu.Asides
import Piupiu.Lib.Simulation

/-!
# The server refines the microblog

Each packet takes effect at one moment between its arrival and the end of its
handler, whatever the worker does meanwhile: before it nothing of the packet can be
seen, and after it all of it. So a run of the server is a run of the microblog.
-/
namespace Piupiu

open Atomic Atomic.Prog Simulation

/-- The text under which a post is shown. -/
def Post.text (p : Post Str Str) : Str := notificationText p.body p.author

namespace Server

/-- A handler that leaves the store alone. -/
def Still (p : Prog Server Unit) : Prop := p.Always fun a b => b.store = a.store

theorem still_of_aside {p : Prog Server Unit} (h : p.Always Aside) : Still p :=
  h.mono fun _ _ ha => ha.store

theorem still_pure : Still (pure ()) := always_pure ()

theorem still_pushNotifications (username body : Str) (followers : List ProfileRef) :
    Still (pushNotifications username body followers) := by
  induction followers with
  | nil => exact always_pure _
  | cons follower followers ih => exact always_act (fun _ => rfl) fun _ => ih

theorem still_sendCmd (message : Packet) (address : SocketAddress) :
    Still (sendCmd message address) := by
  refine always_act (fun _ => rfl) fun name => ?_
  cases name with
  | none => exact always_pure _
  | some username =>
    refine always_act (fun _ => rfl) fun profile => ?_
    cases profile with
    | none => exact always_pure _
    | some p => exact always_act (fun _ => rfl) fun _ => still_pushNotifications _ _ _

section turns

variable {s₀ : Server} {message : Packet} {address : SocketAddress}

/-- A step that cannot be seen, or the one that shows what the packet asks for. -/
def Turns (s₀ : Server) (message : Packet) (address : SocketAddress) (s s' : Server) : Prop :=
  s'.store.view = s.store.view ∨
    s.store.view = s₀.store.view ∧ s'.store.view = (s₀.store.handle message address).view

theorem Still.turns {p : Prog Server Unit} (h : Still p) (s : Server) :
    p.Safe WorkerRely (Turns s₀ message address) (fun _ _ => True) s :=
  (h.safe s).mono (fun _ _ he => .inl (congrArg Store.view he)) fun _ _ _ => trivial

theorem findProfile_turns (hlinked : s₀.store.Linked) {s : Server} (hs : s.store = s₀.store) :
    (findProfile message.text).Safe WorkerRely (Turns s₀ message address)
      (fun p s' => s'.store = s₀.store.ensure message.text ∧
        (s₀.store.ensure message.text).profiles.getProfileByName message.text = some p) s := by
  unfold findProfile
  refine safe_read_bind fun s₁ hr₁ => ⟨.inl rfl, ?_⟩
  have h₁ := hr₁.store.trans hs
  have hpm : s₁.profileManager = s₀.store.profiles := congrArg Store.profiles h₁
  rw [hpm]
  cases hf : s₀.store.profiles.getProfileByName message.text with
  | some p =>
    have hensure : s₀.store.ensure message.text = s₀.store := by simp [Store.ensure, hf]
    intro s₂ hr₂
    rw [hensure]
    exact ⟨hr₂.store.trans h₁, hf⟩
  | none =>
    have hensure : s₀.store.ensure message.text = s₀.store.create message.text := by
      simp [Store.ensure, hf]
    rw [hensure]
    unfold newProfile
    refine safe_atomic_bind fun s₂ hr₂ => ?_
    have h₂ := hr₂.store.trans h₁
    have hpush : (s₂.pushProfile message.text).1.store =
        { s₀.store with profiles := s₀.store.profiles.newProfile message.text } := by
      rw [← h₂]
      rfl
    have hpushed := Store.newProfile_view hlinked.graph message.text
    refine ⟨.inl ?_, safe_update_bind fun s₃ hr₃ => ⟨.inl ?_, fun s₄ hr₄ => ?_⟩⟩
    · rw [hpush, hpushed, h₂]
    · rw [sync_store, Store.sync_view]
    · refine ⟨?_, ?_⟩
      · rw [hr₄.store, sync_store, hr₃.store, hpush]
        rfl
      · rw [Store.create_lookup hf, ← hpm]
        have hpm₂ : s₂.profileManager = s₁.profileManager :=
          congrArg Store.profiles hr₂.store
        rw [← hpm₂]
        rfl

theorem admitUser_turns (hlinked : s₀.store.Linked) (htype : message.type = packetConnectCmd)
    {p : ProfileRef} {s : Server} (hs : s.store = s₀.store.ensure message.text)
    (hp : (s₀.store.ensure message.text).profiles.getProfileByName message.text = some p) :
    (admitUser p address).Safe WorkerRely (Turns s₀ message address) (fun _ _ => True) s := by
  obtain ⟨hlt, huser⟩ := ProfileManager.getProfileByName_some _ hp
  unfold admitUser
  refine safe_atomic_bind fun s₁ hr₁ => ?_
  have h₁ := hr₁.store.trans hs
  have hpm : s₁.profileManager = (s₀.store.ensure message.text).profiles := congrArg Store.profiles h₁
  have hsm : s₁.sessionManager = s₀.store.sessions := by
    rw [← s₀.store.ensure_sessions message.text]
    exact congrArg Store.sessions h₁
  have hstart : (s₁.startSession p address).1.store = { s₀.store.ensure message.text with
      sessions := (s₀.store.sessions.startSession message.text address).1 } := by
    rw [← h₁, ← hsm, ← huser, ← hpm]
    rfl
  have hreturned : (s₁.startSession p address).2 =
      (s₀.store.sessions.startSession message.text address).2 := by
    rw [← hsm, ← huser, ← hpm]
    rfl
  have hview := hlinked.startSession_view htype address hp
  have hensure := hlinked.ensure_view message.text
  rw [← hstart] at hview
  refine ⟨?_, ?_⟩
  · obtain hview | hview := hview
    · exact .inl (by rw [hview, h₁, hensure])
    · exact .inr ⟨by rw [h₁, hensure], hview⟩
  · rw [hreturned]
    cases hgranted : (s₀.store.sessions.startSession message.text address).2 with
    | none => exact still_pure.turns _
    | some r =>
      refine safe_update_bind fun s₂ hr₂ => ⟨?_, ?_⟩
      · have hend : (s₂.setSession p r).store = s₀.store.handle message address := by
          rw [Store.handle_connect htype, Store.connect, hp]
          simp only [Store.openSession, Store.ensure_sessions]
          split
          · next sessions r' he =>
            rw [he] at hgranted hstart
            cases hgranted
            have h₂ := hr₂.store.trans hstart
            exact congrArg (fun t : Store => { t with profiles := t.profiles.setSession p (.ref r) }) h₂
          · next sessions he =>
            rw [he] at hgranted
            cases hgranted
        rw [← hr₂.store] at hview
        obtain hview | hview := hview
        · exact .inr ⟨hview, by rw [hend]⟩
        · exact .inl (by rw [hend, hview])
      · exact (still_of_aside (always_update fun s => aside_getConnectedUsers s p)).turns _

theorem connectCmd_turns (hlinked : s₀.store.Linked) (htype : message.type = packetConnectCmd)
    (now : UInt64) {s : Server} (hs : s.store = s₀.store) : (connectCmd now message address).Safe
      WorkerRely (Turns s₀ message address) (fun _ _ => True) s := by
  unfold connectCmd
  refine Safe.bind WorkerRely.refl ((findProfile_turns hlinked hs).mono (fun _ _ hg => hg) ?_)
  rintro p t ⟨ht, hp⟩
  refine Safe.bind WorkerRely.refl
    ((admitUser_turns hlinked htype ht hp).mono (fun _ _ hg => hg) fun _ t' _ => ?_)
  exact (still_of_aside (aside_replicate now message address)).turns t'

theorem disconnectCmd_turns (htype : message.type = packetDisconnectCmd) {s : Server}
    (hs : s.store = s₀.store) : (disconnectCmd message address).Safe WorkerRely
      (Turns s₀ message address) (fun _ _ => True) s := by
  unfold disconnectCmd
  refine safe_read_bind fun s₁ hr₁ => ⟨.inl rfl, ?_⟩
  have h₁ := hr₁.store.trans hs
  have hpm : s₁.profileManager = s₀.store.profiles := congrArg Store.profiles h₁
  rw [hpm]
  cases hp : s₀.store.profiles.getProfileByName message.text with
  | none => exact still_pure.turns _
  | some p =>
    obtain ⟨-, huser⟩ := ProfileManager.getProfileByName_some _ hp
    refine safe_update fun s₂ hr₂ => ⟨.inr ?_, fun _ _ => trivial⟩
    have h₂ := hr₂.store.trans h₁
    have hpm₂ : s₂.profileManager = s₀.store.profiles := congrArg Store.profiles h₂
    refine ⟨by rw [h₂], congrArg Store.view ?_⟩
    rw [Store.handle_disconnect htype, Store.disconnect, hp, if_neg (by simp), ← huser, ← hpm₂, ← h₂]
    rfl

theorem followCmd_turns (htype : message.type = packetFollowCmd) {s : Server}
    (hs : s.store = s₀.store) : (followCmd message address).Safe WorkerRely
      (Turns s₀ message address) (fun _ _ => True) s := by
  unfold followCmd
  refine safe_read_bind fun s₁ hr₁ => ⟨.inl rfl, ?_⟩
  have h₁ := hr₁.store.trans hs
  have hsm : s₁.sessionManager = s₀.store.sessions := congrArg Store.sessions h₁
  rw [hsm]
  cases hname : s₀.store.sessions.getUserNameByAddressAndIP address with
  | none => exact still_pure.turns _
  | some username =>
    refine safe_read_bind fun s₂ hr₂ => ⟨.inl rfl, ?_⟩
    have h₂ := hr₂.store.trans h₁
    have hpm : s₂.profileManager = s₀.store.profiles := congrArg Store.profiles h₂
    rw [hpm]
    by_cases hself : message.text = username
    · simp only [hself, if_true]
      exact still_pure.turns _
    simp only [hself, if_false]
    cases hp : s₀.store.profiles.getProfileByName message.text with
    | none => exact still_pure.turns _
    | some p =>
      unfold addFollower
      refine safe_read_bind fun s₃ hr₃ => ⟨.inl rfl, ?_⟩
      have h₃ := hr₃.store.trans h₂
      have hpm₃ : s₃.profileManager = s₀.store.profiles := congrArg Store.profiles h₃
      rw [hpm₃]
      cases hf : s₀.store.profiles.getProfileByName username with
      | none => exact Still.turns (always_update (f := fun s => s.record (.fault .noReturnValue)) fun _ => rfl) _
      | some follower =>
        refine safe_read_bind fun s₄ hr₄ => ⟨.inl rfl, ?_⟩
        have h₄ := hr₄.store.trans h₃
        have hpm₄ : s₄.profileManager = s₀.store.profiles := congrArg Store.profiles h₄
        simp only [ProfileManager.isFollower, hpm₄, decide_eq_true_eq]
        by_cases hm : follower ∈ (s₀.store.profiles.deref p).followers
        · rw [if_pos hm]
          exact still_pure.turns _
        rw [if_neg hm]
        have hend : (s₀.store.handle message address).view = Store.view { s₀.store with
            profiles := s₀.store.profiles.appendFollower p follower } := by
          rw [Store.handle_follow htype, Store.follow, Store.followEdge, hname,
            ProfileManager.appendFollower_of_new _ hm]
          simp only [hself, if_false, hp, hf, Store.addEdge]
          rw [if_neg hm, Store.sync_view]
        refine safe_update_bind fun s₅ hr₅ => ?_
        have h₅ := hr₅.store.trans h₄
        have hpush : (s₅.pushFollower p follower).store = { s₀.store with
            profiles := s₀.store.profiles.appendFollower p follower } := by
          rw [← h₅]
          rfl
        refine ⟨.inr ⟨by rw [h₅], by rw [hpush, hend]⟩, ?_⟩
        refine safe_update fun s₆ _ => ⟨.inl ?_, fun _ _ => trivial⟩
        rw [sync_store, Store.sync_view]

/-- A handler shows what its packet asks for in one step. -/
theorem messageHandler_turns (hlinked : s₀.store.Linked) (now : UInt64) (message : Packet)
    (address : SocketAddress) : (messageHandler now message address).Safe WorkerRely
      (Turns s₀ message address) (fun _ _ => True) s₀ := by
  unfold messageHandler
  refine safe_update_bind fun s₁ hr₁ => ⟨.inl rfl, ?_⟩
  have hs : (s₁.record (.started message address)).store = s₀.store := hr₁.store
  split
  · next htype => exact connectCmd_turns hlinked htype now hs
  split
  · next htype => exact disconnectCmd_turns htype hs
  split
  · next htype => exact followCmd_turns htype hs
  split
  · exact (still_sendCmd message address).turns _
  split
  · exact (still_of_aside (aside_requestUserInfo address)).turns _
  split
  · exact (still_of_aside (aside_confirmMessage now message.seqn)).turns _
  · exact (still_of_aside (aside_otherCmd message.type)).turns _

end turns

section rest

variable {s₀ : Server} {now : UInt64} {message : Packet} {address : SocketAddress}

theorem step_issued {s s' : Server} (h : Step s₀ now message address s s') :
    issued s.log <+: issued s'.log := by
  obtain ⟨events, hlog, -⟩ := step_events h
  rw [hlog, issued_append]
  exact List.prefix_append _ _

theorem step_handles {s s' : Server} (h : Step s₀ now message address s s') :
    s.store.profiles.handles <+: s'.store.profiles.handles := by
  cases h with
  | pushProfile =>
    simp only [Server.store, Server.pushProfile, ProfileManager.newProfile_handles]
    exact List.prefix_append _ _
  | setSession p r =>
    simp only [Server.store, Server.setSession, ProfileManager.setSession_handles]
    exact List.prefix_rfl
  | pushFollower p follower =>
    simp only [Server.store, Server.pushFollower, ProfileManager.appendFollower_handles]
    exact List.prefix_rfl
  | sync =>
    rw [sync_store, Store.sync_profiles]
  | getConnectedUsers p =>
    rw [(aside_getConnectedUsers _ _).store]
  | confirmBuffer => rw [confirmBuffer_store]
  | confirmToPrimary => rw [confirmToPrimary_store]
  | _ => exact List.prefix_rfl

/-- A handler that began in `s₀` and has come to where it is now. -/
structure Handling (s₀ : Server) (now : UInt64) (message : Packet) (address : SocketAddress)
    (c : Config Server) : Prop where
  linked : s₀.store.Linked
  safe : c.running.Safe WorkerRely
    (fun s s' => Step s₀ now message address s s' ∧ Turns s₀ message address s s')
    (fun _ s => Ended s₀ message address s) c.shared

variable {c : Config Server}

theorem handling_start (hlinked : s₀.store.Linked) :
    Handling s₀ now message address ⟨s₀, messageHandler now message address⟩ := by
  have hboth := (messageHandler_safe s₀ now message address).and
    (messageHandler_turns hlinked now message address)
  exact ⟨hlinked, hboth.mono (fun _ _ hg => hg) fun _ _ he => he.1⟩

theorem Handling.advance (h : Handling s₀ now message address c) :
    Handling s₀ now message address c.advance :=
  ⟨h.linked, Config.safe_advance WorkerRely.refl h.safe⟩

theorem Handling.worker (h : Handling s₀ now message address c) (now' : UInt64) :
    Handling s₀ now message address (c.interfere (pendingNotificationWorker now')) :=
  ⟨h.linked, Config.safe_interfere (fun _ _ _ => WorkerRely.trans) h.safe (worker_rely now' _)⟩

/-- The handler can be brought to its end with nothing in between. -/
theorem Handling.ends (h : Handling s₀ now message address c) : ∃ t, Ended s₀ message address t ∧
    issued c.shared.log <+: issued t.log ∧
    c.shared.store.profiles.handles <+: t.store.profiles.handles := by
  refine ⟨_, h.safe.exec WorkerRely.refl, ?_⟩
  have hsteps := h.safe.exec_guarantee WorkerRely.refl
  generalize (c.running.exec c.shared).1 = t at hsteps
  induction hsteps with
  | refl => exact ⟨List.prefix_rfl, List.prefix_rfl⟩
  | tail _ hstep ih => exact ⟨ih.1.trans (step_issued hstep.1), ih.2.trans (step_handles hstep.1)⟩

theorem Handling.distinct (h : Handling s₀ now message address c) :
    c.shared.store.profiles.handles.Nodup := by
  obtain ⟨t, hended, -, hhandles⟩ := h.ends
  have hnodup := (Store.handle_linked h.linked message address).graph.distinct
  rw [← hended.store] at hnodup
  exact hnodup.sublist hhandles.sublist

/-- What is still to be put into the queue. -/
theorem Handling.remaining (h : Handling s₀ now message address c) : ∃ rest,
    issued c.shared.log ++ rest = issued s₀.log ++ s₀.store.notifications message address := by
  obtain ⟨t, hended, ⟨rest, hrest⟩, -⟩ := h.ends
  exact ⟨rest, by rw [hrest, hended.issued]⟩

end rest

/-- The packet that a move hands to a handler. -/
def taken (c : Config Server) : Move → List (Packet × SocketAddress)
  | .arrive _ message address => if c.idle then [(message, address)] else []
  | _ => []

/-- A move, and the packets that were handed to handlers so far. -/
def moveTaking (c : Config Server × List (Packet × SocketAddress)) (m : Move) :
    Config Server × List (Packet × SocketAddress) := (move c.1 m, c.2 ++ taken c.1 m)

/-- The packets that a run has handed to handlers, in order. -/
def accepted (s : Server) (moves : List Move) : List (Packet × SocketAddress) :=
  (moves.foldl moveTaking (⟨s, .done ()⟩, [])).2

theorem foldl_moveTaking (moves : List Move) (c : Config Server × List (Packet × SocketAddress)) :
    (moves.foldl moveTaking c).1 = moves.foldl move c.1 := by
  induction moves generalizing c with
  | nil => rfl
  | cons m moves ih => exact ih (moveTaking c m)

/-- What the packets ask for, each with the device that asks. -/
def asked (packets : List (Packet × SocketAddress)) : List (Request Str Str × SocketAddress) :=
  packets.filterMap fun x => x.1.request?.map fun r => (r, x.2)

theorem asked_append (packets more : List (Packet × SocketAddress)) :
    asked (packets ++ more) = asked packets ++ asked more := List.filterMap_append

/-- The notifications that were sent, each with its address and its text. -/
def notices (log : List Event) : List (SocketAddress × Str) := log.filterMap fun
  | .sent address message .notification => some (address, message.text)
  | _ => none

@[simp] theorem notices_append (log events : List Event) :
    notices (log ++ events) = notices log ++ notices events := List.filterMap_append

theorem notices_byHandler {events : List Event} (h : ∀ e ∈ events, e.byHandler = true) :
    notices events = [] := by
  refine List.filterMap_eq_nil_iff.mpr fun e he => ?_
  have := h e he
  cases e with
  | sent address message origin =>
    cases origin with
    | notification => cases this
    | _ => rfl
  | _ => rfl

/-- The replies to all sockets of a recipient show the text when it fits. -/
theorem notices_replyEvents (now : UInt64) (n : PendingNotification) (seqn : Nat)
    (sockets : List SocketAddress) : notices (replyEvents now n seqn sockets) =
      if n.Fits then sockets.map fun a => (a, cString (notificationText n.body n.senderUsername))
      else [] := by
  have hreply : ∀ seqn socket, notices [replyEvent now n seqn socket] =
      if n.Fits then [(socket, cString (notificationText n.body n.senderUsername))] else [] := by
    intro seqn socket
    unfold replyEvent
    split
    · next message hm =>
      obtain ⟨payload, hpayload, rfl⟩ := Option.map_eq_some_iff.mp hm
      have hfits : n.Fits := (strcpy_isSome _).mp (Option.isSome_iff_exists.mpr ⟨payload, hpayload⟩)
      rw [if_pos hfits, ← cString_strcpy hpayload]
      rfl
    · next hnone =>
      have hno : ¬n.Fits := fun hfits => by
        have hsome := (makeText_isSome packetNotification now (UInt64.ofNat seqn) n.body _).mpr hfits
        rw [← makeNotification, hnone] at hsome
        cases hsome
      rw [if_neg hno]
      rfl
  induction sockets generalizing seqn with
  | nil => simp [replyEvents, notices]
  | cons socket sockets ih =>
    rw [replyEvents, ← List.singleton_append, notices_append, hreply, ih]
    split <;> rfl

/-- The server shows the microblog: what can be seen of the store, what waits, and the
notifications that were sent, which are those whose texts fit a packet. -/
structure Refines (s : Server) (b : ServerBlog) : Prop where
  view : b.view = s.store.view
  waiting : b.waiting = s.notificationQueue.map s.store.post
  shown : notices s.log = (b.shown.filter fun x => Payload.Fits x.2.text).map fun x =>
    (x.1, cString x.2.text)

abbrev BlogOp := Microblog.Op Str SocketAddress Str

abbrev AskedFor := List (Request Str Str × SocketAddress)

/-- An operation, and the requests that were made so far. -/
noncomputable def applyAsking (b : ServerBlog × AskedFor) (op : BlogOp) : ServerBlog × AskedFor :=
  (b.1.apply maxSessionsPerUser op, b.2 ++ Microblog.requests [op])

theorem foldl_applyAsking (ops : List BlogOp) (b : ServerBlog × AskedFor) :
    ops.foldl applyAsking b =
      (ops.foldl (Microblog.apply maxSessionsPerUser) b.1, b.2 ++ Microblog.requests ops) := by
  induction ops generalizing b with
  | nil => simp [Microblog.requests]
  | cons op ops ih =>
    have hsplit : Microblog.requests (op :: ops) = Microblog.requests [op] ++ Microblog.requests ops := by
      rw [← List.singleton_append]
      exact List.filterMap_append
    rw [List.foldl_cons, ih, hsplit]
    simp only [applyAsking, List.append_assoc, List.foldl_cons]

/-- How far the packet that was taken last has come: its handler is done, or nothing of
it can be seen yet, or all of it but the posts that do not wait yet. -/
inductive Phase (c : Config Server) (packets : List (Packet × SocketAddress)) (b : ServerBlog)
    (requests : AskedFor) : Prop
  | idle (hidle : c.idle = true) (hlinked : c.shared.store.Linked) (hout : b.outgoing = [])
      (hrequests : requests = asked packets)
  | before (s₀ : Server) (now : UInt64) (message : Packet) (address : SocketAddress)
      (older : List (Packet × SocketAddress)) (h : Handling s₀ now message address c)
      (hview : c.shared.store.view = s₀.store.view)
      (hissued : issued c.shared.log = issued s₀.log) (hout : b.outgoing = [])
      (hpackets : packets = older ++ [(message, address)]) (hrequests : requests = asked older)
  | after (s₀ : Server) (now : UInt64) (message : Packet) (address : SocketAddress)
      (rest : List PendingNotification) (h : Handling s₀ now message address c)
      (hview : c.shared.store.view = (s₀.store.handle message address).view)
      (hrest : issued c.shared.log ++ rest =
        issued s₀.log ++ s₀.store.notifications message address)
      (hout : b.outgoing = rest.map s₀.store.post) (hrequests : requests = asked packets)

structure Related (c : Config Server × List (Packet × SocketAddress)) (b : ServerBlog × AskedFor) :
    Prop where
  refines : Refines c.1.shared b.1
  healthy : c.1.shared.Healthy
  phase : Phase c.1 c.2 b.1 b.2

/-- The operations by which a packet takes effect. -/
def effect (message : Packet) (address : SocketAddress) : List BlogOp :=
  message.request?.toList.map fun r => .request r address

theorem foldl_effect (message : Packet) (address : SocketAddress) (b : ServerBlog × AskedFor) :
    (effect message address).foldl applyAsking b =
      (b.1.packet message address, b.2 ++ asked [(message, address)]) := by
  unfold effect Microblog.packet asked
  cases hr : message.request? with
  | none => simp [hr]
  | some r => simp [hr, applyAsking, Microblog.apply, Microblog.requests]

/-- A packet that takes effect moves no post that waits or was shown. -/
theorem packet_waiting (b : ServerBlog) (message : Packet) (address : SocketAddress) :
    (b.packet message address).waiting = b.waiting ∧ (b.packet message address).shown = b.shown := by
  unfold Microblog.packet
  split
  · exact Microblog.request_waiting _ _ _ _
  · exact ⟨rfl, rfl⟩

theorem foldl_queue (l rest : List (Post Str Str)) {b : ServerBlog × AskedFor}
    (hout : b.1.outgoing = l ++ rest) : (List.replicate l.length .queue).foldl applyAsking b =
      ({ b.1 with outgoing := rest, waiting := b.1.waiting ++ l }, b.2) := by
  induction l generalizing b with
  | nil =>
    obtain ⟨b, requests⟩ := b
    simp only [List.nil_append] at hout
    simp [← hout]
  | cons p l ih =>
    have hqueue : applyAsking b .queue =
        ({ b.1 with outgoing := l ++ rest, waiting := b.1.waiting ++ [p] }, b.2) := by
      simp only [applyAsking, Microblog.apply, Microblog.queue, hout, List.cons_append]
      simp [Microblog.requests]
    rw [List.length_cons, List.replicate_succ, List.foldl_cons, hqueue, ih rfl]
    simp

theorem post_grow {st st' : Store} (hhandles : st.profiles.handles <+: st'.profiles.handles)
    {n : PendingNotification} (hn : n.recipient < st.profiles.profiles.length) :
    st'.post n = st.post n := by
  obtain ⟨more, hmore⟩ := hhandles
  have hkept : (st'.profiles.deref n.recipient).handle = (st.profiles.deref n.recipient).handle := by
    rw [ProfileManager.deref_handle, ProfileManager.deref_handle, ← hmore, List.getD_append]
    rwa [ProfileManager.handles_length]
  simp only [Store.post, hkept]

theorem Phase.distinct {c : Config Server} {packets : List (Packet × SocketAddress)} {b : ServerBlog}
    {requests : AskedFor} (h : Phase c packets b requests) :
    c.shared.store.profiles.handles.Nodup := by
  cases h with
  | idle _ hlinked => exact hlinked.graph.distinct
  | before s₀ now message address older h => exact h.distinct
  | after s₀ now message address rest h => exact h.distinct

/-- An iteration of the worker is a turn of the post in front. -/
theorem worker_refines {s : Server} {b : ServerBlog} (h : Refines s b) (hhealthy : s.Healthy)
    (hdistinct : s.store.profiles.handles.Nodup) (now : UInt64) :
    Refines (s.pendingNotificationWorker now) b.turn := by
  have hstore := (worker_rely now s).store
  have hview : b.turn.view = b.view := by
    obtain he | ⟨p, rest, -, he | he⟩ := b.turn_cases <;> rw [he] <;> rfl
  have hdevices : ∀ n ∈ s.notificationQueue,
      b.devices (s.store.post n).reader = (s.recipientSockets n.recipient).getD [] := by
    intro n hn
    obtain ⟨hlt, -⟩ := hhealthy.live n hn
    have hlookup := s.store.profiles.getProfileByName_deref n.recipient hdistinct hlt
    have hshown : b.devices = s.store.devices := congrArg View.devices h.view
    rw [hshown, Store.devices]
    simp only [Store.post, hlookup]
    rfl
  have hwaiting := h.waiting
  obtain ⟨hq, he⟩ | ⟨n, rest, hq, hs, he⟩ | ⟨n, rest, hq, hs, he⟩ | ⟨n, rest, sockets, hq, hs, hne, he⟩ :=
    s.worker_cases now
  · rw [hq, List.map_nil] at hwaiting
    have hsame : b.turn = b := by simp only [Microblog.turn, hwaiting]
    rwa [he, hsame]
  · obtain ⟨-, r, hr⟩ := hhealthy.live n (by simp [hq])
    simp [recipientSockets, hr, SessionManager.behind] at hs
  · have hnone := hdevices n (by simp [hq])
    rw [hs] at hnone
    rw [hq, List.map_cons] at hwaiting
    have hturn : b.turn = { b with waiting := rest.map s.store.post ++ [s.store.post n] } := by
      simp only [Microblog.turn, hwaiting, hnone]
      rfl
    refine ⟨by rw [hview, hstore, h.view], ?_, ?_⟩
    · rw [hstore, hturn, he]
      simp [requeue, record]
    · rw [hturn, he]
      simp only [requeue, record, notices_append, h.shown]
      simp [notices]
  · have hsome := hdevices n (by simp [hq])
    rw [hs] at hsome
    rw [hq, List.map_cons] at hwaiting
    have hturn : b.turn = { b with
        waiting := rest.map s.store.post
        shown := b.shown ++ sockets.map fun a => (a, s.store.post n) } := by
      simp only [Microblog.turn, hwaiting, hsome, Option.getD_some, hne, if_false]
    refine ⟨by rw [hview, hstore, h.view], by rw [hstore, hturn, he], ?_⟩
    have hdelivered : notices (.delivered n sockets :: replyEvents now n s.lastSeqn sockets) =
        notices (replyEvents now n s.lastSeqn sockets) := rfl
    rw [hturn, he, notices_append, h.shown, hdelivered, notices_replyEvents, List.filter_append,
      List.map_append]
    congr 1
    by_cases hfits : n.Fits
    · have hkeep : ∀ x ∈ sockets.map fun a => (a, s.store.post n),
          decide (Payload.Fits x.2.text) = true := by
        intro x hx
        obtain ⟨a, -, rfl⟩ := List.mem_map.mp hx
        exact decide_eq_true hfits
      rw [if_pos hfits, List.filter_eq_self.mpr hkeep, List.map_map]
      rfl
    · have hdrop : ∀ x ∈ sockets.map fun a => (a, s.store.post n),
          ¬decide (Payload.Fits x.2.text) = true := by
        intro x hx
        obtain ⟨a, -, rfl⟩ := List.mem_map.mp hx
        rw [decide_eq_true_eq]
        exact hfits
      rw [if_neg hfits, List.filter_eq_nil_iff.mpr hdrop, List.map_nil]

theorem worker_related {c : Config Server} {packets : List (Packet × SocketAddress)}
    {b : ServerBlog × AskedFor} (h : Related (c, packets) b) (now : UInt64) :
    Related (c.interfere (pendingNotificationWorker now), packets) (applyAsking b .turn) := by
  have hstore := (worker_rely now c.shared).store
  have hissued := worker_issued now c.shared
  have hout : b.1.turn.outgoing = b.1.outgoing := by
    obtain he | ⟨p, rest, -, he | he⟩ := b.1.turn_cases <;> rw [he]
  have hsame : (applyAsking b .turn).2 = b.2 := by simp [applyAsking, Microblog.requests]
  refine ⟨worker_refines h.refines h.healthy h.phase.distinct now, worker_healthy h.healthy now, ?_⟩
  rw [hsame]
  cases h.phase with
  | idle hidle hlinked hout' hrequests =>
    exact .idle hidle (worker_linked hlinked (worker_rely now _)) (hout.trans hout') hrequests
  | before s₀ now' message address older h hview hold hout' hpackets hrequests =>
    exact .before s₀ now' message address older (h.worker now)
      ((congrArg Store.view hstore).trans hview) (hissued.trans hold) (hout.trans hout') hpackets
      hrequests
  | after s₀ now' message address rest h hview hrest hout' hrequests =>
    refine .after s₀ now' message address rest (h.worker now)
      ((congrArg Store.view hstore).trans hview) ?_ (hout.trans hout') hrequests
    rw [← hrest]
    exact congrArg (· ++ rest) hissued

/-- When the handler is done the packet has taken effect, or takes it now. -/
theorem settle {c : Config Server} {packets : List (Packet × SocketAddress)}
    {b : ServerBlog × AskedFor} (h : Related (c, packets) b) (hidle : c.idle = true) :
    ∃ ops : List BlogOp, Related (c, packets) (ops.foldl applyAsking b) ∧ c.shared.store.Linked ∧
      (ops.foldl applyAsking b).1.outgoing = [] ∧ (ops.foldl applyAsking b).2 = asked packets := by
  cases h.phase with
  | idle _ hlinked hout hrequests => exact ⟨[], h, hlinked, hout, hrequests⟩
  | before s₀ now message address older hh hview hissued hout hpackets hrequests =>
    have hended := Config.result_of_idle WorkerRely.refl hidle hh.safe
    have hlinked : c.shared.store.Linked := by
      rw [hended.store]
      exact Store.handle_linked hh.linked message address
    have hb : b.1.view = s₀.store.view := h.refines.view.trans hview
    have hnone : s₀.store.notifications message address = [] :=
      List.append_right_eq_self.mp (hended.issued.symm.trans hissued)
    have hout' : (b.1.packet message address).outgoing = [] := by
      rw [hh.linked.packet_outgoing hb, hout, hnone]
      rfl
    have hrequests' : b.2 ++ asked [(message, address)] = asked packets := by
      have hlast : packets = older ++ [(message, address)] := hpackets
      rw [hrequests, hlast, asked_append]
    obtain ⟨hwaiting, hshown⟩ := packet_waiting b.1 message address
    refine ⟨effect message address, ?_⟩
    rw [foldl_effect]
    refine ⟨⟨⟨?_, ?_, ?_⟩, h.healthy, .idle hidle hlinked hout' hrequests'⟩, hlinked, hout',
      hrequests'⟩
    · show (b.1.packet message address).view = c.shared.store.view
      rw [hended.store]
      exact hh.linked.packet_view hb message address
    · exact hwaiting.trans h.refines.waiting
    · exact h.refines.shown.trans (by rw [hshown])
  | after s₀ now message address rest hh hview hrest hout hrequests =>
    have hended := Config.result_of_idle WorkerRely.refl hidle hh.safe
    have hnil : rest = [] := List.append_right_eq_self.mp (hrest.trans hended.issued.symm)
    have hlinked : c.shared.store.Linked := by
      rw [hended.store]
      exact Store.handle_linked hh.linked message address
    exact ⟨[], h, hlinked, by rw [List.foldl_nil, hout, hnil]; rfl, hrequests⟩

section advance

variable {s₀ : Server} {now : UInt64} {message : Packet} {address : SocketAddress} {c : Config Server}
  {packets : List (Packet × SocketAddress)} {b : ServerBlog × AskedFor}

/-- A step of a handler whose packet has taken effect lets some posts wait. -/
theorem queue_related (hwaiting : b.1.waiting = c.shared.notificationQueue.map c.shared.store.post)
    (hshown : notices c.shared.log = (b.1.shown.filter fun x => Payload.Fits x.2.text).map fun x =>
      (x.1, cString x.2.text)) (hhealthy : c.shared.Healthy) (hdone : c.advance.shared.Healthy) (h : Handling s₀ now message address c)
    {rest : List PendingNotification} (hstep : Step s₀ now message address c.shared c.advance.shared)
    (hview : c.advance.shared.store.view = (s₀.store.handle message address).view)
    (hb : b.1.view = (s₀.store.handle message address).view)
    (hrest : issued c.shared.log ++ rest = issued s₀.log ++ s₀.store.notifications message address)
    (hout : b.1.outgoing = rest.map s₀.store.post) (hrequests : b.2 = asked packets) :
    ∃ ops : List BlogOp, Related (c.advance, packets) (ops.foldl applyAsking b) := by
  obtain ⟨events, hlog, hqueue, hevents, hnew⟩ := step_events hstep
  obtain ⟨rest', hrest'⟩ := h.advance.remaining
  have hissued : issued c.advance.shared.log = issued c.shared.log ++ issued events := by
    rw [hlog, issued_append]
  have hsplit : rest = issued events ++ rest' := by
    rw [hissued, ← hrest, List.append_assoc] at hrest'
    exact (List.append_cancel_left hrest').symm
  rw [hsplit, List.map_append] at hout
  have hlength : (issued events).length = ((issued events).map s₀.store.post).length := by simp
  refine ⟨List.replicate (issued events).length .queue, ?_⟩
  rw [hlength, foldl_queue _ _ hout]
  refine ⟨⟨hb.trans hview.symm, ?_, ?_⟩, hdone, .after s₀ now message address rest' h.advance hview
    hrest' rfl hrequests⟩
  · have hold : ∀ n ∈ c.shared.notificationQueue,
        c.advance.shared.store.post n = c.shared.store.post n := fun n hn =>
      post_grow (step_handles hstep) (hhealthy.live n hn).1
    have hadded : ∀ n ∈ issued events, c.advance.shared.store.post n = s₀.store.post n := by
      intro n hn
      rw [(hnew n hn).2]
    show b.1.waiting ++ (issued events).map s₀.store.post =
      c.advance.shared.notificationQueue.map c.advance.shared.store.post
    rw [hqueue, List.map_append, hwaiting, List.map_congr_left hold,
      List.map_congr_left hadded]
  · show notices c.advance.shared.log = (b.1.shown.filter _).map _
    rw [hlog, notices_append, notices_byHandler fun e he => (hevents e he).byHandler, List.append_nil,
      hshown]

theorem step_related (h : Related (c, packets) b) (hhandling : Handling s₀ now message address c)
    (hbefore : c.shared.store.view = s₀.store.view ∧ issued c.shared.log = issued s₀.log ∧
        b.1.outgoing = [] ∧ (∃ older, packets = older ++ [(message, address)] ∧ b.2 = asked older) ∨
      c.shared.store.view = (s₀.store.handle message address).view ∧ ∃ rest,
        issued c.shared.log ++ rest = issued s₀.log ++ s₀.store.notifications message address ∧
        b.1.outgoing = rest.map s₀.store.post ∧ b.2 = asked packets)
    (hstep : Step s₀ now message address c.shared c.advance.shared)
    (hturns : Turns s₀ message address c.shared c.advance.shared) :
    ∃ ops : List BlogOp, Related (c.advance, packets) (ops.foldl applyAsking b) := by
  have hdone := step_healthy (ready_of_linked hhandling.linked message address) h.healthy hstep
  obtain ⟨hview, hissued, hout, older, hpackets, hrequests⟩ | ⟨hview, rest, hrest, hout, hrequests⟩ :=
    hbefore
  · obtain ⟨events, hlog, hqueue, hevents, hnew⟩ := step_events hstep
    by_cases hquiet : c.advance.shared.store.view = c.shared.store.view ∧ issued events = []
    · have hissued' : issued c.advance.shared.log = issued s₀.log := by
        rw [hlog, issued_append, hquiet.2, List.append_nil, hissued]
      refine ⟨[], ⟨h.refines.view.trans hquiet.1.symm, ?_, ?_⟩, hdone,
        .before s₀ now message address older hhandling.advance (hquiet.1.trans hview) hissued' hout
          hpackets hrequests⟩
      · show b.1.waiting = c.advance.shared.notificationQueue.map c.advance.shared.store.post
        rw [hqueue, hquiet.2, List.append_nil, h.refines.waiting]
        exact List.map_congr_left fun n hn =>
          (post_grow (step_handles hstep) (h.healthy.live n hn).1).symm
      · show notices c.advance.shared.log = (b.1.shown.filter _).map _
        rw [hlog, notices_append, notices_byHandler fun e he => (hevents e he).byHandler,
          List.append_nil]
        exact h.refines.shown
    · have hb : b.1.view = s₀.store.view := h.refines.view.trans hview
      have hview' : c.advance.shared.store.view = (s₀.store.handle message address).view := by
        obtain hsame | ⟨-, hend⟩ := hturns
        · obtain ⟨n, hn⟩ := List.exists_mem_of_ne_nil _ fun he => hquiet ⟨hsame, he⟩
          have hsend : message.type = packetSendCmd := by
            by_contra hne
            have hmem := (hnew n hn).1
            simp [Store.notifications, hne] at hmem
          rw [Store.handle_other (by rw [hsend]; decide) (by rw [hsend]; decide)
            (by rw [hsend]; decide), hsame, hview]
        · exact hend
      have hwaiting := packet_waiting b.1 message address
      have hafter := hhandling.linked.packet_view hb message address
      have hout' : (b.1.packet message address).outgoing =
          (s₀.store.notifications message address).map s₀.store.post := by
        rw [hhandling.linked.packet_outgoing hb, hout, List.nil_append]
      have hrequests' : b.2 ++ asked [(message, address)] = asked packets := by
        rw [hrequests, hpackets, asked_append]
      obtain ⟨ops, hops⟩ := queue_related (b := (b.1.packet message address,
        b.2 ++ asked [(message, address)])) (hwaiting.1.trans h.refines.waiting)
        (h.refines.shown.trans (by rw [hwaiting.2])) h.healthy hdone hhandling hstep hview' hafter
        (congrArg (· ++ s₀.store.notifications message address) hissued) hout' hrequests'
      refine ⟨effect message address ++ ops, ?_⟩
      rw [List.foldl_append, foldl_effect]
      exact hops
  · have hview' : c.advance.shared.store.view = (s₀.store.handle message address).view := by
      obtain hsame | ⟨-, hend⟩ := hturns
      · exact hsame.trans hview
      · exact hend
    exact queue_related h.refines.waiting h.refines.shown h.healthy hdone hhandling hstep hview'
      (h.refines.view.trans hview) hrest hout hrequests

theorem advance_related (h : Related (c, packets) b) :
    ∃ ops : List BlogOp, Related (c.advance, packets) (ops.foldl applyAsking b) := by
  obtain ⟨-, he⟩ | ⟨β, f, k, hp, hbusy, he⟩ := c.advance_cases
  · exact ⟨[], by rwa [he]⟩
  have hsafe : ∀ {s₀ now message address}, Handling s₀ now message address c →
      Step s₀ now message address c.shared c.advance.shared ∧
        Turns s₀ message address c.shared c.advance.shared := by
    intro s₀ now message address hh
    have hacts := hh.safe
    rw [hp] at hacts
    rw [he]
    exact (hacts c.shared (WorkerRely.refl _)).1
  cases h.phase with
  | idle hidle => exact absurd (hidle.symm.trans hbusy) (by simp)
  | before s₀ now message address older hh hview hissued hout hpackets hrequests =>
    obtain ⟨hstep, hturns⟩ := hsafe hh
    exact step_related h hh (.inl ⟨hview, hissued, hout, older, hpackets, hrequests⟩) hstep hturns
  | after s₀ now message address rest hh hview hrest hout hrequests =>
    obtain ⟨hstep, hturns⟩ := hsafe hh
    exact step_related h hh (.inr ⟨hview, rest, hrest, hout, hrequests⟩) hstep hturns

end advance

/-- The microblog answers every move of the server. -/
theorem simulates : Simulates moveTaking applyAsking Related := by
  rintro ⟨c, packets⟩ b m h
  cases m with
  | arrive now message address =>
    cases hidle : c.idle with
    | false =>
      refine ⟨[], ?_⟩
      have hsame : moveTaking (c, packets) (.arrive now message address) = (c, packets) := by
        simp [moveTaking, move, taken, Config.start_of_busy hidle, hidle]
      rwa [hsame]
    | true =>
      obtain ⟨ops, hsettled, hlinked, hout, hrequests⟩ := settle h hidle
      have hstarted : moveTaking (c, packets) (.arrive now message address) =
          (⟨c.shared, messageHandler now message address⟩, packets ++ [(message, address)]) := by
        simp [moveTaking, move, taken, Config.start_of_idle hidle, hidle]
      refine ⟨ops, ?_⟩
      rw [hstarted]
      exact ⟨hsettled.refines, hsettled.healthy, .before c.shared now message address packets
        (handling_start hlinked) rfl rfl hout rfl hrequests⟩
  | advance =>
    have hmoved : moveTaking (c, packets) .advance = (c.advance, packets) := by
      simp [moveTaking, move, taken]
    rw [hmoved]
    exact advance_related h
  | worker now =>
    have hmoved : moveTaking (c, packets) (.worker now) =
        (c.interfere (pendingNotificationWorker now), packets) := by
      simp [moveTaking, move, taken]
    rw [hmoved]
    exact ⟨[.turn], worker_related h now⟩

theorem related_new (thisPeer : Peer) (peers : List Peer) (disk : Disk) :
    Related (⟨new thisPeer peers disk ⟨[]⟩, .done ()⟩, []) (Microblog.empty, []) := by
  have hlinked : (new thisPeer peers disk ⟨[]⟩).store.Linked := Store.linked_empty disk
  refine ⟨⟨?_, rfl, rfl⟩, ⟨by simp [new], by simp [new], by simp [new]⟩, .idle rfl hlinked rfl rfl⟩
  refine View.mk.injEq .. |>.mpr ⟨?_, ?_, ?_⟩
  · rw [hlinked.users]
    ext u
    exact ⟨fun hu => hu.elim, fun hu => absurd hu List.not_mem_nil⟩
  · rfl
  · rfl

theorem Phase.requests {c : Config Server} {packets : List (Packet × SocketAddress)} {b : ServerBlog}
    {requests : AskedFor} (h : Phase c packets b requests) :
    requests <+: asked packets ∧ (asked packets).length ≤ requests.length + 1 := by
  cases h with
  | idle _ _ _ hrequests | after _ _ _ _ _ _ _ _ _ hrequests =>
    rw [hrequests]
    exact ⟨List.prefix_rfl, Nat.le_succ _⟩
  | before s₀ now message address older _ _ _ _ hpackets hrequests =>
    have hsplit : asked packets = requests ++ asked [(message, address)] := by
      rw [hrequests, hpackets, asked_append]
    have hone : (asked [(message, address)]).length ≤ 1 := List.length_filterMap_le _ _
    rw [hsplit, List.length_append]
    exact ⟨List.prefix_append _ _, by omega⟩

/-- Every run of the server is a run of the microblog: with its pointers, its file and
the worker between any two actions of its handlers, the server shows what the microblog
shows. Each packet takes effect once and in the order of the handlers, that of the
running handler maybe not yet. -/
theorem refines_microblog (thisPeer : Peer) (peers : List Peer) (disk : Disk) (moves : List Move) :
    ∃ ops : List BlogOp,
      Refines ((new thisPeer peers disk ⟨[]⟩).run moves).shared (Microblog.run maxSessionsPerUser ops) ∧
      Microblog.requests ops <+: asked (accepted (new thisPeer peers disk ⟨[]⟩) moves) ∧
      (asked (accepted (new thisPeer peers disk ⟨[]⟩) moves)).length ≤
        (Microblog.requests ops).length + 1 ∧
      (((new thisPeer peers disk ⟨[]⟩).run moves).idle = true →
        Microblog.requests ops = asked (accepted (new thisPeer peers disk ⟨[]⟩) moves) ∧
        (Microblog.run maxSessionsPerUser ops).outgoing = []) := by
  obtain ⟨ops, hops⟩ := simulates.run (related_new thisPeer peers disk) moves
  have hpair : moves.foldl moveTaking (⟨new thisPeer peers disk ⟨[]⟩, .done ()⟩, []) =
      ((new thisPeer peers disk ⟨[]⟩).run moves, accepted (new thisPeer peers disk ⟨[]⟩) moves) :=
    Prod.ext (foldl_moveTaking _ _) rfl
  rw [hpair] at hops
  have hblog : ∀ ops : List BlogOp, ops.foldl applyAsking (Microblog.empty, []) =
      (Microblog.run maxSessionsPerUser ops, Microblog.requests ops) := fun ops => by
    rw [foldl_applyAsking, List.nil_append]
    rfl
  cases hidle : ((new thisPeer peers disk ⟨[]⟩).run moves).idle with
  | false =>
    rw [hblog] at hops
    exact ⟨ops, hops.refines, hops.phase.requests.1, hops.phase.requests.2, fun h => by cases h⟩
  | true =>
    obtain ⟨more, hsettled, -, hout, hrequests⟩ := settle hops hidle
    rw [← List.foldl_append, hblog] at hsettled hout hrequests
    refine ⟨ops ++ more, hsettled.refines, ?_, ?_, fun _ => ⟨hrequests, hout⟩⟩
    · exact hsettled.phase.requests.1
    · exact hsettled.phase.requests.2

end Server

end Piupiu
