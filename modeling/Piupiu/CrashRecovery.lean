import Piupiu.Persistence
import Piupiu.Linearization
import Piupiu.Lib.SingleWrite

/-!
# Killed between two actions

A handler saves at most once, and what it saves is what its packet leaves. So a server
that is killed at any moment but inside of a save has lost no packet that was handled
before, and the next server goes on from there.
-/
namespace Piupiu

open Atomic Atomic.Prog

namespace Server

theorem keeps_disk {α : Type} {p : Prog Server α} (h : p.Always fun a b => b.store = a.store) :
    p.Keeps disk := h.mono fun _ _ he => congrArg Store.disk he

theorem keeps_of_aside {p : Prog Server Unit} (h : p.Always Aside) : p.Keeps disk :=
  keeps_disk (still_of_aside h)

theorem findProfile_once (username : Str) : (findProfile username).Once disk := by
  refine once_act (fun _ => rfl) fun profile => ?_
  cases profile with
  | some p => exact once_pure p
  | none => exact once_act (fun _ => rfl) fun p => once_write fun _ => always_pure p

theorem admitUser_keeps (p : ProfileRef) (address : SocketAddress) :
    (admitUser p address).Keeps disk := by
  refine always_act (fun _ => rfl) fun session => ?_
  cases session with
  | none => exact always_pure _
  | some r =>
    refine always_act (fun _ => rfl) fun _ => ?_
    exact keeps_of_aside (always_update fun s => aside_getConnectedUsers s p)

theorem connectCmd_once (now : UInt64) (message : Packet) (address : SocketAddress) :
    (connectCmd now message address).Once disk :=
  (findProfile_once message.text).bind fun p => (admitUser_keeps p address).bind fun _ =>
    keeps_of_aside (aside_replicate now message address)

theorem disconnectCmd_keeps (message : Packet) (address : SocketAddress) :
    (disconnectCmd message address).Keeps disk := by
  refine always_act (fun _ => rfl) fun profile => ?_
  cases profile with
  | none => exact always_pure _
  | some p => exact always_update fun _ => rfl

theorem followCmd_once (message : Packet) (address : SocketAddress) :
    (followCmd message address).Once disk := by
  refine once_act (fun _ => rfl) fun name => ?_
  cases name with
  | none => exact once_pure _
  | some username =>
    refine once_act (fun _ => rfl) fun profile => ?_
    split
    · exact once_pure _
    cases profile with
    | none => exact once_pure _
    | some p =>
      refine once_act (fun _ => rfl) fun follower => ?_
      cases follower with
      | none => exact once_write fun _ => always_pure _
      | some follower =>
        refine once_act (fun _ => rfl) fun known => ?_
        cases known with
        | true => exact once_pure _
        | false => exact once_act (fun _ => rfl) fun _ => once_write fun _ => always_pure _

theorem messageHandler_once (now : UInt64) (message : Packet) (address : SocketAddress) :
    (messageHandler now message address).Once disk := by
  refine once_act (fun _ => rfl) fun _ => ?_
  split
  · exact connectCmd_once now message address
  split
  · exact (disconnectCmd_keeps message address).once
  split
  · exact followCmd_once message address
  split
  · exact (keeps_disk (still_sendCmd message address)).once
  split
  · exact (keeps_of_aside (aside_requestUserInfo address)).once
  split
  · exact (keeps_of_aside (aside_confirmMessage now message.seqn)).once
  · exact (keeps_of_aside (aside_otherCmd message.type)).once

/-- The handler of the last packet that was taken, and what it has saved so far. -/
structure Saving (s₀ : Server) (now : UInt64) (message : Packet) (address : SocketAddress)
    (c : Config Server) : Prop where
  safe : c.running.Safe WorkerRely (Step s₀ now message address)
    (fun _ s => Ended s₀ message address s) c.shared
  writes : c.WritesOnce disk s₀.disk

/-- The packets that were taken have been handled, the last one maybe not to its end. -/
inductive Surviving (s : Server) (c : Config Server) : List (Packet × SocketAddress) → Prop
  | fresh (hidle : c.idle = true) (hstore : c.shared.store = s.store) : Surviving s c []
  | saving (s₀ : Server) (now : UInt64) (message : Packet) (address : SocketAddress)
      (older : List (Packet × SocketAddress)) (hstore : s₀.store = s.store.handleAll older)
      (hsaving : Saving s₀ now message address c) : Surviving s c (older ++ [(message, address)])

theorem handleAll_concat (st : Store) (older : List (Packet × SocketAddress)) (message : Packet)
    (address : SocketAddress) : st.handleAll (older ++ [(message, address)]) =
      (st.handleAll older).handle message address := by
  simp [Store.handleAll]

variable {s : Server} {c : Config Server} {packets : List (Packet × SocketAddress)}

theorem Surviving.settled (h : Surviving s c packets) (hidle : c.idle = true) :
    c.shared.store = s.store.handleAll packets := by
  cases h with
  | fresh _ hstore => exact hstore
  | saving s₀ now message address older hstore hsaving =>
    rw [handleAll_concat, ← hstore]
    exact (Config.result_of_idle WorkerRely.refl hidle hsaving.safe).store

/-- The file is that of the packets before, or that of all packets. -/
theorem Surviving.file (h : Surviving s c packets) : ∃ lived, lived <+: packets ∧
    packets.length ≤ lived.length + 1 ∧ (c.idle = true → lived = packets) ∧
    c.shared.disk = (s.store.handleAll lived).disk := by
  cases hidle : c.idle with
  | true => exact ⟨packets, List.prefix_rfl, Nat.le_succ _, fun _ => rfl,
      congrArg Store.disk (h.settled hidle)⟩
  | false =>
    cases h with
    | fresh hidle' _ => exact absurd (hidle'.symm.trans hidle) (by decide)
    | saving s₀ now message address older hstore hsaving =>
      obtain hdisk | hdisk := hsaving.writes.shows
      · refine ⟨older, List.prefix_append _ _, by simp, fun h => (by cases h), ?_⟩
        rw [hdisk, ← hstore]
        rfl
      · refine ⟨older ++ [(message, address)], List.prefix_rfl, Nat.le_succ _, fun h => (by cases h), ?_⟩
        rw [hdisk, handleAll_concat, ← hstore]
        exact congrArg Store.disk (hsaving.safe.exec WorkerRely.refl).store

theorem Surviving.move (h : Surviving s c packets) (m : Move) :
    Surviving s (move c m) (packets ++ taken c m) := by
  cases m with
  | arrive now message address =>
    cases hidle : c.idle with
    | false =>
      have hsame : Server.move c (.arrive now message address) = c := Config.start_of_busy hidle _
      simpa [hsame, taken, hidle] using h
    | true =>
      have hstart : Server.move c (.arrive now message address) =
          ⟨c.shared, messageHandler now message address⟩ := Config.start_of_idle hidle _
      rw [hstart]
      simp only [taken, hidle, if_true]
      exact .saving c.shared now message address packets (h.settled hidle)
        ⟨messageHandler_safe c.shared now message address,
          .inl ⟨rfl, messageHandler_once now message address⟩⟩
  | advance =>
    have htaken : packets ++ taken c .advance = packets := List.append_nil _
    rw [htaken]
    cases h with
    | fresh hidle hstore =>
      have hsame : c.advance = c := by
        obtain ⟨-, he⟩ | ⟨β, f, k, -, hbusy, -⟩ := c.advance_cases
        · exact he
        · exact absurd (hidle.symm.trans hbusy) (by decide)
      exact .fresh (by rw [Server.move, hsame]; exact hidle) (by rw [Server.move, hsame]; exact hstore)
    | saving s₀ now message address older hstore hsaving =>
      exact .saving s₀ now message address older hstore
        ⟨Config.safe_advance WorkerRely.refl hsaving.safe, hsaving.writes.advance⟩
  | worker now =>
    have htaken : packets ++ taken c (.worker now) = packets := List.append_nil _
    rw [htaken]
    have hrely := worker_rely now c.shared
    cases h with
    | fresh hidle hstore => exact .fresh hidle (hrely.store.trans hstore)
    | saving s₀ now' message address older hstore hsaving =>
      exact .saving s₀ now' message address older hstore
        ⟨Config.safe_interfere (fun _ _ _ => WorkerRely.trans) hsaving.safe hrely,
          hsaving.writes.interfere (congrArg Store.disk hrely.store)⟩

theorem accepted_concat (s : Server) (moves : List Move) (m : Move) :
    accepted s (moves ++ [m]) = accepted s moves ++ taken (s.run moves) m := by
  rw [accepted, List.foldl_append, List.foldl_cons, List.foldl_nil, moveTaking, foldl_moveTaking]
  rfl

theorem run_surviving (s : Server) (moves : List Move) :
    Surviving s (s.run moves) (accepted s moves) := by
  induction moves using List.reverseRecOn with
  | nil => exact .fresh rfl rfl
  | append_singleton moves m ih =>
    rw [accepted_concat, run_concat]
    exact ih.move m

end Server

namespace Store

def empty : Store := ⟨⟨[]⟩, .empty, ⟨true, none⟩⟩

/-- What a server has that is started from the file. -/
def restart (st : Store) : Store := ⟨st.profiles.forgetSessions, .empty, st.disk⟩

/-- Servers one after the other, each with the packets that it handles. -/
def lifetimes (st : Store) (lives : List (List (Packet × SocketAddress))) : Store :=
  lives.foldl (fun st packets => st.restart.handleAll packets) st

theorem lifetimes_concat (st : Store) (lives : List (List (Packet × SocketAddress)))
    (packets : List (Packet × SocketAddress)) :
    st.lifetimes (lives ++ [packets]) = (st.lifetimes lives).restart.handleAll packets := by
  simp [lifetimes]

theorem handleAll_append (st : Store) (packets more : List (Packet × SocketAddress)) :
    st.handleAll (packets ++ more) = (st.handleAll packets).handleAll more := List.foldl_append

theorem handleAll_handles (st : Store) (packets : List (Packet × SocketAddress)) :
    st.profiles.handles <+: (st.handleAll packets).profiles.handles := by
  induction packets generalizing st with
  | nil => exact List.prefix_rfl
  | cons x packets ih =>
    have hone : st.profiles.handles <+: (st.handle x.1 x.2).profiles.handles := by
      rw [handle_handles]
      split
      · exact List.prefix_append _ _
      · exact List.prefix_rfl
    exact hone.trans (ih _)

/-- Fewer packets make no more profiles. -/
theorem handleAll_count (st : Store) {packets more : List (Packet × SocketAddress)}
    (h : packets <+: more) : (st.handleAll packets).profiles.profiles.length ≤
      (st.handleAll more).profiles.profiles.length := by
  obtain ⟨rest, rfl⟩ := h
  have hle := (handleAll_handles (st.handleAll packets) rest).length_le
  rw [handleAll_append]
  simpa [ProfileManager.handles] using hle

end Store

namespace Server

/-- The packets that a server has taken until it was killed, and whether its last
handler was done. -/
structure Life where
  taken : List (Packet × SocketAddress)
  idle : Bool

/-- All that was taken is left, the last packet maybe not if it was being handled. -/
structure Life.Leaves (life : Life) (lived : List (Packet × SocketAddress)) : Prop where
  earlier : lived <+: life.taken
  atMostOne : life.taken.length ≤ lived.length + 1
  settled : life.idle = true → lived = life.taken

def CleanPackets (packets : List (Packet × SocketAddress)) : Prop :=
  ∀ x ∈ packets, x.1.type = packetConnectCmd → ProfileManager.CleanHandle x.1.text

/-- The file after servers were started from it and killed, each at any moment of its
run between two actions. -/
inductive Killed : Option Str → List Life → Prop
  | never : Killed none []
  | killed {file : Option Str} {lives : List Life} (h : Killed file lives) {numProfiles r : Int}
      {profiles : ProfileManager}
      (hread : ProfileManager.readProfilesFromFile file numProfiles = .ok (profiles, r))
      (thisPeer : Peer) (peers : List Peer) (moves : List Move)
      (hclean : CleanPackets (accepted (new thisPeer peers ⟨true, file⟩ profiles) moves))
      (hcount : ((new thisPeer peers ⟨true, file⟩ profiles).store.handleAll
        (accepted (new thisPeer peers ⟨true, file⟩ profiles) moves)).profiles.profiles.length < 2 ^ 31) :
      Killed ((new thisPeer peers ⟨true, file⟩ profiles).run moves).shared.disk.profiles
        (lives ++ [⟨accepted (new thisPeer peers ⟨true, file⟩ profiles) moves,
          ((new thisPeer peers ⟨true, file⟩ profiles).run moves).idle⟩])

theorem kept_handleAll {st : Store} (h : Kept st) {packets : List (Packet × SocketAddress)}
    (hclean : CleanPackets packets) : Kept (st.handleAll packets) := by
  induction packets generalizing st with
  | nil => exact h
  | cons x packets ih =>
    exact ih (handle_kept h x.2 (hclean x List.mem_cons_self)) fun y hy =>
      hclean y (List.mem_cons_of_mem _ hy)

theorem kept_restart {st : Store} (h : Kept st) : Kept st.restart := by
  refine ⟨ProfileManager.clean_forgetSessions h.1, h.2.writable, ?_⟩
  obtain hs | ⟨hs, he⟩ := h.2.saved
  · have hsync : st.restart.profiles.sync = st.profiles.sync :=
      ProfileManager.sync_congr ProfileManager.graphOf_forgetSessions
    exact .inl (hs.trans (congrArg some hsync.symm))
  · refine .inr ⟨hs, ?_⟩
    rw [Store.restart, he]
    rfl

/-- What the file stands for, however often a server was killed. -/
structure Stands (file : Option Str) (lives : List Life) (st : Store) : Prop where
  lived : ∃ lived, List.Forall₂ Life.Leaves lives lived ∧ Store.empty.lifetimes lived = st
  kept : Kept st
  disk : st.disk = ⟨true, file⟩
  count : st.profiles.profiles.length < 2 ^ 31

theorem killed_stands {file : Option Str} {lives : List Life} (h : Killed file lives) :
    ∃ st, Stands file lives st := by
  induction h with
  | never =>
    refine ⟨.empty, ⟨[], .nil, rfl⟩, ⟨⟨ProfileManager.graph_empty, ?_⟩, rfl, .inr ⟨rfl, rfl⟩⟩, rfl,
      by decide⟩
    intro u hu
    cases hu
  | @killed file lives _ numProfiles r profiles hread thisPeer peers moves hclean hcount ih =>
    obtain ⟨st, ⟨lived, hlived, hst⟩, hkept, hdisk, hfew⟩ := ih
    obtain ⟨r', hread'⟩ := read_kept hkept hfew numProfiles
    rw [hdisk] at hread'
    cases hread.symm.trans hread'
    have hstore : (new thisPeer peers ⟨true, file⟩ st.profiles.forgetSessions).store = st.restart := by
      rw [Store.restart, hdisk]
      rfl
    obtain ⟨more, hearlier, hone, hsettled, hfile⟩ := (run_surviving
      (new thisPeer peers ⟨true, file⟩ st.profiles.forgetSessions) moves).file
    rw [hstore] at hcount hfile
    have hkept' : Kept (st.restart.handleAll more) := kept_handleAll (kept_restart hkept)
      fun x hx => hclean x (hearlier.subset hx)
    refine ⟨st.restart.handleAll more, ⟨lived ++ [more], ?_, ?_⟩, hkept', ?_, ?_⟩
    · exact List.rel_append hlived (.cons ⟨hearlier, hone, hsettled⟩ .nil)
    · rw [Store.lifetimes_concat, hst]
    · rw [hfile, ← hkept'.2.writable]
    · exact lt_of_le_of_lt (st.restart.handleAll_count hearlier) hcount

/-- However often the server is killed and started again, the file is read as the follow
graph of all packets that were handled: of each life, all that it has taken but at most
the one that was being handled. -/
theorem killed_restores {file : Option Str} {lives : List Life} (h : Killed file lives)
    (numProfiles : Int) : ∃ lived, List.Forall₂ Life.Leaves lives lived ∧
      ∃ m r, ProfileManager.readProfilesFromFile file numProfiles = .ok (m, r) ∧
        m.view = (Store.empty.lifetimes lived).profiles.view := by
  obtain ⟨st, ⟨lived, hlived, rfl⟩, hkept, hdisk, hfew⟩ := killed_stands h
  obtain ⟨r, hread⟩ := read_kept hkept hfew numProfiles
  rw [hdisk] at hread
  exact ⟨lived, hlived, _, r, hread, ProfileManager.view_congr ProfileManager.graphOf_forgetSessions⟩

/-- A server with one user is killed when it is idle, and the next one before it has
saved another user. -/
theorem killed_restores_twice : ∃ lived, List.Forall₂ Life.Leaves
      [⟨[(clientPacket packetConnectCmd 0 [97], ⟨[], 1⟩)], true⟩,
        ⟨[(clientPacket packetConnectCmd 0 [98], ⟨[], 2⟩)], false⟩] lived ∧
    ∃ m r, ProfileManager.readProfilesFromFile (some [49, 10, 97, 10]) 0 = .ok (m, r) ∧
      m.view = (Store.empty.lifetimes lived).profiles.view := by
  have hclean : ∀ (b : UInt8) (port : Int), b ∈ [(97 : UInt8), 98] →
      CleanPackets [(clientPacket packetConnectCmd 0 [b], ⟨[], port⟩)] := by
    intro b port hb x hx _
    rw [List.mem_singleton.mp hx]
    obtain rfl | hb := List.mem_cons.mp hb
    · rw [clientPacket_text (by decide), cString_of_ne_zero (by simp)]
      exact ⟨by decide, List.forall_mem_singleton.mpr (by decide)⟩
    · rw [List.mem_singleton.mp hb, clientPacket_text (by decide), cString_of_ne_zero (by simp)]
      exact ⟨by decide, List.forall_mem_singleton.mpr (by decide)⟩
  have hfirst : Killed (some [49, 10, 97, 10])
      [⟨[(clientPacket packetConnectCmd 0 [97], ⟨[], 1⟩)], true⟩] := by
    have hread : ProfileManager.readProfilesFromFile none 0 = .ok (⟨[]⟩, 0) := rfl
    exact Killed.never.killed hread ⟨[], 0, true⟩ []
      (handling 20 (clientPacket packetConnectCmd 0 [97]) ⟨[], 1⟩) (hclean 97 1 (by decide)) (by decide)
  have hsecond : Killed (some [49, 10, 97, 10])
      [⟨[(clientPacket packetConnectCmd 0 [97], ⟨[], 1⟩)], true⟩,
        ⟨[(clientPacket packetConnectCmd 0 [98], ⟨[], 2⟩)], false⟩] := by
    have hread : ProfileManager.readProfilesFromFile (some [49, 10, 97, 10]) 0 =
        .ok (⟨[⟨[97], [], .unset⟩]⟩, 1) := rfl
    exact hfirst.killed hread ⟨[], 0, true⟩ []
      (handling 3 (clientPacket packetConnectCmd 0 [98]) ⟨[], 2⟩) (hclean 98 2 (by decide)) (by decide)
  exact killed_restores hsecond 0

end Server

end Piupiu
