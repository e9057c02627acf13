import Piupiu.Provenance
import Piupiu.Notifications
import Piupiu.Lib.History

/-!
# The numbers of a broadcast

Calls of `BroadcastToSecondaries` one after another, with the worker, incoming
confirmations and new notifications in between. The counter is read twice for
each call: the slots of the container are numbered from the first reading, the
packets for the secondaries from the second one.
-/
namespace Piupiu

open Atomic Atomic.Prog Server

/-- The number of the packet for the secondary at position `i`. -/
def Broadcast.number (b : Broadcast) (i : Nat) : UInt64 := b.lastSeqnTemp + UInt64.ofNat i

/-- The events after the broadcast that pushed the container at `k`. -/
def since : List Event → Nat → List Event
  | [], _ => []
  | e :: log, k =>
    match e.broadcast? with
    | none => since log k
    | some _ =>
      match k with
      | 0 => log
      | k + 1 => since log k

theorem since_suffix (log : List Event) (k : Nat) : since log k <:+ log := by
  induction log generalizing k with
  | nil => exact List.suffix_rfl
  | cons e log ih =>
    simp only [since]
    split
    · exact (ih k).trans (List.suffix_cons e log)
    · split
      · exact List.suffix_cons e log
      · next k => exact (ih k).trans (List.suffix_cons e log)

/-- The number is confirmed after the container at `k` was pushed. -/
def ConfirmedSince (log : List Event) (k : Nat) (n : UInt64) : Prop := .confirm n ∈ since log k

theorem since_append {log : List Event} {k : Nat} (hk : k < (broadcasts log).length)
    (events : List Event) : since (log ++ events) k = since log k ++ events := by
  induction log generalizing k with
  | nil => cases hk
  | cons e log ih =>
    cases he : e.broadcast? with
    | none =>
      rw [broadcasts, List.filterMap_cons_none he] at hk
      simp only [List.cons_append, since, he]
      exact ih hk
    | some b =>
      rw [broadcasts, List.filterMap_cons_some he, List.length_cons] at hk
      simp only [List.cons_append, since, he]
      cases k with
      | zero => rfl
      | succ k => exact ih (by rw [broadcasts]; omega)

theorem since_push {log : List Event} {e : Event} {b : Broadcast} (he : e.broadcast? = some b) :
    since (log ++ [e]) (broadcasts log).length = [] := by
  induction log with
  | nil => simp [since, he, broadcasts]
  | cons a log ih =>
    cases ha : a.broadcast? with
    | none =>
      rw [broadcasts, List.filterMap_cons_none ha]
      simp only [List.cons_append, since, ha]
      exact ih
    | some b' =>
      rw [broadcasts, List.filterMap_cons_some ha, List.length_cons]
      simp only [List.cons_append, since, ha]
      exact ih

theorem broadcasts_quiet {e : Event} (he : e.broadcast? = none) : broadcasts [e] = [] := by
  simp [broadcasts, he]

theorem calls_quiet {e : Event} (he : e.call? = none) : calls [e] = [] := by
  simp [calls, he]

/-- The container of a broadcast, with the flags that were set since. -/
theorem run_calls_get {log : List Event} {k : Nat} {b : Broadcast}
    (hb : (broadcasts log)[k]? = some b) : (ConfirmationBuffer.run (calls log)).buffer[k]? =
      some (ConfirmationBuffer.settled (ReplicaManager.copies b.lastSeqn b.message) b.message.seqn
        b.senderAddress (calls (since log k))) := by
  induction log using List.reverseRecOn with
  | nil => cases hb
  | append_singleton log e ih =>
    rw [broadcasts_append] at hb
    cases e with
    | broadcast message senderAddress lastSeqn lastSeqnTemp =>
      have hcalls : calls [Event.broadcast message senderAddress lastSeqn lastSeqnTemp] =
        [.push (ReplicaManager.copies lastSeqn message) message.seqn senderAddress] := rfl
      rw [calls_append, hcalls, ConfirmationBuffer.run_append_singleton]
      simp only [ConfirmationBuffer.History.apply, ConfirmationBuffer.push]
      by_cases hk : k < (broadcasts log).length
      · rw [List.getElem?_append_left hk] at hb
        rw [List.getElem?_append_left (by rwa [run_calls_length]), ih hb, since_append hk,
          calls_append, hcalls, ConfirmationBuffer.settled_push]
      · have hlt := (List.getElem?_eq_some_iff.mp hb).1
        rw [List.length_append] at hlt
        have hlast : k = (broadcasts log).length := by
          have hone : (broadcasts [Event.broadcast message senderAddress lastSeqn
            lastSeqnTemp]).length = 1 := rfl
          omega
        subst hlast
        rw [since_push rfl, ← run_calls_length, List.getElem?_concat_length]
        rw [List.getElem?_append_right (Nat.le_refl _), Nat.sub_self] at hb
        cases hb
        simp [ConfirmationBuffer.settled, ConfirmationBuffer.confirmed, calls]
    | confirm n =>
      have hcalls : calls [Event.confirm n] = [.confirm n] := rfl
      rw [show broadcasts [Event.confirm n] = [] from rfl, List.append_nil] at hb
      have hk := (List.getElem?_eq_some_iff.mp hb).1
      rw [calls_append, hcalls, ConfirmationBuffer.run_append_singleton]
      simp only [ConfirmationBuffer.History.apply, ConfirmationBuffer.confirm_containers,
        List.getElem?_map, ih hb, Option.map_some]
      rw [since_append hk, calls_append, hcalls, ConfirmationBuffer.settled_confirm]
    | _ =>
      rw [broadcasts_quiet rfl, List.append_nil] at hb
      have hk := (List.getElem?_eq_some_iff.mp hb).1
      rw [calls_append, since_append hk, calls_append, calls_quiet rfl, List.append_nil,
        List.append_nil]
      exact ih hb

/-- A container is complete exactly when each of its numbers is confirmed. -/
theorem isConfirmed_settled {log : List Event} (message : Packet) (lastSeqn : UInt64)
    (address : SocketAddress) : (ConfirmationBuffer.settled (ReplicaManager.copies lastSeqn message)
      message.seqn address (calls log)).isConfirmed = true ↔
        ∀ j < 3, .confirm (lastSeqn + UInt64.ofNat j) ∈ log := by
  rw [ConfirmableContainer.isConfirmed_iff]
  refine forall₂_congr fun j hj => ?_
  have hnumber := ReplicaManager.copies_sequenceNumber lastSeqn message ⟨j, hj⟩
  simp only [ConfirmationBuffer.settled, Vector.getElem_map, decide_eq_true_eq]
  rw [← mem_confirmed_calls, ← hnumber]
  rfl

namespace Calls

/-- What can happen on a primary: a call, one action of the running call, an
iteration of the worker, a confirmation, or a notification that comes into the queue. -/
inductive Move where
  | call (message : Packet) (senderAddress : SocketAddress)
  | advance
  | worker (now : UInt64)
  | confirm (now seqn : UInt64)
  | enqueue (n : PendingNotification)

def move (c : Config Server) : Move → Config Server
  | .call message senderAddress => c.start (broadcastToSecondaries message senderAddress)
  | .advance => c.advance
  | .worker now => c.interfere (pendingNotificationWorker now)
  | .confirm now seqn => c.interfere fun s => s.confirmBuffer now seqn
  | .enqueue n => c.interfere fun s => s.enqueue n

/-- The server with nothing broadcast yet. -/
def fresh (s : Server) : Server :=
  { s with replicaManager := { s.replicaManager with confirmationBuffer := [] }, log := [] }

def run (s : Server) (moves : List Move) : Config Server := moves.foldl move ⟨fresh s, .done ()⟩

theorem run_concat (s : Server) (moves : List Move) (m : Move) :
    run s (moves ++ [m]) = move (run s moves) m := by
  simp [run]

/-- What is left of a call that has yet to take some of its three numbers. -/
def takeNumbers (message : Packet) (senderAddress : SocketAddress) (peers : List Peer)
    (lastSeqn lastSeqnTemp : UInt64) : Nat → Prog Server Unit
  | 0 => do
    let container ← atomic fun s => s.pushContainer message senderAddress lastSeqn lastSeqnTemp
    sendToPeers message lastSeqnTemp container 0 peers
  | left + 1 => do
    update incrementSeqn
    takeNumbers message senderAddress peers lastSeqn lastSeqnTemp left

/-- What is left of a call that has read the counter once. -/
def secondReading (message : Packet) (senderAddress : SocketAddress) (peers : List Peer)
    (lastSeqn : UInt64) : Prog Server Unit := do
  let lastSeqnTemp ← read getLastSeqn
  takeNumbers message senderAddress peers lastSeqn lastSeqnTemp 3

def firstReading (message : Packet) (senderAddress : SocketAddress) (peers : List Peer) :
    Prog Server Unit := do
  let lastSeqn ← read getLastSeqn
  secondReading message senderAddress peers lastSeqn

theorem broadcastToSecondaries_eq (message : Packet) (senderAddress : SocketAddress) :
    broadcastToSecondaries message senderAddress =
      read (fun s => s.replicaManager.getSecondaryReplicas) >>= firstReading message senderAddress :=
  rfl

/-- A call has read the counter once. -/
def BetweenReadings (c : Config Server) : Prop := ∃ message senderAddress peers lastSeqn,
  c.running = secondReading message senderAddress peers lastSeqn

/-- The worker sends nothing between the two readings of a call. -/
def Undisturbed (c : Config Server) : Move → Prop
  | .worker _ => BetweenReadings c →
    ∀ n, c.shared.notificationQueue.head? = some n → ¬c.shared.Online n.recipient
  | _ => True

/-- What the log says about the broadcasts, whose numbers are all below `bound`. -/
structure Sound (peers : List Peer) (bound : Nat) (s : Server) : Prop where
  secondaries : s.replicaManager.getSecondaryReplicas = peers
  history : (ConfirmationBuffer.run (calls s.log)).buffer = s.replicaManager.confirmationBuffer
  copies : ∀ address message k i, .sent address message (.forward k i) ∈ s.log →
    ∃ b peer, (broadcasts s.log)[k]? = some b ∧ peers[i]? = some peer ∧
      address = peer.getSocketAddress ∧ message = { b.message with seqn := b.number i }
  spans : ∃ starts : List Nat, Spans s.log bound (starts.map fun x => (x, x))

/-- The broadcast at `k` was sent to the first secondaries, `upto` of them. -/
def SentTo (peers : List Peer) (log : List Event) (k upto : Nat) : Prop :=
  ∀ i peer, i < upto → peers[i]? = some peer →
    ∃ message, .sent peer.getSocketAddress message (.forward k i) ∈ log

/-- The broadcasts so far are sound and were sent to everybody. -/
structure Settled (peers : List Peer) (bound : Nat) (s : Server) : Prop where
  sound : Sound peers bound s
  sent : ∀ k < (broadcasts s.log).length, SentTo peers s.log k peers.length

/-- What another party may do to the server during a call. -/
structure Meanwhile (s s' : Server) : Prop where
  sound : ∀ peers bound, Sound peers bound s → Sound peers bound s'
  seqn : s.lastSeqn ≤ s'.lastSeqn
  broadcasts : broadcasts s'.log = broadcasts s.log
  log : s.log <+: s'.log

/-- The points of a call, with what is known there. -/
inductive Point (peers : List Peer) : Config Server → Prop
  | idle {s : Server} (h : Settled peers s.lastSeqn s) : Point peers ⟨s, .done ()⟩
  | called (message : Packet) (senderAddress : SocketAddress) {s : Server}
      (h : Settled peers s.lastSeqn s) :
      Point peers ⟨s, broadcastToSecondaries message senderAddress⟩
  | first (message : Packet) (senderAddress : SocketAddress) {s : Server}
      (h : Settled peers s.lastSeqn s) : Point peers ⟨s, firstReading message senderAddress peers⟩
  | second (message : Packet) (senderAddress : SocketAddress) {s : Server}
      (h : Settled peers s.lastSeqn s) :
      Point peers ⟨s, secondReading message senderAddress peers s.getLastSeqn⟩
  | counting (message : Packet) (senderAddress : SocketAddress) (lastSeqn left : Nat) {s : Server}
      (h : Settled peers lastSeqn s) (hle₀ : lastSeqn ≤ s.lastSeqn)
      (hle : lastSeqn + 3 ≤ s.lastSeqn + left) :
      Point peers ⟨s, takeNumbers message senderAddress peers (UInt64.ofNat lastSeqn)
        (UInt64.ofNat lastSeqn) left⟩
  | sending (message : Packet) (senderAddress : SocketAddress) (lastSeqn : UInt64) (k i : Nat)
      {s : Server} (h : Sound peers s.lastSeqn s) (hk : k + 1 = (broadcasts s.log).length)
      (hb : (broadcasts s.log)[k]? = some ⟨message, senderAddress, lastSeqn, lastSeqn⟩)
      (hold : ∀ k' < k, SentTo peers s.log k' peers.length) (hsent : SentTo peers s.log k i) :
      Point peers ⟨s, sendToPeers message lastSeqn k i (peers.drop i)⟩

variable {peers : List Peer}

theorem SentTo.mono {log log' : List Event} {k upto : Nat} (h : SentTo peers log k upto)
    (hlog : log <+: log') : SentTo peers log' k upto := by
  intro i peer hi hpeer
  obtain ⟨message, hm⟩ := h i peer hi hpeer
  exact ⟨message, hlog.subset hm⟩

theorem Sound.mono {bound bound' : Nat} {s : Server} (h : Sound peers bound s)
    (hle : bound ≤ bound') : Sound peers bound' s := by
  obtain ⟨starts, hn, ha, hb⟩ := h.spans
  refine ⟨h.secondaries, h.history, h.copies, starts, hn, ha, fun x hx => ?_⟩
  have hx := hb x hx
  omega

/-- Events that are neither broadcasts nor copies. -/
theorem Sound.extend {bound : Nat} {s s' : Server} (h : Sound peers bound s) {events : List Event}
    (hpeers : s'.replicaManager.peers = s.replicaManager.peers) (hlog : s'.log = s.log ++ events)
    (hquiet : broadcasts events = [])
    (hcopies : ∀ address message k i, .sent address message (.forward k i) ∉ events)
    (hhistory : (ConfirmationBuffer.run (calls s'.log)).buffer =
      s'.replicaManager.confirmationBuffer) : Sound peers bound s' := by
  have hbroadcasts : broadcasts s'.log = broadcasts s.log := by
    rw [hlog, broadcasts_append, hquiet, List.append_nil]
  refine ⟨?_, hhistory, fun address message k i hm => ?_, ?_⟩
  · rw [← h.secondaries]
    simp only [ReplicaManager.getSecondaryReplicas, hpeers]
  · rw [hlog, List.mem_append] at hm
    rw [hbroadcasts]
    exact h.copies address message k i (hm.resolve_right (hcopies address message k i))
  · obtain ⟨starts, hn, ha, hb⟩ := h.spans
    exact ⟨starts, by rw [hbroadcasts, hn], ha, hb⟩

theorem worker_meanwhile (s : Server) (now : UInt64) :
    Meanwhile s (s.pendingNotificationWorker now) := by
  have hrely := worker_rely now s
  obtain ⟨events, hlog, hevents⟩ := hrely.log
  have hquiet := broadcasts_byWorker hevents
  have hcalls : calls events = [] :=
    List.filterMap_eq_nil_iff.mpr fun e he => (apart_byWorker (hevents e he)).1
  refine ⟨fun peers bound h => ?_, hrely.seqn, ?_, ?_⟩
  · refine h.extend (congrArg _ hrely.replicas) hlog hquiet (fun address message k i hm => ?_) ?_
    · have hworker := hevents _ hm
      cases hworker
    · rw [hlog, calls_append, hcalls, List.append_nil, h.history, hrely.replicas]
  · rw [hlog, broadcasts_append, hquiet, List.append_nil]
  · rw [hlog]
    exact List.prefix_append _ _

theorem confirm_meanwhile (s : Server) (now seqn : UInt64) :
    Meanwhile s (s.confirmBuffer now seqn) := by
  have hquiet : broadcasts (confirmEvents now s.replicaManager.confirmationBuffer seqn) = [] := by
    refine List.filterMap_eq_nil_iff.mpr fun e he => ?_
    obtain rfl | ⟨k, c, -, -, -, rfl⟩ := mem_confirmEvents he <;> rfl
  rw [confirmBuffer_eq]
  refine ⟨fun peers bound h => ?_, Nat.le_refl _, ?_, List.prefix_append _ _⟩
  · refine h.extend rfl rfl hquiet (fun address message k i hm => ?_) ?_
    · obtain he | ⟨k, c, -, -, -, he⟩ := mem_confirmEvents hm <;> cases he
    · simp only [calls_append, calls_confirmEvents, ConfirmationBuffer.run_append_singleton,
        ConfirmationBuffer.History.apply, h.history]
  · rw [broadcasts_append, hquiet, List.append_nil]

theorem enqueue_meanwhile (s : Server) (n : PendingNotification) : Meanwhile s (s.enqueue n) := by
  refine ⟨fun peers bound h => ?_, Nat.le_refl _, ?_, List.prefix_append _ _⟩
  · refine h.extend rfl rfl rfl (by simp) ?_
    simp only [enqueue, record, calls_append, calls_quiet (e := .enqueued n) rfl, List.append_nil,
      h.history]
  · simp only [enqueue, record, broadcasts_append, broadcasts_quiet (e := .enqueued n) rfl,
      List.append_nil]

theorem Settled.meanwhile {bound : Nat} {s s' : Server} (h : Settled peers bound s)
    (hm : Meanwhile s s') : Settled peers bound s' := by
  refine ⟨hm.sound peers bound h.sound, fun k hk => ?_⟩
  rw [hm.broadcasts] at hk
  exact (h.sent k hk).mono hm.log

theorem Settled.mono {bound bound' : Nat} {s : Server} (h : Settled peers bound s)
    (hle : bound ≤ bound') : Settled peers bound' s := ⟨h.sound.mono hle, h.sent⟩

theorem interfere_point {c : Config Server} (h : Point peers c) {f : Server → Server}
    (hm : Meanwhile c.shared (f c.shared))
    (hsame : BetweenReadings c → (f c.shared).lastSeqn = c.shared.lastSeqn) :
    Point peers (c.interfere f) := by
  cases h with
  | idle h => exact .idle ((h.meanwhile hm).mono hm.seqn)
  | called message senderAddress h =>
    exact .called message senderAddress ((h.meanwhile hm).mono hm.seqn)
  | first message senderAddress h =>
    exact .first message senderAddress ((h.meanwhile hm).mono hm.seqn)
  | @second message senderAddress s h =>
    have hseqn : (f s).lastSeqn = s.lastSeqn := hsame ⟨message, senderAddress, peers, _, rfl⟩
    have hpoint := Point.second message senderAddress ((h.meanwhile hm).mono hm.seqn)
    have hreading : (f s).getLastSeqn = s.getLastSeqn := by rw [getLastSeqn, hseqn, getLastSeqn]
    rwa [hreading] at hpoint
  | counting message senderAddress lastSeqn left h hle₀ hle =>
    exact .counting message senderAddress lastSeqn left (h.meanwhile hm) (hle₀.trans hm.seqn)
      (hle.trans (Nat.add_le_add_right hm.seqn left))
  | sending message senderAddress lastSeqn k i h hk hb hold hsent =>
    refine .sending message senderAddress lastSeqn k i ((hm.sound peers _ h).mono hm.seqn) ?_ ?_
      (fun k' hk' => (hold k' hk').mono hm.log) (hsent.mono hm.log)
    · rw [hm.broadcasts, hk]
    · rw [hm.broadcasts, hb]

/-- The push of a container whose numbers are those of the three increments. -/
theorem push_sound {s : Server} {lastSeqn : Nat} (h : Sound peers lastSeqn s)
    (hle : lastSeqn + 3 ≤ s.lastSeqn) (message : Packet) (senderAddress : SocketAddress) :
    Sound peers s.lastSeqn (s.pushContainer message senderAddress (UInt64.ofNat lastSeqn)
      (UInt64.ofNat lastSeqn)).1 := by
  have hcalls : calls [Event.broadcast message senderAddress (UInt64.ofNat lastSeqn)
    (UInt64.ofNat lastSeqn)] = [.push (ReplicaManager.copies (UInt64.ofNat lastSeqn) message)
      message.seqn senderAddress] := rfl
  refine ⟨h.secondaries, ?_, fun address m k i hm => ?_, ?_⟩
  · simp only [pushContainer, record, calls_append, hcalls,
      ConfirmationBuffer.run_append_singleton, ConfirmationBuffer.History.apply, h.history]
  · simp only [pushContainer, record, List.mem_append, List.mem_singleton, reduceCtorEq,
      or_false] at hm
    obtain ⟨b, peer, hb, hrest⟩ := h.copies address m k i hm
    refine ⟨b, peer, ?_, hrest⟩
    simp only [pushContainer, record, broadcasts_append]
    rw [List.getElem?_append_left (List.getElem?_eq_some_iff.mp hb).1, hb]
  · obtain ⟨starts, hn, ha, hb⟩ := h.spans
    refine ⟨starts ++ [lastSeqn], ?_, ?_, fun x hx => ?_⟩
    · simp only [pushContainer, record, broadcasts_append, List.map_append, hn]
      rfl
    · rw [List.map_append, List.pairwise_append]
      refine ⟨ha, List.pairwise_singleton _ _, fun x hx y hy => ?_⟩
      rw [List.mem_singleton.mp hy]
      exact (hb x hx).2
    · rw [List.map_append] at hx
      obtain hx | hx := List.mem_append.mp hx
      · have hx := hb x hx
        omega
      · rw [List.mem_singleton.mp hx]
        exact ⟨Nat.le_refl _, hle⟩

theorem push_point {s : Server} {lastSeqn : Nat} (h : Settled peers lastSeqn s)
    (hle : lastSeqn + 3 ≤ s.lastSeqn) (message : Packet) (senderAddress : SocketAddress) :
    Point peers ⟨(s.pushContainer message senderAddress (UInt64.ofNat lastSeqn)
      (UInt64.ofNat lastSeqn)).1, sendToPeers message (UInt64.ofNat lastSeqn)
        s.replicaManager.confirmationBuffer.length 0 peers⟩ := by
  have hlength : s.replicaManager.confirmationBuffer.length = (broadcasts s.log).length := by
    rw [← h.sound.history, run_calls_length]
  rw [hlength]
  have hlog : broadcasts (s.pushContainer message senderAddress (UInt64.ofNat lastSeqn)
      (UInt64.ofNat lastSeqn)).1.log = broadcasts s.log ++
        [⟨message, senderAddress, UInt64.ofNat lastSeqn, UInt64.ofNat lastSeqn⟩] := by
    simp only [pushContainer, record, broadcasts_append]
    rfl
  refine .sending message senderAddress _ _ 0 (push_sound h.sound hle message senderAddress) ?_ ?_
    (fun k hk => (h.sent k hk).mono (List.prefix_append _ _)) (fun i peer hi => absurd hi (by omega))
  · rw [hlog, List.length_append, List.length_singleton]
  · rw [hlog, List.getElem?_concat_length]

@[simp] theorem broadcasts_send (s : Server) (address : SocketAddress) (message : Packet)
    (origin : Origin) : broadcasts (s.send address message origin).log = broadcasts s.log := by
  simp only [send, record, broadcasts_append]
  rw [broadcasts_quiet rfl, List.append_nil]

/-- The copy for the secondary at position `i`. -/
theorem send_sound {s : Server} {message : Packet} {senderAddress : SocketAddress}
    {lastSeqn : UInt64} {k i : Nat} {peer : Peer} (h : Sound peers s.lastSeqn s)
    (hb : (broadcasts s.log)[k]? = some ⟨message, senderAddress, lastSeqn, lastSeqn⟩)
    (hpeer : peers[i]? = some peer) : Sound peers s.lastSeqn (s.send peer.getSocketAddress
      { message with seqn := lastSeqn + UInt64.ofNat i } (.forward k i)) := by
  refine ⟨h.secondaries, ?_, fun address m k' i' hm => ?_, ?_⟩
  · simp only [send, record, calls_append]
    rw [calls_quiet rfl, List.append_nil, h.history]
  · rw [broadcasts_send]
    obtain hm | hm := List.mem_append.mp hm
    · exact h.copies address m k' i' hm
    · cases List.mem_singleton.mp hm
      exact ⟨_, peer, hb, hpeer, rfl, rfl⟩
  · obtain ⟨starts, hn, ha, hbound⟩ := h.spans
    exact ⟨starts, by rw [broadcasts_send, hn], ha, hbound⟩

/-- Each action of a call leads from one of its points to the next one. -/
theorem advance_point {c : Config Server} (h : Point peers c) : Point peers c.advance := by
  cases h with
  | idle h => exact .idle h
  | @called message senderAddress s h =>
    have hpoint := Point.first message senderAddress h
    rwa [← h.sound.secondaries] at hpoint ⊢
  | first message senderAddress h => exact .second message senderAddress h
  | second message senderAddress h =>
    exact .counting message senderAddress _ 3 h (Nat.le_refl _) (Nat.le_refl _)
  | @counting message senderAddress lastSeqn left s h hle₀ hle =>
    cases left with
    | zero => exact push_point h hle message senderAddress
    | succ left =>
      have hsound : Sound peers lastSeqn s.incrementSeqn :=
        ⟨h.sound.secondaries, h.sound.history, h.sound.copies, h.sound.spans⟩
      refine .counting message senderAddress lastSeqn left ⟨hsound, h.sent⟩
        (hle₀.trans (Nat.le_succ _)) ?_
      simp only [incrementSeqn]
      omega
  | @sending message senderAddress lastSeqn k i s h hk hb hold hsent =>
    cases hdrop : peers.drop i with
    | nil =>
      have hpoint := Point.sending message senderAddress lastSeqn k i h hk hb hold hsent
      rwa [hdrop] at hpoint
    | cons peer rest =>
      have hpeer : peers[i]? = some peer := by
        rw [← List.head?_drop, hdrop, List.head?_cons]
      have hrest : rest = peers.drop (i + 1) := by
        rw [← List.tail_drop, hdrop, List.tail_cons]
      rw [hrest]
      have hlog : s.log <+: (s.send peer.getSocketAddress
        { message with seqn := lastSeqn + UInt64.ofNat i } (.forward k i)).log :=
          List.prefix_append _ _
      refine .sending message senderAddress lastSeqn k (i + 1) (send_sound h hb hpeer) ?_ ?_
        (fun k' hk' => (hold k' hk').mono hlog) (fun i' peer' hi' hpeer' => ?_)
      · rw [broadcasts_send, hk]
      · rw [broadcasts_send, hb]
      · by_cases hi : i' = i
        · subst hi
          cases hpeer.symm.trans hpeer'
          exact ⟨_, List.mem_append_right _ List.mem_cons_self⟩
        · exact (hsent.mono hlog) i' peer' (by omega) hpeer'

/-- When no call is running, every broadcast was sent to everybody. -/
theorem settled_of_idle {c : Config Server} (h : Point peers c) (hi : c.idle = true) :
    Settled peers c.shared.lastSeqn c.shared := by
  cases h with
  | idle h => exact h
  | called | first | second => cases hi
  | counting message senderAddress lastSeqn left => cases left <;> cases hi
  | @sending message senderAddress lastSeqn k i s h hk hb hold hsent =>
    cases hdrop : peers.drop i with
    | cons peer rest =>
      rw [hdrop] at hi
      cases hi
    | nil =>
      have hlength := List.drop_eq_nil_iff.mp hdrop
      refine ⟨h, fun k' hk' => ?_⟩
      have hlast : k' < k ∨ k' = k := by
        simp only at hk'
        omega
      obtain hlt | rfl := hlast
      · exact hold k' hlt
      · exact fun i' peer' hi' hpeer' => hsent i' peer' (by omega) hpeer'

theorem move_point {c : Config Server} (h : Point peers c) {m : Move} (hm : Undisturbed c m) :
    Point peers (move c m) := by
  cases m with
  | call message senderAddress =>
    cases hi : c.idle with
    | true =>
      rw [move, Config.start_of_idle hi]
      exact .called message senderAddress (settled_of_idle h hi)
    | false =>
      rw [move, Config.start_of_busy hi]
      exact h
  | advance => exact advance_point h
  | worker now =>
    refine interfere_point h (worker_meanwhile c.shared now) fun hbetween => ?_
    obtain ⟨-, he⟩ | ⟨n, rest, -, -, he⟩ | ⟨n, rest, -, -, he⟩ | ⟨n, rest, sockets, hq, hs, hne, -⟩ :=
      c.shared.worker_cases now
    · rw [he]
    · rw [he]
      rfl
    · rw [he]
      rfl
    · exact absurd ⟨sockets, hs, hne⟩ (hm hbetween n (by rw [hq, List.head?_cons]))
  | confirm now seqn =>
    refine interfere_point (f := fun s => s.confirmBuffer now seqn) h
      (confirm_meanwhile c.shared now seqn) fun _ => ?_
    rw [confirmBuffer_eq]
  | enqueue n =>
    exact interfere_point (f := fun s => s.enqueue n) h (enqueue_meanwhile c.shared n) fun _ => rfl

theorem run_point (s : Server) {moves : List Move}
    (hm : History.EachStep (fun before m => Undisturbed (run s before) m) moves) :
    Point s.replicaManager.getSecondaryReplicas (run s moves) := by
  induction moves using List.reverseRecOn with
  | nil =>
    have hsound : Sound s.replicaManager.getSecondaryReplicas s.lastSeqn (fresh s) :=
      ⟨rfl, rfl, by simp [fresh], [], rfl, .nil, by simp⟩
    exact .idle ⟨hsound, by simp [fresh, broadcasts]⟩
  | append_singleton moves m ih =>
    obtain ⟨hbefore, hlast⟩ := (History.eachStep_concat moves m).mp hm
    rw [run_concat]
    exact move_point (ih hbefore) hlast

theorem Point.sound {c : Config Server} (h : Point peers c) :
    Sound peers c.shared.lastSeqn c.shared := by
  cases h with
  | idle h | called _ _ h | first _ _ h | second _ _ h => exact h.sound
  | counting message senderAddress lastSeqn left h hle₀ hle => exact h.sound.mono hle₀
  | sending message senderAddress lastSeqn k i h => exact h

/-- A number names one broadcast and one secondary, and a container waits for the
numbers of its own packets. -/
structure Identifies (peers : List Peer) (c : Config Server) : Prop where
  containers : c.shared.replicaManager.confirmationBuffer.length =
    (broadcasts c.shared.log).length
  number : ∀ address message k i, .sent address message (.forward k i) ∈ c.shared.log →
    ∃ b peer, (broadcasts c.shared.log)[k]? = some b ∧ peers[i]? = some peer ∧
      address = peer.getSocketAddress ∧ message = { b.message with seqn := b.number i }
  sent : c.idle = true → ∀ k < (broadcasts c.shared.log).length,
    SentTo peers c.shared.log k peers.length
  slot : ∀ (k : Nat) (b : Broadcast) (container : ConfirmableContainer 3) (i : Nat),
    (broadcasts c.shared.log)[k]? = some b →
    c.shared.replicaManager.confirmationBuffer[k]? = some container → i < peers.length →
    ∃ j, ∃ hj : j < 3, b.number i = (container.content.get ⟨j, hj⟩).item.sequenceNumber
  apart : ∀ (k k' : Nat) (b b' : Broadcast) (i i' : Nat),
    (broadcasts c.shared.log)[k]? = some b → (broadcasts c.shared.log)[k']? = some b' →
    i < peers.length → i' < peers.length → b.number i = b'.number i' → k = k' ∧ i = i'
  complete : ∀ (k : Nat) (b : Broadcast) (container : ConfirmableContainer 3),
    (broadcasts c.shared.log)[k]? = some b →
    c.shared.replicaManager.confirmationBuffer[k]? = some container →
    (container.isConfirmed = true ↔
      ∀ i < peers.length, ConfirmedSince c.shared.log k (b.number i))

/-- In a run with three secondaries in which the worker sends nothing between the
two readings of a call, an acknowledgement identifies one broadcast and one
secondary. -/
theorem acknowledgement_identifies (s : Server) (moves : List Move)
    (hthree : s.replicaManager.getSecondaryReplicas.length = 3)
    (hquiet : ∀ k m, moves[k]? = some m → Undisturbed (run s (moves.take k)) m)
    (hwrap : (run s moves).shared.lastSeqn < 2 ^ 64) :
    Identifies s.replicaManager.getSecondaryReplicas (run s moves) := by
  have hpoint := run_point s hquiet
  generalize run s moves = c at hpoint hwrap
  generalize s.replicaManager.getSecondaryReplicas = peers at hpoint hthree
  have h := hpoint.sound
  obtain ⟨starts, hspans⟩ := h.spans
  have hreadings : ∀ {k : Nat} {b : Broadcast}, (broadcasts c.shared.log)[k]? = some b →
      ∃ x, (starts.map fun x => (x, x))[k]? = some (x, x) ∧ b.lastSeqn = UInt64.ofNat x ∧
        b.lastSeqnTemp = UInt64.ofNat x := by
    intro k b hb
    obtain ⟨y, hy, hseqn, htemp⟩ := hspans.get hb
    obtain ⟨x, -, rfl⟩ := List.mem_map.mp (List.mem_of_getElem? hy)
    exact ⟨x, hy, hseqn, htemp⟩
  have hcontainer : ∀ {k : Nat} {b : Broadcast} {container : ConfirmableContainer 3},
      (broadcasts c.shared.log)[k]? = some b →
      c.shared.replicaManager.confirmationBuffer[k]? = some container → container =
        ConfirmationBuffer.settled (ReplicaManager.copies b.lastSeqn b.message) b.message.seqn
          b.senderAddress (calls (since c.shared.log k)) := by
    intro k b container hb hc
    rw [← h.history, run_calls_get hb] at hc
    exact (Option.some.inj hc).symm
  refine ⟨by rw [← h.history, run_calls_length], h.copies,
    fun hi => (settled_of_idle hpoint hi).sent, fun k b container i hb hc hi => ?_,
    fun k k' b b' i i' hb hb' hi hi' he => ?_, fun k b container hb hc => ?_⟩
  · obtain ⟨x, -, hseqn, htemp⟩ := hreadings hb
    have hi : i < 3 := by omega
    have hnumber := ReplicaManager.copies_sequenceNumber b.lastSeqn b.message ⟨i, hi⟩
    refine ⟨i, hi, ?_⟩
    rw [hcontainer hb hc, Broadcast.number, htemp, ← hseqn, ← hnumber]
    simp [ConfirmationBuffer.settled, Vector.get_eq_getElem]
  · obtain ⟨x, hx, -, htemp⟩ := hreadings hb
    obtain ⟨x', hx', -, htemp'⟩ := hreadings hb'
    rw [Broadcast.number, Broadcast.number, htemp, htemp'] at he
    have hnat := hspans.number_eq hwrap (List.mem_of_getElem? hx) (List.mem_of_getElem? hx')
      (i := i) (j := i') (by omega) (by omega) he
    obtain rfl := hspans.same_of_number hx hx' (by omega) (by omega) hnat
    cases hx.symm.trans hx'
    simp only at hnat
    exact ⟨rfl, by omega⟩
  · obtain ⟨x, -, hseqn, htemp⟩ := hreadings hb
    rw [hcontainer hb hc, isConfirmed_settled, hthree]
    simp only [ConfirmedSince, Broadcast.number, htemp, hseqn]

/-- A call, and an iteration of the worker after it. -/
def oneCall : List Move :=
  .call (clientPacket packetConnectCmd 0 [97]) ⟨[], 9⟩ :: List.replicate 12 .advance ++ [.worker 0]

theorem acknowledgement_identifies_one_call :
    Identifies primaryOfThree.replicaManager.getSecondaryReplicas (run primaryOfThree oneCall) := by
  refine acknowledgement_identifies primaryOfThree oneCall rfl (fun k m hk => ?_) (by decide +kernel)
  have hqueue : ∀ k < 14, (run primaryOfThree (oneCall.take k)).shared.notificationQueue = [] := by
    decide +kernel
  cases m with
  | worker now =>
    intro _ n hn
    rw [hqueue k (List.getElem?_eq_some_iff.mp hk).1] at hn
    cases hn
  | _ => trivial

/-- A container waits for the numbers of its own packets exactly when there are
three of them and both readings gave the same. -/
theorem waits_iff {b : Broadcast} {x y n : Nat} (hx : b.lastSeqn = UInt64.ofNat x)
    (hy : b.lastSeqnTemp = UInt64.ofNat y) (hle : x ≤ y) (hwrap : y + 3 < 2 ^ 64)
    (hn : y + n < 2 ^ 64) : (∀ Confirmed : UInt64 → Prop,
      (∀ j < 3, Confirmed (b.lastSeqn + UInt64.ofNat j)) ↔ ∀ i < n, Confirmed (b.number i)) ↔
        n = 3 ∧ x = y := by
  have hnat : ∀ i j, i < n → j < 3 → b.lastSeqn + UInt64.ofNat j = b.number i → x + j = y + i := by
    intro i j hi hj he
    rw [Broadcast.number, hx, hy, ← UInt64.ofNat_add, ← UInt64.ofNat_add] at he
    have he := congrArg UInt64.toNat he
    rwa [UInt64.toNat_ofNat_of_lt' (by rw [UInt64.size]; omega),
      UInt64.toNat_ofNat_of_lt' (by rw [UInt64.size]; omega)] at he
  constructor
  · intro h
    have hslots := (h fun m => ∃ i < n, m = b.number i).mpr fun i hi => ⟨i, hi, rfl⟩
    have hpackets := (h fun m => ∃ j < 3, b.lastSeqn + UInt64.ofNat j = m).mp fun j hj => ⟨j, hj, rfl⟩
    obtain ⟨i₀, hi₀, he₀⟩ := hslots 0 (by omega)
    obtain ⟨i₂, hi₂, he₂⟩ := hslots 2 (by omega)
    have hfirst := hnat i₀ 0 hi₀ (by omega) he₀
    have hlast := hnat i₂ 2 hi₂ (by omega) he₂
    obtain ⟨j, hj, hej⟩ := hpackets (n - 1) (by omega)
    have hbeyond := hnat (n - 1) j (by omega) hj hej
    omega
  · rintro ⟨rfl, rfl⟩ Confirmed
    simp only [Broadcast.number, hx, hy]

/-- A primary with four secondaries. -/
def primaryOfFour : Server :=
  new ⟨[], 0, true⟩ [⟨[], 1, false⟩, ⟨[], 2, false⟩, ⟨[], 3, false⟩, ⟨[], 4, false⟩] ⟨true, none⟩ ⟨[]⟩

def twoCalls : List Move :=
  .call (clientPacket packetConnectCmd 0 [97]) ⟨[], 9⟩ :: List.replicate 12 .advance ++
    .call (clientPacket packetConnectCmd 0 [98]) ⟨[], 9⟩ :: List.replicate 12 .advance

/-- A primary with three secondaries, two users that are online and a notification
for one of them in the queue. -/
def primaryWithMail : Server := (primaryOfThree.run (
  handling 32 (clientPacket packetConnectCmd 0 [97]) ⟨[], 4⟩ ++
  handling 32 (clientPacket packetConnectCmd 0 [98]) ⟨[], 5⟩ ++
  handling 16 (clientPacket packetFollowCmd 1 [97]) ⟨[], 5⟩ ++
  handling 16 (clientPacket packetSendCmd 1 [120]) ⟨[], 4⟩)).shared

/-- A call with an iteration of the worker between its two readings. -/
def disturbedCall : List Move :=
  [.call (clientPacket packetConnectCmd 2 [97]) ⟨[], 4⟩, .advance, .advance, .worker 0] ++
    List.replicate 10 .advance

/-- The fourth packet of a broadcast has the number of the first one of the next
broadcast, and a packet that is numbered after a send of the worker has a number that
the container does not wait for. -/
theorem not_identified :
    ¬Identifies primaryOfFour.replicaManager.getSecondaryReplicas (run primaryOfFour twoCalls) ∧
    ¬Identifies primaryWithMail.replicaManager.getSecondaryReplicas
      (run primaryWithMail disturbedCall) := by
  constructor
  · intro h
    have hsame := h.apart 0 1 ⟨clientPacket packetConnectCmd 0 [97], ⟨[], 9⟩, 0, 0⟩
      ⟨clientPacket packetConnectCmd 0 [98], ⟨[], 9⟩, 3, 3⟩ 3 0 (by decide +kernel)
      (by decide +kernel) (by decide) (by decide) (by decide)
    exact absurd hsame.1 (by decide)
  · intro h
    have hbroadcast : (broadcasts (run primaryWithMail disturbedCall).shared.log)[0]? =
        some ⟨clientPacket packetConnectCmd 2 [97], ⟨[], 4⟩, 6, 7⟩ := by decide +kernel
    have hnumbers : (run primaryWithMail disturbedCall).shared.replicaManager.confirmationBuffer[0]?.map
        (fun c => c.content.toList.map fun i => i.item.sequenceNumber) = some [6, 7, 8] := by
      decide +kernel
    obtain ⟨container, hc, hlist⟩ := Option.map_eq_some_iff.mp hnumbers
    obtain ⟨j, hj, he⟩ := h.slot 0 _ container 2 hbroadcast hc (by decide +kernel)
    have hmem : (9 : UInt64) ∈ container.content.toList.map fun i => i.item.sequenceNumber :=
      List.mem_map.mpr ⟨container.content.get ⟨j, hj⟩, by simp [Vector.get_eq_getElem], he.symm⟩
    rw [hlist] at hmem
    exact absurd hmem (by decide)

end Calls

end Piupiu
