import Piupiu.Runs
import Piupiu.Lib.RotatingQueue

/-!
# Notifications

Every notification that SEND creates is followed through the queue, by the ticket
it gets when it is pushed. A run is a list of moves, and its states are indexed
by the number of moves made so far.
-/
namespace Piupiu

open Atomic RotatingQueue

/-- What an event means for the queue. -/
def Event.queueOp? : Event → Option (Op PendingNotification)
  | .enqueued n => some (.push n)
  | .delivered _ _ => some .take
  | .requeued _ => some .back
  | _ => none

/-- The notifications of a log with their tickets. -/
def ledger (log : List Event) : Ledger PendingNotification :=
  replay (log.filterMap Event.queueOp?)

theorem ledger_append (log events : List Event) :
    ledger (log ++ events) = replayFrom (ledger log) (events.filterMap Event.queueOp?) := by
  rw [ledger, List.filterMap_append, replay_append]
  rfl

theorem ledger_sound (log : List Event) : (ledger log).Sound := sound_replay _

theorem queueOps_byHandler {events : List Event} (h : ∀ e ∈ events, e.byHandler = true) :
    events.filterMap Event.queueOp? = (issued events).map .push := by
  induction events with
  | nil => rfl
  | cons e events ih =>
    have ih := ih fun e' he' => h e' (List.mem_cons_of_mem _ he')
    have he := h e List.mem_cons_self
    cases e with
    | delivered | requeued => cases he
    | enqueued n => exact congrArg (Op.push n :: ·) ih
    | _ => exact ih

theorem queueOps_replyEvents (now : UInt64) (n : PendingNotification)
    (sockets : List SocketAddress) (seqn : Nat) :
    (Server.replyEvents now n seqn sockets).filterMap Event.queueOp? = [] := by
  induction sockets generalizing seqn with
  | nil => rfl
  | cons socket sockets ih =>
    have hreply : (Server.replyEvent now n (seqn + 1) socket).queueOp? = none := by
      unfold Server.replyEvent
      split <;> rfl
    rw [Server.replyEvents, List.filterMap_cons_none hreply, ih]

/-- The text of a notification fits the payload of a packet. -/
def PendingNotification.Fits (n : PendingNotification) : Prop :=
  Payload.Fits (notificationText n.body n.senderUsername)

instance (n : PendingNotification) : Decidable n.Fits := by
  unfold PendingNotification.Fits
  infer_instance

def Event.fault? : Event → Option Fault
  | .fault f => some f
  | _ => none

/-- What a server has met that the source leaves undefined. -/
def faults (log : List Event) : List Fault := log.filterMap Event.fault?

@[simp] theorem faults_append (log events : List Event) :
    faults (log ++ events) = faults log ++ faults events := List.filterMap_append

theorem mem_faults {log : List Event} {f : Fault} : f ∈ faults log ↔ .fault f ∈ log := by
  refine List.mem_filterMap.trans ⟨?_, fun h => ⟨_, h, rfl⟩⟩
  rintro ⟨e, he, hf⟩
  cases e with
  | fault f' =>
    cases hf
    exact he
  | _ => cases hf

namespace Server

/-- Some host is connected as the user of the profile. -/
def Online (s : Server) (r : ProfileRef) : Prop :=
  ∃ sockets, s.recipientSockets r = some sockets ∧ sockets ≠ []

/-- The queue is what waits in the ledger, and every notification has a ticket. -/
structure Queued (s : Server) : Prop where
  waiting : (ledger s.log).waiting.map Prod.fst = s.notificationQueue
  issued : (ledger s.log).issued = issued s.log

theorem step_ledger {s₀ s s' : Server} {now : UInt64} {message : Packet} {address : SocketAddress}
    (h : Step s₀ now message address s s') : ∃ events, s'.log = s.log ++ events ∧
      s'.notificationQueue = s.notificationQueue ++ Piupiu.issued events ∧
      ledger s'.log = replayFrom (ledger s.log) ((Piupiu.issued events).map .push) := by
  obtain ⟨events, hlog, hqueue, hevents, -⟩ := step_events h
  exact ⟨events, hlog, hqueue, by
    rw [hlog, ledger_append, queueOps_byHandler fun e he => (hevents e he).byHandler]⟩

theorem worker_issued (now : UInt64) (s : Server) :
    Piupiu.issued (s.pendingNotificationWorker now).log = Piupiu.issued s.log := by
  obtain ⟨events, hlog, hevents⟩ := (worker_rely now s).log
  rw [hlog, issued_append, issued_byWorker hevents, List.append_nil]

/-- An iteration of the worker on the ledger: the entry in front goes back when
its recipient is offline, and it is taken when its recipient is online. -/
theorem worker_ledger (now : UInt64) {s : Server} (h : s.Queued) :
    ((ledger s.log).waiting = [] ∧ s.pendingNotificationWorker now = s) ∨
    (∃ n t rest, (ledger s.log).waiting = (n, t) :: rest ∧ ¬s.Online n.recipient ∧
      (s.pendingNotificationWorker now).notificationQueue = rest.map Prod.fst ++ [n] ∧
      ledger (s.pendingNotificationWorker now).log = (ledger s.log).apply .back) ∨
    ∃ n t rest, (ledger s.log).waiting = (n, t) :: rest ∧ s.Online n.recipient ∧
      (s.pendingNotificationWorker now).notificationQueue = rest.map Prod.fst ∧
      ledger (s.pendingNotificationWorker now).log = (ledger s.log).apply .take := by
  have hw := h.waiting
  have hfront : ∀ n rest, s.notificationQueue = n :: rest →
      ∃ t rest', (ledger s.log).waiting = (n, t) :: rest' ∧ rest'.map Prod.fst = rest := by
    intro n rest hq
    rw [hq] at hw
    obtain ⟨⟨n', t⟩, rest', he, rfl, hrest⟩ := List.map_eq_cons_iff.mp hw
    exact ⟨t, rest', he, hrest⟩
  rcases s.worker_cases now with ⟨hq, he⟩ | ⟨n, rest, hq, hs, he⟩ | ⟨n, rest, hq, hs, he⟩ |
    ⟨n, rest, sockets, hq, hs, hne, he⟩
  · rw [hq] at hw
    exact .inl ⟨List.map_eq_nil_iff.mp hw, he⟩
  · obtain ⟨t, rest, hl, rfl⟩ := hfront n rest hq
    refine .inr (.inl ⟨n, t, rest, hl, fun ⟨sockets, hs', _⟩ => ?_, ?_, ?_⟩)
    · rw [hs] at hs'
      cases hs'
    · rw [he]
      rfl
    · rw [he]
      simp only [requeue, record, List.append_assoc, ledger_append]
      rfl
  · obtain ⟨t, rest, hl, rfl⟩ := hfront n rest hq
    refine .inr (.inl ⟨n, t, rest, hl, fun ⟨sockets, hs', hne⟩ => ?_, ?_, ?_⟩)
    · rw [hs] at hs'
      exact hne (Option.some.inj hs').symm
    · rw [he]
      rfl
    · rw [he]
      simp only [requeue, record, ledger_append]
      rfl
  · obtain ⟨t, rest, hl, rfl⟩ := hfront n rest hq
    refine .inr (.inr ⟨n, t, rest, hl, ⟨sockets, hs, hne⟩, ?_, ?_⟩)
    · rw [he]
    · have hdelivered : (Event.delivered n sockets).queueOp? = some .take := rfl
      rw [he, ledger_append, List.filterMap_cons_some hdelivered, queueOps_replyEvents]
      rfl

theorem worker_queued {s : Server} (h : s.Queued) (now : UInt64) :
    (s.pendingNotificationWorker now).Queued := by
  have hissued := s.worker_issued now
  rcases worker_ledger now h with ⟨-, he⟩ | ⟨n, t, rest, hl, -, hq, he⟩ | ⟨n, t, rest, hl, -, hq, he⟩
  · rwa [he]
  · rw [apply_back hl] at he
    exact ⟨by simp [he, hq], by rw [he, hissued, ← h.issued]⟩
  · rw [apply_take hl] at he
    exact ⟨by simp [he, hq], by rw [he, hissued, ← h.issued]⟩

theorem queued_preserved : Preserves (fun _ _ _ => True) (fun _ => True) Queued where
  stable _ _ _ _ := trivial
  ended _ _ _ _ _ _ _ _ := trivial
  step s₀ s s' now message address _ _ _ h hstep := by
    obtain ⟨events, hlog, hqueue, hledger⟩ := step_ledger hstep
    obtain ⟨hw, hi, -⟩ := replayFrom_pushes (ledger s.log) (Piupiu.issued events)
    exact ⟨by rw [hledger, hw, hqueue, h.waiting],
      by rw [hledger, hi, hlog, issued_append, h.issued]⟩
  worker s now h := worker_queued h now

/-- The state of a run after `k` of its moves. -/
def stateAt (s : Server) (moves : List Move) (k : Nat) : Server := (s.run (moves.take k)).shared

theorem stateAt_length (s : Server) (moves : List Move) :
    s.stateAt moves moves.length = (s.run moves).shared := by
  simp [stateAt]

theorem run_take_succ (s : Server) {moves : List Move} {k : Nat} {m : Move}
    (h : moves[k]? = some m) : s.run (moves.take (k + 1)) = move (s.run (moves.take k)) m := by
  rw [List.take_add_one, h, Option.toList_some, run_concat]

theorem run_take_none (s : Server) {moves : List Move} {k : Nat} (h : moves[k]? = none) :
    s.run (moves.take (k + 1)) = s.run (moves.take k) := by
  rw [List.take_add_one, h, Option.toList_none, List.append_nil]

theorem stateAt_worker (s : Server) {moves : List Move} {k : Nat} {now : UInt64}
    (h : moves[k]? = some (.worker now)) :
    s.stateAt moves (k + 1) = (s.stateAt moves k).pendingNotificationWorker now := by
  rw [stateAt, run_take_succ s h]
  rfl

/-- A state that no iteration of the worker has led to comes from the one before it
by a step of a handler, when it has changed at all. -/
theorem stateAt_handler {Rest P : Server → Prop} (h : Preserves (fun _ _ _ => True) Rest P)
    {s : Server} (hrest : Rest s) (hp : P s) {moves : List Move} {k : Nat}
    (hk : ∀ now, moves[k]? ≠ some (.worker now)) :
    s.stateAt moves (k + 1) = s.stateAt moves k ∨
    ∃ s₀ now message address, Rest s₀ ∧ P s₀ ∧
      Step s₀ now message address (s.stateAt moves k) (s.stateAt moves (k + 1)) := by
  unfold stateAt
  cases hm : moves[k]? with
  | none => exact .inl (by rw [run_take_none s hm])
  | some m =>
    rw [run_take_succ s hm]
    have hc : Tracked (fun _ _ _ => True) Rest P (s.run (moves.take k)) :=
      run_tracked h hrest hp (admits_true _ _)
    rcases move_cases hc m with he | ⟨s₀, hrest₀, hp₀, now, message, address, -, hstep⟩ |
      ⟨now, rfl, -⟩
    · exact .inl he
    · exact .inr ⟨s₀, now, message, address, hrest₀, hp₀, hstep⟩
    · exact absurd hm (hk now)

theorem log_mono (s : Server) (moves : List Move) {i j : Nat} (h : i ≤ j) :
    (s.stateAt moves i).log <+: (s.stateAt moves j).log := by
  induction j, h using Nat.le_induction with
  | base => exact List.prefix_rfl
  | succ j hij ih =>
    refine ih.trans ?_
    unfold stateAt
    cases hm : moves[j]? with
    | none => rw [run_take_none s hm]
    | some m =>
      rw [run_take_succ s hm]
      exact move_log_mono s _ m

theorem issued_mono (s : Server) (moves : List Move) {i j : Nat} (h : i ≤ j) :
    Piupiu.issued (s.stateAt moves i).log <+: Piupiu.issued (s.stateAt moves j).log := by
  obtain ⟨events, he⟩ := log_mono s moves h
  rw [← he, issued_append]
  exact List.prefix_append _ _

/-- A ticket that was issued once is issued from then on. -/
theorem issued_of_le {s : Server} {moves : List Move} {i j t : Nat} {n : PendingNotification} (h : i ≤ j)
    (ht : (Piupiu.issued (s.stateAt moves i).log)[t]? = some n) :
    (Piupiu.issued (s.stateAt moves j).log)[t]? = some n := by
  obtain ⟨more, he⟩ := issued_mono s moves h
  rw [← he, List.getElem?_append_left (List.getElem?_eq_some_iff.mp ht).1, ht]

/-- Move `i` is an iteration of the worker that takes the notification with ticket
`t` for good, because its recipient is online. -/
structure Delivers (s : Server) (moves : List Move) (i : Nat) (n : PendingNotification)
    (t : Nat) : Prop where
  worker : ∃ now, moves[i]? = some (.worker now)
  front : (ledger (s.stateAt moves i).log).waiting.head? = some (n, t)
  online : (s.stateAt moves i).Online n.recipient

section run

variable {s : Server} (hs : s.log = []) (hq : s.notificationQueue = []) (moves : List Move)

include hs hq

theorem stateAt_queued (k : Nat) : (s.stateAt moves k).Queued := by
  have hinit : s.Queued := ⟨by rw [hs, hq]; rfl, by rw [hs]; rfl⟩
  exact (run_tracked queued_preserved trivial hinit (admits_true _ _)).holds

/-- A move that is no iteration of the worker pushes some notifications, if any. -/
theorem stateAt_pushes {k : Nat} (hk : ∀ now, moves[k]? ≠ some (.worker now)) :
    ∃ as : List PendingNotification, ledger (s.stateAt moves (k + 1)).log =
      replayFrom (ledger (s.stateAt moves k).log) (as.map .push) := by
  have hinit : s.Queued := ⟨by rw [hs, hq]; rfl, by rw [hs]; rfl⟩
  rcases stateAt_handler queued_preserved trivial hinit hk with
    he | ⟨s₀, now, message, address, -, -, hstep⟩
  · exact ⟨[], by rw [he]; rfl⟩
  · obtain ⟨events, -, -, hledger⟩ := step_ledger hstep
    exact ⟨_, hledger⟩

/-- One move takes the notification it delivers and no other one. -/
theorem mem_taken_succ (k : Nat) (n : PendingNotification) (t : Nat) :
    (n, t) ∈ (ledger (s.stateAt moves (k + 1)).log).taken ↔
      (n, t) ∈ (ledger (s.stateAt moves k).log).taken ∨ Delivers s moves k n t := by
  by_cases hk : ∃ now, moves[k]? = some (.worker now)
  · obtain ⟨now, hm⟩ := hk
    rw [stateAt_worker s hm]
    rcases worker_ledger now (stateAt_queued hs hq moves k) with
      ⟨hw, he⟩ | ⟨n', t', rest, hw, hoff, -, he⟩ | ⟨n', t', rest, hw, hon, -, he⟩
    · rw [he, or_iff_left]
      rintro ⟨-, hf, -⟩
      simp [hw] at hf
    · rw [he, apply_back hw, or_iff_left]
      rintro ⟨-, hf, hon⟩
      rw [hw, List.head?_cons, Option.some.injEq, Prod.mk.injEq] at hf
      exact hoff (hf.1 ▸ hon)
    · rw [he, apply_take hw, List.mem_append, List.mem_singleton]
      refine or_congr_right ⟨fun h => ?_, fun h => ?_⟩
      · rw [Prod.mk.injEq] at h
        exact ⟨⟨now, hm⟩, by rw [hw, h.1, h.2]; rfl, h.1 ▸ hon⟩
      · have hf := h.front
        rw [hw] at hf
        exact (Option.some.inj hf).symm
  · rw [not_exists] at hk
    obtain ⟨as, he⟩ := stateAt_pushes hs hq moves hk
    rw [he, (replayFrom_pushes _ as).2.2, or_iff_left]
    exact fun h => h.worker.elim hk

/-- The notifications taken so far are those that a move has delivered. -/
theorem mem_taken (k : Nat) (n : PendingNotification) (t : Nat) :
    (n, t) ∈ (ledger (s.stateAt moves k).log).taken ↔ ∃ i, i < k ∧ Delivers s moves i n t := by
  induction k with
  | zero =>
    have hnil : ledger (s.stateAt moves 0).log = ⟨[], [], []⟩ := by
      simp [stateAt, run, hs, ledger]
    simp [hnil]
  | succ k ih =>
    rw [mem_taken_succ hs hq, ih]
    constructor
    · rintro (⟨i, hi, hd⟩ | hd)
      · exact ⟨i, by omega, hd⟩
      · exact ⟨k, by omega, hd⟩
    · rintro ⟨i, hi, hd⟩
      by_cases he : i = k
      · exact .inr (he ▸ hd)
      · exact .inl ⟨i, by omega, hd⟩

/-- A move delivers one notification at most, and no notification is delivered twice. -/
theorem delivers_once {i j : Nat} {n : PendingNotification} {t : Nat}
    (hi : Delivers s moves i n t) (hj : Delivers s moves j n t) : i = j := by
  have hlater : ∀ i j, Delivers s moves i n t → Delivers s moves j n t → ¬i < j := by
    intro i j hi hj hlt
    have htaken := (mem_taken hs hq moves j n t).mpr ⟨i, hlt, hi⟩
    obtain ⟨rest, hw⟩ := List.head?_eq_some_iff.mp hj.front
    have hdisjoint := (List.nodup_append.mp (ledger_sound (s.stateAt moves j).log).nodup).2.2
    exact hdisjoint (n, t) (by simp [hw]) (n, t) htaken rfl
  have := hlater i j hi hj
  have := hlater j i hj hi
  omega

/-- Once it is created a notification waits, or it has been delivered by one move. -/
theorem waits_or_delivered {i k t : Nat} {n : PendingNotification} (hik : i ≤ k)
    (ht : (Piupiu.issued (s.stateAt moves i).log)[t]? = some n) :
    ((ledger (s.stateAt moves k).log).waiting.count (n, t) = 1 ∧
        ¬∃ d, d < k ∧ Delivers s moves d n t) ∨
      ((n, t) ∉ (ledger (s.stateAt moves k).log).waiting ∧
        ∃! d, d < k ∧ Delivers s moves d n t) := by
  have hissued := issued_of_le hik ht
  rw [← (stateAt_queued hs hq moves k).issued] at hissued
  rcases (ledger_sound (s.stateAt moves k).log).one_place hissued with ⟨hw, hno⟩ | ⟨hw, hyes⟩
  · rw [mem_taken hs hq] at hno
    exact .inl ⟨hw, hno⟩
  · obtain ⟨d, hd, hdel⟩ := (mem_taken hs hq moves k n t).mp (List.count_pos_iff.mp (by omega))
    exact .inr ⟨List.count_eq_zero.mp hw, d, ⟨hd, hdel⟩, fun d' hd' =>
      delivers_once hs hq moves hd'.2 hdel⟩

/-- What a delivery adds to the log. -/
theorem delivers_log {d t : Nat} {n : PendingNotification} (hd : Delivers s moves d n t) :
    ∃ now sockets, (s.stateAt moves d).recipientSockets n.recipient = some sockets ∧
      sockets ≠ [] ∧ (s.stateAt moves (d + 1)).log = (s.stateAt moves d).log ++
        .delivered n sockets :: replyEvents now n (s.stateAt moves d).lastSeqn sockets := by
  obtain ⟨now, hm⟩ := hd.worker
  obtain ⟨rest, hw⟩ := List.head?_eq_some_iff.mp hd.front
  obtain ⟨sockets, hsockets, hne⟩ := hd.online
  have hqueue : (s.stateAt moves d).notificationQueue = n :: rest.map Prod.fst := by
    rw [← (stateAt_queued hs hq moves d).waiting, hw]
    rfl
  refine ⟨now, sockets, hsockets, hne, ?_⟩
  rw [stateAt_worker s hm]
  rcases (s.stateAt moves d).worker_cases now with ⟨hq', -⟩ | ⟨n', rest', hq', hnone, -⟩ |
    ⟨n', rest', hq', hempty, -⟩ | ⟨n', rest', sockets', hq', hsome, -, he⟩ <;>
    rw [hq'] at hqueue <;> cases hqueue
  · rw [hsockets] at hnone
    cases hnone
  · rw [hsockets] at hempty
    exact absurd (Option.some.inj hempty) hne
  · rw [hsockets] at hsome
    cases hsome
    rw [he]

/-- A move that delivers nothing sends no notification. -/
theorem silent_of_not_delivers {k : Nat} (hk : ¬∃ n t, Delivers s moves k n t) :
    ∃ events, (s.stateAt moves (k + 1)).log = (s.stateAt moves k).log ++ events ∧
      ∀ address message, .sent address message .notification ∉ events := by
  have hinit : s.Queued := ⟨by rw [hs, hq]; rfl, by rw [hs]; rfl⟩
  by_cases hm : ∃ now, moves[k]? = some (.worker now)
  · obtain ⟨now, hm⟩ := hm
    have hqueued := stateAt_queued hs hq moves k
    rw [stateAt_worker s hm]
    rcases (s.stateAt moves k).worker_cases now with ⟨-, he⟩ | ⟨n, rest, -, -, he⟩ |
      ⟨n, rest, -, -, he⟩ | ⟨n, rest, sockets, hqueue, hsockets, hne, -⟩
    · exact ⟨[], by simp [he], by simp⟩
    · exact ⟨[.fault .unsetSession, .requeued n], by simp [he, requeue, record], by simp⟩
    · exact ⟨[.requeued n], by rw [he]; rfl, by simp⟩
    · refine absurd ?_ hk
      have hw := hqueued.waiting
      rw [hqueue] at hw
      obtain ⟨⟨n', t⟩, rest', hl, rfl, -⟩ := List.map_eq_cons_iff.mp hw
      exact ⟨n', t, ⟨now, hm⟩, by rw [hl]; rfl, sockets, hsockets, hne⟩
  · rcases stateAt_handler queued_preserved trivial hinit (not_exists.mp hm) with
      he | ⟨s₀, now, message, address, -, -, hstep⟩
    · exact ⟨[], by simp [he], by simp⟩
    · obtain ⟨events, hlog, -, hevents, -⟩ := step_events hstep
      exact ⟨events, hlog, fun address message he => by
        simpa [Event.byHandler] using (hevents _ he).byHandler⟩

end run

/-- The profile is there and points to a session. -/
def Live (s : Server) (p : ProfileRef) : Prop :=
  p < s.profileManager.profiles.length ∧ ∃ r, (s.profileManager.deref p).session = .ref r

theorem live_of_linked {s : Server} (h : s.store.Linked) {p : ProfileRef}
    (hp : p < s.profileManager.profiles.length) : s.Live p := by
  obtain ⟨r, hr, -⟩ := h.linked p hp
  exact ⟨hp, r, hr⟩

/-- A profile that points to a session goes on pointing to one. -/
theorem step_live {s₀ s s' : Server} {now : UInt64} {message : Packet} {address : SocketAddress}
    (h : Step s₀ now message address s s') {p : ProfileRef} (hp : s.Live p) : s'.Live p := by
  obtain ⟨hlt, r, hr⟩ := hp
  cases h with
  | pushProfile =>
    refine ⟨?_, r, ?_⟩
    · simpa [pushProfile] using Nat.lt_succ_of_lt hlt
    · rw [← hr]
      simp only [pushProfile, ProfileManager.newProfile_deref, if_neg (Nat.ne_of_lt hlt)]
  | setSession q r' hq hr' =>
    refine ⟨by simpa [setSession] using hlt, ?_⟩
    simp only [setSession, ProfileManager.setSession_deref _ q hq]
    split
    · exact ⟨r', rfl⟩
    · exact ⟨r, hr⟩
  | pushFollower q follower hq =>
    refine ⟨by simpa [pushFollower] using hlt, r, ?_⟩
    rw [← hr]
    exact ProfileManager.appendFollower_session _ q hq follower _
  | sync =>
    unfold Server.sync
    split <;> exact ⟨hlt, r, hr⟩
  | getConnectedUsers =>
    unfold getConnectedUsers
    split <;> exact ⟨hlt, r, hr⟩
  | confirmBuffer =>
    rw [confirmBuffer_eq]
    exact ⟨hlt, r, hr⟩
  | confirmToPrimary =>
    unfold confirmToPrimary
    split <;> exact ⟨hlt, r, hr⟩
  | _ => exact ⟨hlt, r, hr⟩

theorem getConnectedUsers_linked {s : Server} (h : s.store.Linked) (p : ProfileRef) :
    s.getConnectedUsers p = s := by
  have hset : ∀ profile ∈ s.profileManager.profiles, profile.session ≠ .unset := by
    intro profile hm
    obtain ⟨q, hq, rfl⟩ := s.profileManager.exists_deref hm
    obtain ⟨r, hr, -⟩ := h.linked q hq
    exact fun he => by simp [show (s.profileManager.deref q).session = .ref r from hr] at he
  obtain ⟨l, hl⟩ := Option.isSome_iff_exists.mp
    (ProfileManager.connectedFrom_isSome s.sessionManager (some p) 0 _ hset)
  simp [getConnectedUsers, ProfileManager.getConnectedUsers, hl]

/-- The handler of a packet finds set what it looks at: the store is linked when it
scans the profiles, and when it goes for the user behind the sender. -/
structure Ready (s₀ : Server) (message : Packet) (address : SocketAddress) : Prop where
  scan : (message.type = packetConnectCmd ∨ ∃ username,
      s₀.sessionManager.getUserNameByAddressAndIP address = some username) →
    (s₀.store.handle message address).Linked
  sender : ∀ username, s₀.sessionManager.getUserNameByAddressAndIP address = some username →
    s₀.store.Linked

theorem ready_of_linked {s₀ : Server} (h : s₀.store.Linked) (message : Packet)
    (address : SocketAddress) : s₀.Ready message address :=
  ⟨fun _ => Store.handle_linked h message address, fun _ _ => h⟩

/-- A packet of a type that is not defined was handled. -/
def StartedUnknown (log : List Event) : Prop :=
  ∃ message address, Event.started message address ∈ log ∧ packetConfirmStateChange < message.type

theorem StartedUnknown.mono {log log' : List Event} (h : StartedUnknown log) (hlog : log <+: log') :
    StartedUnknown log' := by
  obtain ⟨message, address, hstarted, htype⟩ := h
  exact ⟨message, address, hlog.subset hstarted, htype⟩

/-- A handler that finds set what it looks at meets no undefined behaviour, when the type
of its packet is defined. -/
theorem step_fault {s₀ s s' : Server} {now : UInt64} {message : Packet} {address : SocketAddress}
    (h₀ : s₀.Ready message address) (h : Step s₀ now message address s s') {f : Fault}
    (hf : .fault f ∈ s'.log) : .fault f ∈ s.log ∨ f = .noPrimaryPeer ∨
      f = .unknownType ∧ StartedUnknown s.log := by
  cases h with
  | getConnectedUsers p hstore hcaller =>
    have hlinked : s.store.Linked := hstore ▸ h₀.scan hcaller
    rw [getConnectedUsers_linked hlinked p] at hf
    exact .inl hf
  | noReturnValue username hname hnone =>
    obtain ⟨p, hp⟩ := (h₀.sender username hname).profile hname
    exact absurd (hp.symm.trans hnone) (by simp)
  | sync =>
    unfold Server.sync at hf
    split at hf <;> exact .inl hf
  | confirmBuffer =>
    rw [confirmBuffer_eq, List.mem_append] at hf
    refine hf.imp_right fun hf => .inl ?_
    rcases mem_confirmEvents hf with he | ⟨k, c, -, -, -, he⟩ <;> cases he
  | confirmToPrimary =>
    unfold confirmToPrimary at hf
    split at hf <;> simp [send, record] at hf
    · exact .inl hf
    · exact hf.imp_right .inl
  | unknownType htype hserving =>
    obtain hf | he := List.mem_append.mp hf
    · exact .inl hf
    · cases List.mem_singleton.mp he
      exact .inr (.inr ⟨rfl, message, address, started_of_serving hserving, htype⟩)
  | look | pushProfile | setSession | pushFollower | incrementSeqn => exact .inl hf
  | _ =>
    refine .inl ?_
    simpa [startSession, endSession, enqueue, pushContainer, send, record] using hf

/-- What waits is for profiles with a session, and nothing undefined has happened
as long as the texts fit and the types are defined. -/
structure Healthy (s : Server) : Prop where
  live : ∀ n ∈ s.notificationQueue, s.Live n.recipient
  created : ∀ n ∈ s.notificationQueue, n ∈ Piupiu.issued s.log
  faults : ∀ f, .fault f ∈ s.log →
    f = .noPrimaryPeer ∨ (f = .payloadOverflow ∧ ∃ n ∈ Piupiu.issued s.log, ¬n.Fits) ∨
      f = .unknownType ∧ StartedUnknown s.log

/-- A packet that creates a notification comes from a user. -/
theorem notifications_sender {st : Store} {message : Packet} {address : SocketAddress}
    {n : PendingNotification} (hn : n ∈ st.notifications message address) :
    ∃ username, st.sessions.getUserNameByAddressAndIP address = some username := by
  unfold Store.notifications at hn
  split at hn
  · split at hn
    · cases hn
    · next username hname => exact ⟨username, hname⟩
  · cases hn

/-- The notifications of a packet are for profiles with a session. -/
theorem notifications_live {st : Store} (h : st.Linked) {message : Packet} {address : SocketAddress}
    {n : PendingNotification} (hn : n ∈ st.notifications message address) :
    n.recipient < st.profiles.profiles.length := by
  unfold Store.notifications at hn
  split at hn
  · split at hn
    · cases hn
    · split at hn
      · cases hn
      · next p hp =>
        obtain ⟨f, hf, rfl⟩ := List.mem_map.mp hn
        exact h.graph.known p (ProfileManager.getProfileByName_some _ hp).1 f hf
  · cases hn

theorem step_healthy {s₀ s s' : Server} {now : UInt64} {message : Packet} {address : SocketAddress}
    (h₀ : s₀.Ready message address) (h : s.Healthy) (hstep : Step s₀ now message address s s') :
    s'.Healthy := by
  obtain ⟨events, hlog, hqueue, -, hcreated⟩ := step_events hstep
  have hissued : Piupiu.issued s'.log = Piupiu.issued s.log ++ Piupiu.issued events := by
    rw [hlog, issued_append]
  refine ⟨fun n hn => ?_, fun n hn => ?_, fun f hf => ?_⟩
  · rw [hqueue] at hn
    rcases List.mem_append.mp hn with hn | hn
    · exact step_live hstep (h.live n hn)
    · obtain ⟨hn, hstore⟩ := hcreated n hn
      obtain ⟨username, hname⟩ := notifications_sender hn
      have hlinked : s'.store.Linked := hstore ▸ h₀.sender username hname
      exact live_of_linked hlinked (notifications_live hlinked (hstore ▸ hn))
  · rw [hqueue] at hn
    rw [hissued]
    rcases List.mem_append.mp hn with hn | hn
    · exact List.mem_append_left _ (h.created n hn)
    · exact List.mem_append_right _ hn
  · have hgrows : s.log <+: s'.log := hlog ▸ List.prefix_append _ _
    rcases step_fault h₀ hstep hf with hf | hf | hf
    · rcases h.faults f hf with he | ⟨he, n, hn, hfit⟩ | ⟨he, hstarted⟩
      · exact .inl he
      · exact .inr (.inl ⟨he, n, by rw [hissued]; exact List.mem_append_left _ hn, hfit⟩)
      · exact .inr (.inr ⟨he, hstarted.mono hgrows⟩)
    · exact .inl hf
    · exact .inr (.inr ⟨hf.1, hf.2.mono hgrows⟩)

theorem replyEvents_fault {now : UInt64} {n : PendingNotification} {seqn : Nat}
    {sockets : List SocketAddress} {f : Fault}
    (h : .fault f ∈ replyEvents now n seqn sockets) : f = .payloadOverflow ∧ ¬n.Fits := by
  induction sockets generalizing seqn with
  | nil => cases h
  | cons socket sockets ih =>
    rcases List.mem_cons.mp h with h | h
    · unfold replyEvent at h
      split at h
      · cases h
      · next hnone =>
        cases h
        refine ⟨rfl, fun hfit => ?_⟩
        have := (makeText_isSome packetNotification now (UInt64.ofNat (seqn + 1)) n.body _).mpr hfit
        rw [← makeNotification, hnone] at this
        cases this
    · exact ih h

theorem worker_healthy {s : Server} (h : s.Healthy) (now : UInt64) :
    (s.pendingNotificationWorker now).Healthy := by
  have hissued := s.worker_issued now
  have hstore := (worker_rely now s).store
  have hlive : ∀ p, s.Live p → (s.pendingNotificationWorker now).Live p := by
    have hpm : (s.pendingNotificationWorker now).profileManager = s.profileManager :=
      congrArg Store.profiles hstore
    intro p hp
    rwa [Live, hpm]
  have hqueue := s.worker_queue_subset now
  refine ⟨fun n hn => hlive _ (h.live n (hqueue n hn)), fun n hn => ?_, fun f hf => ?_⟩
  · rw [hissued]
    exact h.created n (hqueue n hn)
  · rw [hissued]
    obtain ⟨events, hlog, -⟩ := (worker_rely now s).log
    have hkept : .fault f ∈ s.log → f = .noPrimaryPeer ∨
        (f = .payloadOverflow ∧ ∃ n ∈ Piupiu.issued s.log, ¬n.Fits) ∨
          f = .unknownType ∧ StartedUnknown (s.pendingNotificationWorker now).log := fun hf =>
      (h.faults f hf).imp_right fun hf =>
        hf.imp_right fun hf => ⟨hf.1, hf.2.mono (hlog ▸ List.prefix_append _ _)⟩
    rcases s.worker_cases now with ⟨-, he⟩ | ⟨n, rest, hq, hs, he⟩ | ⟨n, rest, hq, hs, he⟩ |
      ⟨n, rest, sockets, hq, hs, -, he⟩ <;> rw [he] at hf
    · exact hkept hf
    · obtain ⟨-, r, hr⟩ := h.live n (by simp [hq])
      simp [recipientSockets, hr, SessionManager.behind] at hs
    · exact hkept (by simpa [requeue, record] using hf)
    · rcases List.mem_append.mp hf with hf | hf
      · exact hkept hf
      · obtain ⟨he, hfit⟩ := replyEvents_fault ((List.mem_cons.mp hf).resolve_left (by simp))
        exact .inr (.inl ⟨he, n, h.created n (by simp [hq]), hfit⟩)

theorem worker_linked {s s' : Server} (h : s.store.Linked) (hr : WorkerRely s s') :
    s'.store.Linked := hr.store ▸ h

theorem healthy_preserved : Preserves (fun _ _ _ => True) (fun s => s.store.Linked) Healthy where
  stable _ _ h hr := worker_linked h hr
  ended _ _ message address _ h _ hend := hend.store ▸ Store.handle_linked h message address
  step _ _ _ _ message address _ h₀ _ h hstep :=
    step_healthy (ready_of_linked h₀ message address) h hstep
  worker _ now h := worker_healthy h now

/-- The packet that arrives with move `i` is handled by the moves before `j`. -/
structure Handles (s : Server) (moves : List Move) (i j : Nat) (message : Packet)
    (address : SocketAddress) : Prop where
  arrives : ∃ now, moves[i]? = some (.arrive now message address)
  free : (s.run (moves.take i)).idle = true
  before : i < j
  busy : ∀ k, i < k → k < j → (s.run (moves.take k)).idle = false
  done : (s.run (moves.take j)).idle = true

theorem handles_ended {s : Server} {moves : List Move} {i j : Nat} {message : Packet}
    {address : SocketAddress} (h : Handles s moves i j message address) :
    Ended (s.stateAt moves i) message address (s.stateAt moves j) := by
  obtain ⟨now, hi⟩ := h.arrives
  have hsafe : ∀ k, i + 1 ≤ k → k ≤ j → (s.run (moves.take k)).running.Safe WorkerRely
      (Step (s.stateAt moves i) now message address)
      (fun _ => Ended (s.stateAt moves i) message address) (s.run (moves.take k)).shared := by
    intro k hik
    induction k, hik using Nat.le_induction with
    | base =>
      intro _
      have hstart : s.run (moves.take (i + 1)) =
          ⟨s.stateAt moves i, messageHandler now message address⟩ := by
        rw [run_take_succ s hi]
        exact Config.start_of_idle h.free _
      rw [hstart]
      exact messageHandler_safe _ now message address
    | succ k hik ih =>
      intro hk
      have ih := ih (by omega)
      cases hm : moves[k]? with
      | none => rwa [run_take_none s hm]
      | some m =>
        rw [run_take_succ s hm]
        cases m with
        | arrive now' message' address' =>
          have hbusy := h.busy k (by omega) (by omega)
          have hsame : move (s.run (moves.take k)) (.arrive now' message' address') =
              s.run (moves.take k) := Config.start_of_busy hbusy _
          rwa [hsame]
        | advance => exact Config.safe_advance WorkerRely.refl ih
        | worker now' =>
          exact Config.safe_interfere (fun _ _ _ => WorkerRely.trans) ih (worker_rely now' _)
  exact Config.result_of_idle WorkerRely.refl h.done (hsafe j h.before (Nat.le_refl j))

/-- Nothing is lost and nothing is done twice in a run. -/
structure Conserved (s : Server) (moves : List Move) : Prop where
  /-- A SEND that goes for `u` creates one notification for each follower of `u`. -/
  created : ∀ i j message address u, Handles s moves i j message address →
    message.type = packetSendCmd →
    (s.stateAt moves i).sessionManager.getUserNameByAddressAndIP address = some u →
    ∃ p, (s.stateAt moves i).profileManager.getProfileByName u = some p ∧
      ((s.stateAt moves i).profileManager.deref p).followers.Nodup ∧
      Piupiu.issued (s.stateAt moves j).log = Piupiu.issued (s.stateAt moves i).log ++
        ((s.stateAt moves i).profileManager.deref p).followers.map fun f => ⟨u, message.text, f⟩
  /-- The queue holds the notifications that wait. -/
  queue : ∀ k, (s.stateAt moves k).notificationQueue =
    (ledger (s.stateAt moves k).log).waiting.map Prod.fst
  /-- Once it is created a notification waits, or one move has delivered it. -/
  place : ∀ i k n t, i ≤ k → (Piupiu.issued (s.stateAt moves i).log)[t]? = some n →
    ((ledger (s.stateAt moves k).log).waiting.count (n, t) = 1 ∧
        ¬∃ d, d < k ∧ Delivers s moves d n t) ∨
      ((n, t) ∉ (ledger (s.stateAt moves k).log).waiting ∧
        ∃! d, d < k ∧ Delivers s moves d n t)
  /-- A delivery is one `Reply` for each socket of the recipient. -/
  handed : ∀ d n t, Delivers s moves d n t → ∃ sockets replies,
    (s.stateAt moves d).recipientSockets n.recipient = some sockets ∧ sockets ≠ [] ∧
    (s.stateAt moves (d + 1)).log =
      (s.stateAt moves d).log ++ .delivered n sockets :: replies ∧
    List.Forall₂ (fun socket reply => ∃ now seqn message,
      makeNotification now seqn n.body n.senderUsername = some message ∧
        reply = .sent socket message .notification) sockets replies
  /-- Nothing else sends a notification. -/
  silent : ∀ k, (¬∃ n t, Delivers s moves k n t) → ∃ events,
    (s.stateAt moves (k + 1)).log = (s.stateAt moves k).log ++ events ∧
    ∀ address message, .sent address message .notification ∉ events
  /-- Nothing undefined happens, unless a packet comes whose type is not defined. -/
  defined : ∀ k f, .fault f ∈ (s.stateAt moves k).log →
    f = .noPrimaryPeer ∨ f = .unknownType ∧ StartedUnknown (s.stateAt moves k).log

theorem replies_fit {n : PendingNotification} (hfit : n.Fits) (now : UInt64) (seqn : Nat)
    (sockets : List SocketAddress) : List.Forall₂ (fun socket reply => ∃ now seqn message,
      makeNotification now seqn n.body n.senderUsername = some message ∧
        reply = .sent socket message .notification) sockets (replyEvents now n seqn sockets) := by
  induction sockets generalizing seqn with
  | nil => exact .nil
  | cons socket sockets ih =>
    obtain ⟨message, hm⟩ := Option.isSome_iff_exists.mp
      ((makeText_isSome packetNotification now (UInt64.ofNat (seqn + 1)) n.body _).mpr hfit)
    refine .cons ⟨now, _, message, hm, ?_⟩ (ih _)
    unfold replyEvent
    rw [makeNotification, hm]

/-- A SEND creates one notification for each follower of the user it goes for. -/
theorem handles_send {s : Server} {moves : List Move} {i j : Nat} {message : Packet}
    {address : SocketAddress} {u : Str} (hlinked : (s.stateAt moves i).store.Linked)
    (h : Handles s moves i j message address) (htype : message.type = packetSendCmd)
    (hu : (s.stateAt moves i).sessionManager.getUserNameByAddressAndIP address = some u) :
    ∃ p, (s.stateAt moves i).profileManager.getProfileByName u = some p ∧
      ((s.stateAt moves i).profileManager.deref p).followers.Nodup ∧
      Piupiu.issued (s.stateAt moves j).log = Piupiu.issued (s.stateAt moves i).log ++
        ((s.stateAt moves i).profileManager.deref p).followers.map fun f => ⟨u, message.text, f⟩ := by
  have hname : (s.stateAt moves i).store.sessions.getUserNameByAddressAndIP address = some u := hu
  obtain ⟨p, hp⟩ := hlinked.profile hname
  refine ⟨p, hp, hlinked.graph.once p (ProfileManager.getProfileByName_some _ hp).1, ?_⟩
  rw [(handles_ended h).issued]
  simp only [Store.notifications, htype, if_true, hname, hp]
  rfl

/-- No notification is lost and none is duplicated, in any run of the server in
which the texts of the notifications fit. -/
theorem notifications_conserved (thisPeer : Peer) (peers : List Peer) (disk : Disk)
    (moves : List Move)
    (hfits : ∀ n ∈ Piupiu.issued ((new thisPeer peers disk ⟨[]⟩).run moves).shared.log, n.Fits) :
    Conserved (new thisPeer peers disk ⟨[]⟩) moves := by
  generalize hs : new thisPeer peers disk ⟨[]⟩ = s at hfits ⊢
  have hlog : s.log = [] := by rw [← hs]; rfl
  have hqueue : s.notificationQueue = [] := by rw [← hs]; rfl
  have hlinked : s.store.Linked := by rw [← hs]; exact Store.linked_empty disk
  have hhealthy : s.Healthy := ⟨by simp [hqueue], by simp [hqueue], by simp [hlog]⟩
  have htracked : ∀ k, Tracked (fun _ _ _ => True) (fun s => s.store.Linked) Healthy
      (s.run (moves.take k)) :=
    fun k => run_tracked healthy_preserved hlinked hhealthy (admits_true _ _)
  have hfit : ∀ k, ∀ n ∈ Piupiu.issued (s.stateAt moves k).log, n.Fits := by
    intro k n hn
    refine hfits n ?_
    rcases Nat.le_total k moves.length with hk | hk
    · rw [← stateAt_length]
      exact (issued_mono s moves hk).subset hn
    · rwa [stateAt, List.take_of_length_le hk] at hn
  refine ⟨?_, ?_, ?_, ?_, ?_, ?_⟩
  · intro i j message address u h htype hu
    exact handles_send ((htracked i).rest WorkerRely.refl h.free) h htype hu
  · exact fun k => (stateAt_queued hlog hqueue moves k).waiting.symm
  · exact fun i k n t hik ht => waits_or_delivered hlog hqueue moves hik ht
  · intro d n t hd
    obtain ⟨now, sockets, hsockets, hne, hadd⟩ := delivers_log hlog hqueue moves hd
    have hn : n ∈ Piupiu.issued (s.stateAt moves d).log := by
      refine (htracked d).holds.created n ?_
      obtain ⟨rest, hw⟩ := List.head?_eq_some_iff.mp hd.front
      show n ∈ (s.stateAt moves d).notificationQueue
      rw [← (stateAt_queued hlog hqueue moves d).waiting, hw]
      exact List.mem_cons_self
    exact ⟨sockets, _, hsockets, hne, hadd, replies_fit (hfit d n hn) now _ sockets⟩
  · exact fun k hk => silent_of_not_delivers hlog hqueue moves hk
  · intro k f hf
    rcases (htracked k).holds.faults f hf with he | ⟨-, n, hn, hno⟩ | he
    · exact .inl he
    · exact absurd (hfit k n hn) hno
    · exact .inr he

/-- Two users connect, the second follows the first, the first sends a message and
the worker delivers it. -/
theorem notifications_conserved_example : Conserved (new ⟨[], 0, true⟩ [] ⟨true, none⟩ ⟨[]⟩)
    (handling 32 (clientPacket packetConnectCmd 0 [97]) ⟨[], 1⟩ ++
      handling 32 (clientPacket packetConnectCmd 0 [98]) ⟨[], 2⟩ ++
      handling 32 (clientPacket packetFollowCmd 0 [97]) ⟨[], 2⟩ ++
      handling 32 (clientPacket packetSendCmd 0 [109]) ⟨[], 1⟩ ++ [.worker 0]) :=
  notifications_conserved _ _ _ _ (by decide +kernel)

end Server

end Piupiu
