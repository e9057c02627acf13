import Piupiu.Runs

/-!
# Acknowledgements

The primary holds a container for every CONNECT it has broadcast, and its callback
sends ACCEPT_CONN to the host that a complete container names. The log tells which
calls were made on the buffer; the buffer and the packets that were sent follow
from these calls.
-/
namespace Piupiu

open Atomic

/-- What an event means for the confirmation buffer. -/
def Event.call? : Event → Option (ConfirmationBuffer.Call 3)
  | .broadcast message senderAddress lastSeqn _ =>
    some (.push (ReplicaManager.copies lastSeqn message) message.seqn senderAddress)
  | .confirm seqn => some (.confirm seqn)
  | _ => none

/-- The calls made on the confirmation buffer. -/
def calls (log : List Event) : List (ConfirmationBuffer.Call 3) := log.filterMap Event.call?

def Event.accepted? : Event → Option Nat
  | .sent _ _ (.accept k) => some k
  | _ => none

/-- The containers for which ACCEPT_CONN was sent, first one first. -/
def accepts (log : List Event) : List Nat := log.filterMap Event.accepted?

@[simp] theorem calls_append (log events : List Event) :
    calls (log ++ events) = calls log ++ calls events := List.filterMap_append
@[simp] theorem accepts_append (log events : List Event) :
    accepts (log ++ events) = accepts log ++ accepts events := List.filterMap_append

theorem mem_accepts {log : List Event} {k : Nat} :
    k ∈ accepts log ↔ ∃ address message, Event.sent address message (.accept k) ∈ log := by
  rw [accepts, List.mem_filterMap]
  constructor
  · rintro ⟨e, he, hk⟩
    cases e with
    | sent address message origin =>
      cases origin with
      | accept k' =>
        cases hk
        exact ⟨address, message, he⟩
      | _ => cases hk
    | _ => cases hk
  · rintro ⟨address, message, he⟩
    exact ⟨_, he, rfl⟩

/-- The broadcast that pushed the container at `k`, with the answer that
`StartSession` had given to the handler that made it. -/
def BroadcastAt (log : List Event) (k : Nat) (b : Broadcast) (granted : Bool) : Prop :=
  ∃ before e after, log = before ++ e :: after ∧ e.broadcast? = some b ∧
    (broadcasts before).length = k ∧ serving before =
      some ⟨b.message, b.senderAddress, some (b.message.text, b.senderAddress, granted)⟩

namespace Server

/-- What ties the log to the confirmation buffer and to what its callback sent. -/
structure Acknowledged (s : Server) : Prop where
  history : ConfirmationBuffer.run (calls s.log) =
    ⟨s.replicaManager.confirmationBuffer, accepts s.log⟩
  connects : ∀ c ∈ s.replicaManager.confirmationBuffer,
    c.firstPacket.type = packetConnectCmd
  hosts : ∀ address message k, .sent address message (.accept k) ∈ s.log →
    ∃ c, s.replicaManager.confirmationBuffer[k]? = some c ∧ c.originalHost = address
  served : ∀ before e after b, s.log = before ++ e :: after → e.broadcast? = some b →
    ∃ granted, serving before =
      some ⟨b.message, b.senderAddress, some (b.message.text, b.senderAddress, granted)⟩

/-- An event that concerns neither the buffer nor its callback. -/
def Apart (e : Event) : Prop := e.call? = none ∧ e.accepted? = none ∧ e.broadcast? = none

theorem apart_byWorker {e : Event} (h : e.byWorker = true) : Apart e := by
  cases e with
  | sent address message origin =>
    cases origin with
    | notification => exact ⟨rfl, rfl, rfl⟩
    | _ => cases h
  | fault f => exact ⟨rfl, rfl, rfl⟩
  | delivered | requeued => exact ⟨rfl, rfl, rfl⟩
  | _ => cases h

/-- The steps that concern the buffer are its `Push` and its `Confirm`. -/
theorem step_buffer {s₀ s s' : Server} {now : UInt64} {message : Packet} {address : SocketAddress}
    (h : Step s₀ now message address s s') :
    (s'.replicaManager = s.replicaManager ∧
      ∃ events, s'.log = s.log ++ events ∧ ∀ e ∈ events, Apart e) ∨
    (∃ lastSeqn lastSeqnTemp granted, message.type = packetConnectCmd ∧
      serving s.log = some ⟨message, address, some (message.text, address, granted)⟩ ∧
      s' = (s.pushContainer message address lastSeqn lastSeqnTemp).1) ∨
    s' = s.confirmBuffer now message.seqn := by
  have hnone : ∀ s' : Server, s'.replicaManager = s.replicaManager → s'.log = s.log →
      s'.replicaManager = s.replicaManager ∧
        ∃ events, s'.log = s.log ++ events ∧ ∀ e ∈ events, Apart e :=
    fun s' hr hl => ⟨hr, [], by simp [hl], by simp⟩
  have hone : ∀ (s' : Server) (e : Event), s'.replicaManager = s.replicaManager →
      s'.log = s.log ++ [e] → Apart e → s'.replicaManager = s.replicaManager ∧
        ∃ events, s'.log = s.log ++ events ∧ ∀ e ∈ events, Apart e :=
    fun s' e hr hl he => ⟨hr, [e], hl, by simpa using he⟩
  cases h with
  | look | pushProfile | setSession | pushFollower | incrementSeqn => exact .inl (hnone _ rfl rfl)
  | sync => exact .inl (hnone _ (sync_same s).1 (sync_same s).2.1)
  | started | startSession | endSession | noReturnValue | unknownType | enqueue | forward =>
    exact .inl (hone _ _ rfl rfl ⟨rfl, rfl, rfl⟩)
  | getConnectedUsers =>
    unfold getConnectedUsers
    split
    · exact .inl (hnone _ rfl rfl)
    · exact .inl (hone _ _ rfl rfl ⟨rfl, rfl, rfl⟩)
  | pushContainer lastSeqn lastSeqnTemp granted htype hprimary hserving =>
    exact .inr (.inl ⟨_, _, granted, htype, hserving, rfl⟩)
  | confirmBuffer => exact .inr (.inr rfl)
  | confirmToPrimary =>
    unfold confirmToPrimary
    split <;> exact .inl (hone _ _ rfl rfl ⟨rfl, rfl, rfl⟩)

/-- Splitting a longer log at an event splits the old part or the new one. -/
theorem split_append {α : Type} {log events before after : List α} {e : α}
    (h : log ++ events = before ++ e :: after) :
    (∃ after', log = before ++ e :: after') ∨
      ∃ before' after', events = before' ++ e :: after' ∧ before = log ++ before' := by
  rcases List.append_eq_append_iff.mp h with ⟨as, hb, ha⟩ | ⟨as, hb, ha⟩
  · exact .inr ⟨as, after, ha, hb⟩
  · cases as with
    | nil => exact .inr ⟨[], after, by simpa using ha.symm, by simpa using hb.symm⟩
    | cons a as =>
      rw [List.cons_append, List.cons.injEq] at ha
      exact .inl ⟨as, by rw [hb, ha.1]⟩

theorem apart_acknowledged {s s' : Server} (h : s.Acknowledged)
    (hreplicas : s'.replicaManager = s.replicaManager) {events : List Event}
    (hlog : s'.log = s.log ++ events) (hevents : ∀ e ∈ events, Apart e) : s'.Acknowledged := by
  have hcalls : calls events = [] := List.filterMap_eq_nil_iff.mpr fun e he => (hevents e he).1
  have haccepts : accepts events = [] :=
    List.filterMap_eq_nil_iff.mpr fun e he => (hevents e he).2.1
  refine ⟨?_, ?_, fun address message k he => ?_, fun before e after b he hb => ?_⟩
  · rw [hlog, calls_append, accepts_append, hcalls, haccepts, List.append_nil, List.append_nil,
      hreplicas, h.history]
  · rw [hreplicas]
    exact h.connects
  · rw [hlog, List.mem_append] at he
    rw [hreplicas]
    rcases he with he | he
    · exact h.hosts address message k he
    · have := (hevents _ he).2.1
      cases this
  · rw [hlog] at he
    rcases split_append he with ⟨after', he⟩ | ⟨before', after', he, -⟩
    · exact h.served before e after' b he hb
    · have := (hevents e (by simp [he])).2.2
      rw [hb] at this
      cases this

theorem push_acknowledged {s : Server} (h : s.Acknowledged) {message : Packet}
    {address : SocketAddress} {granted : Bool} (htype : message.type = packetConnectCmd)
    (hserving : serving s.log = some ⟨message, address, some (message.text, address, granted)⟩)
    (lastSeqn lastSeqnTemp : UInt64) :
    (s.pushContainer message address lastSeqn lastSeqnTemp).1.Acknowledged := by
  refine ⟨?_, fun c hc => ?_, fun address' message' k he => ?_, fun before e after b he hb => ?_⟩
  · simp only [pushContainer, record, calls_append, accepts_append]
    rw [show calls [Event.broadcast message address lastSeqn lastSeqnTemp] =
      [.push (ReplicaManager.copies lastSeqn message) message.seqn address] from rfl,
      ConfirmationBuffer.run_append_singleton, h.history]
    simp [accepts, Event.accepted?, ConfirmationBuffer.History.apply]
  · simp only [pushContainer, record, ConfirmationBuffer.push, List.mem_append,
      List.mem_singleton] at hc
    rcases hc with hc | rfl
    · exact h.connects c hc
    · simpa [ConfirmableContainer.firstPacket_eq, ReplicaManager.copies] using htype
  · simp only [pushContainer, record, List.mem_append, List.mem_singleton] at he
    obtain ⟨c, hc, hh⟩ := h.hosts address' message' k (he.resolve_right (by simp))
    refine ⟨c, ?_, hh⟩
    simp only [pushContainer, record, ConfirmationBuffer.push]
    rw [List.getElem?_append_left (List.getElem?_eq_some_iff.mp hc).1, hc]
  · simp only [pushContainer, record] at he
    rcases split_append he with ⟨after', he⟩ | ⟨before', after', he, hbefore⟩
    · exact h.served before e after' b he hb
    · cases before' with
      | nil =>
        simp only [List.nil_append, List.cons.injEq] at he
        rw [← he.1] at hb
        cases hb
        rw [hbefore, List.append_nil]
        exact ⟨granted, hserving⟩
      | cons a as => simp at he

/-- The callback sends one ACCEPT_CONN for each container it is called for. -/
theorem accepts_confirmEvents (now : UInt64) {buffer : ConfirmationBuffer 3}
    (hconnects : ∀ c ∈ buffer, c.firstPacket.type = packetConnectCmd) (seqn : UInt64) :
    accepts (confirmEvents now buffer seqn) = (buffer.confirm seqn).2.2 := by
  have hcalled : ∀ called : List Nat,
      (∀ k ∈ called, ∃ c, (buffer.confirm seqn).1[k]? = some c) →
      accepts (called.flatMap (callbackEvents now (buffer.confirm seqn).1)) = called := by
    intro called hc
    induction called with
    | nil => rfl
    | cons k called ih =>
      obtain ⟨c, hk⟩ := hc k List.mem_cons_self
      have htype : c.firstPacket.type = packetConnectCmd := by
        rw [ConfirmationBuffer.confirm_containers, List.getElem?_map,
          Option.map_eq_some_iff] at hk
        obtain ⟨c', hc', rfl⟩ := hk
        rw [ConfirmableContainer.confirm_firstPacket]
        exact hconnects c' (List.mem_of_getElem? hc')
      have hone : callbackEvents now (buffer.confirm seqn).1 k = [.sent c.originalHost
          (makeAcceptConnCommand now c.originalSeqn) (.accept k)] := by
        simp only [callbackEvents, hk, htype, if_true]
      rw [List.flatMap_cons, accepts_append, hone, ih fun j hj => hc j (List.mem_cons_of_mem _ hj)]
      rfl
  rw [confirmEvents, accepts, List.filterMap_cons_none rfl]
  refine hcalled _ fun k hk => ?_
  obtain ⟨c, hc, -⟩ := (ConfirmationBuffer.mem_confirm_called _ _ k).mp hk
  exact ⟨c, hc⟩

theorem calls_confirmEvents (now : UInt64) (buffer : ConfirmationBuffer 3) (seqn : UInt64) :
    calls (confirmEvents now buffer seqn) = [.confirm seqn] := by
  have hnil : ((buffer.confirm seqn).2.2.flatMap
      (callbackEvents now (buffer.confirm seqn).1)).filterMap Event.call? = [] := by
    refine List.filterMap_eq_nil_iff.mpr fun e he => ?_
    obtain ⟨k, -, he⟩ := List.mem_flatMap.mp he
    unfold callbackEvents at he
    split at he
    · split at he
      · rw [List.mem_singleton.mp he]
        rfl
      · cases he
    · cases he
  have hconfirm : (Event.confirm seqn).call? = some (.confirm seqn) := rfl
  rw [confirmEvents, calls, List.filterMap_cons_some hconfirm, hnil]

theorem confirm_acknowledged {s : Server} (h : s.Acknowledged) (now seqn : UInt64) :
    (s.confirmBuffer now seqn).Acknowledged := by
  rw [confirmBuffer_eq]
  have hconfirmed : ∀ {k : Nat} {c : ConfirmableContainer 3},
      (s.replicaManager.confirmationBuffer.confirm seqn).1[k]? = some c →
      ∃ c', s.replicaManager.confirmationBuffer[k]? = some c' ∧ c = c'.confirm seqn := by
    intro k c hc
    rw [ConfirmationBuffer.confirm_containers, List.getElem?_map, Option.map_eq_some_iff] at hc
    obtain ⟨c', hc', rfl⟩ := hc
    exact ⟨c', hc', rfl⟩
  refine ⟨?_, fun c hc => ?_, fun address message k he => ?_, fun before e after b he hb => ?_⟩
  · simp only [calls_append, accepts_append, calls_confirmEvents,
      accepts_confirmEvents now h.connects, ConfirmationBuffer.run_append_singleton, h.history,
      ConfirmationBuffer.History.apply]
  · obtain ⟨k, hk⟩ := List.getElem?_of_mem hc
    obtain ⟨c', hc', rfl⟩ := hconfirmed hk
    rw [ConfirmableContainer.confirm_firstPacket]
    exact h.connects c' (List.mem_of_getElem? hc')
  · rcases List.mem_append.mp he with he | he
    · obtain ⟨c, hc, hh⟩ := h.hosts address message k he
      exact ⟨c.confirm seqn, by simp [hc], hh⟩
    · rcases mem_confirmEvents he with he | ⟨k', c, hc, -, -, he⟩
      · cases he
      · cases he
        exact ⟨c, hc, rfl⟩
  · rcases split_append he with ⟨after', he⟩ | ⟨before', after', he, -⟩
    · exact h.served before e after' b he hb
    · rcases mem_confirmEvents (he ▸ List.mem_append_right before' List.mem_cons_self) with
        rfl | ⟨k, c, -, -, -, rfl⟩ <;> cases hb

theorem acknowledged_preserved : Preserves (fun _ _ _ => True) (fun _ => True) Acknowledged where
  stable _ _ _ _ := trivial
  ended _ _ _ _ _ _ _ _ := trivial
  step s₀ s s' now message address _ _ _ h hstep := by
    rcases step_buffer hstep with ⟨hreplicas, events, hlog, hevents⟩ |
      ⟨lastSeqn, lastSeqnTemp, granted, htype, hserving, rfl⟩ | rfl
    · exact apart_acknowledged h hreplicas hlog hevents
    · exact push_acknowledged h htype hserving lastSeqn lastSeqnTemp
    · exact confirm_acknowledged h now message.seqn
  worker s now h := by
    obtain ⟨events, hlog, hevents⟩ := (worker_rely now s).log
    exact apart_acknowledged h (worker_rely now s).replicas hlog fun e he =>
      apart_byWorker (hevents e he)

theorem run_acknowledged (thisPeer : Peer) (peers : List Peer) (disk : Disk)
    (profiles : ProfileManager) (moves : List Move) :
    ((new thisPeer peers disk profiles).run moves).shared.Acknowledged := by
  have hinit : (new thisPeer peers disk profiles).Acknowledged :=
    ⟨rfl, by simp [new], by simp [new], by simp [new]⟩
  exact (run_tracked acknowledged_preserved trivial hinit (admits_true _ _)).holds

/-- The callback is called at most once for each container, and at most one
ACCEPT_CONN is sent for each CONNECT, exactly as long as nothing is confirmed while
the buffer holds a complete container. -/
theorem accepted_once_iff (N : Nat) (hN : 0 < N) (history : List (ConfirmationBuffer.Call N))
    (thisPeer : Peer) (peers : List Peer) (disk : Disk) (profiles : ProfileManager)
    (moves : List Move) :
    (ConfirmationBuffer.AtMostOnce history ↔ ConfirmationBuffer.Quiet history) ∧
    ((∀ k, (accepts ((new thisPeer peers disk profiles).run moves).shared.log).count k ≤ 1) ↔
      ConfirmationBuffer.Quiet (calls ((new thisPeer peers disk profiles).run moves).shared.log)) := by
  refine ⟨ConfirmationBuffer.atMostOnce_iff_quiet hN history, ?_⟩
  have hhistory := (run_acknowledged thisPeer peers disk profiles moves).history
  rw [← ConfirmationBuffer.atMostOnce_iff_quiet (by decide), ConfirmationBuffer.AtMostOnce,
    hhistory]

/-- A container of one item. -/
def pushOne : ConfirmationBuffer.Call 1 :=
  .push #v[⟨0, clientPacket packetConnectCmd 0 [97]⟩] 0 ⟨[], 4⟩

/-- The one confirmation of a container comes while nothing is complete yet. -/
theorem accepted_once_iff_single : ConfirmationBuffer.AtMostOnce [pushOne, .confirm 0] := by
  refine (accepted_once_iff 1 Nat.one_pos _ ⟨[], 0, true⟩ [] ⟨true, none⟩ ⟨[]⟩ []).1.mpr ?_
  rintro (_ | ⟨c, _ | ⟨c', before⟩⟩) n after h
  · cases h
  · cases h
    rintro ⟨container, hm, hconfirmed⟩
    rw [List.mem_singleton.mp hm, ConfirmationBuffer.push_not_confirmed Nat.one_pos] at hconfirmed
    cases hconfirmed
  · simp at h

/-- A primary with three secondaries. -/
def primaryOfThree : Server :=
  new ⟨[], 0, true⟩ [⟨[], 1, false⟩, ⟨[], 2, false⟩, ⟨[], 3, false⟩] ⟨true, none⟩ ⟨[]⟩

/-- The number of a container that is complete comes once more: the callback is
called again, and the client gets a second ACCEPT_CONN for its one CONNECT. -/
theorem not_accepted_once :
    ¬ConfirmationBuffer.AtMostOnce [pushOne, .confirm 0, .confirm 0] ∧
    (accepts (primaryOfThree.run (
      handling 32 (clientPacket packetConnectCmd 0 [97]) ⟨[], 4⟩ ++
      handling 8 (makeConfirmStateChangeMessage 0 0) ⟨[], 1⟩ ++
      handling 8 (makeConfirmStateChangeMessage 0 1) ⟨[], 2⟩ ++
      handling 8 (makeConfirmStateChangeMessage 0 2) ⟨[], 3⟩ ++
      handling 8 (makeConfirmStateChangeMessage 0 2) ⟨[], 3⟩)).shared.log).count 0 = 2 := by
  refine ⟨fun h => ?_, by decide +kernel⟩
  exact absurd (h 0) (by decide +kernel)

/-- Every ACCEPT_CONN is for a CONNECT whose sender was granted a session. -/
def OnlyAdmitted (log : List Event) : Prop :=
  ∀ k address message, .sent address message (.accept k) ∈ log →
    ∃ b, BroadcastAt log k b true ∧ b.senderAddress = address

theorem run_calls_length (log : List Event) :
    (ConfirmationBuffer.run (calls log)).buffer.length = (broadcasts log).length := by
  induction log using List.reverseRecOn with
  | nil => rfl
  | append_singleton log e ih =>
    have hquiet : e.call? = none → calls [e] = [] := fun he => by simp [calls, he]
    rw [calls_append, broadcasts_append, List.length_append, ← ih]
    cases e with
    | broadcast message senderAddress lastSeqn lastSeqnTemp =>
      rw [show calls [Event.broadcast message senderAddress lastSeqn lastSeqnTemp] =
        [.push (ReplicaManager.copies lastSeqn message) message.seqn senderAddress] from rfl,
        ConfirmationBuffer.run_append_singleton]
      simp [ConfirmationBuffer.History.apply, ConfirmationBuffer.push, broadcasts, Event.broadcast?]
    | confirm seqn =>
      rw [show calls [Event.confirm seqn] = [.confirm seqn] from rfl,
        ConfirmationBuffer.run_append_singleton]
      simp [ConfirmationBuffer.History.apply, broadcasts, Event.broadcast?]
    | _ =>
      rw [hquiet rfl, List.append_nil]
      rfl

theorem broadcast?_of_push {e : Event} {items : Vector BaseMessage 3} {seqn : UInt64}
    {address : SocketAddress} (h : e.call? = some (.push items seqn address)) :
    ∃ b, e.broadcast? = some b ∧ items = ReplicaManager.copies b.lastSeqn b.message ∧
      address = b.senderAddress := by
  cases e with
  | broadcast message senderAddress lastSeqn lastSeqnTemp =>
    cases h
    exact ⟨_, rfl, rfl, rfl⟩
  | confirm => cases h
  | _ => cases h

/-- Behind every container there is the broadcast that pushed it. -/
theorem broadcastAt_of_pushed {s : Server} (h : s.Acknowledged) {k : Nat}
    {items : Vector BaseMessage 3} {seqn : UInt64} {address : SocketAddress}
    {after : List (ConfirmationBuffer.Call 3)}
    (hp : ConfirmationBuffer.Pushed (calls s.log) k items seqn address after) :
    ∃ b granted, BroadcastAt s.log k b granted ∧
      items = ReplicaManager.copies b.lastSeqn b.message ∧ address = b.senderAddress := by
  obtain ⟨before, hcalls, hk⟩ := hp
  obtain ⟨log₁, log₂, hlog, rfl, hcalls₂⟩ := List.filterMap_eq_append_iff.mp hcalls
  obtain ⟨log₃, e, log₄, rfl, hnone, he, -⟩ := List.filterMap_eq_cons_iff.mp hcalls₂
  obtain ⟨b, hb, hitems, haddress⟩ := broadcast?_of_push he
  rw [← List.append_assoc] at hlog
  obtain ⟨granted, hserving⟩ := h.served _ e log₄ b hlog hb
  refine ⟨b, granted, ⟨_, e, log₄, hlog, hb, ?_, hserving⟩, hitems, haddress⟩
  have hcalls₁ : calls (log₁ ++ log₃) = log₁.filterMap Event.call? := by
    rw [calls_append, calls, calls, List.filterMap_eq_nil_iff.mpr hnone, List.append_nil]
  rw [← run_calls_length, hcalls₁, hk]

theorem broadcastAt_unique {log : List Event} {k : Nat} {b b' : Broadcast} {granted granted' : Bool}
    (h : BroadcastAt log k b granted) (h' : BroadcastAt log k b' granted') :
    b = b' ∧ granted = granted' := by
  obtain ⟨before, e, after, rfl, hb, hk, hs⟩ := h
  obtain ⟨before', e', after', he, hb', hk', hs'⟩ := h'
  have hlt : ∀ {before as : List Event} {e : Event} {b : Broadcast}, e.broadcast? = some b →
      (broadcasts (before ++ e :: as)).length ≠ (broadcasts before).length := by
    intro before as e b hb
    rw [broadcasts_append, broadcasts, broadcasts, List.filterMap_cons_some hb]
    simp
  have hsame : before = before' ∧ e = e' := by
    rcases List.append_eq_append_iff.mp he with ⟨as, rfl, ha⟩ | ⟨as, rfl, ha⟩
    · cases as with
      | nil => exact ⟨by simp, (List.cons.inj ha).1⟩
      | cons a as =>
        rw [List.cons_append, List.cons.injEq] at ha
        rw [← ha.1] at hk'
        exact absurd (hk'.trans hk.symm) (hlt hb)
    · cases as with
      | nil => exact ⟨by simp, (List.cons.inj ha).1.symm⟩
      | cons a as =>
        rw [List.cons_append, List.cons.injEq] at ha
        rw [← ha.1] at hk
        exact absurd (hk.trans hk'.symm) (hlt hb')
  obtain ⟨rfl, rfl⟩ := hsame
  have hbb : b = b' := Option.some.inj (hb.symm.trans hb')
  subst hbb
  rw [hs] at hs'
  simpa using hs'

theorem broadcastAt_get {log : List Event} {k : Nat} {b : Broadcast} {granted : Bool}
    (h : BroadcastAt log k b granted) : (broadcasts log)[k]? = some b := by
  obtain ⟨before, e, after, rfl, hb, rfl, -⟩ := h
  rw [broadcasts_append, broadcasts, broadcasts, List.filterMap_cons_some hb]
  simp

theorem accepted_iff_completes {s : Server} (h : s.Acknowledged) (k : Nat) :
    k ∈ accepts s.log ↔ ConfirmationBuffer.Completes (calls s.log) k := by
  rw [← ConfirmationBuffer.called_iff_completes (by decide), h.history]

/-- The numbers that the calls confirm are those of the confirm events. -/
theorem mem_confirmed_calls {log : List Event} {n : UInt64} :
    n ∈ ConfirmationBuffer.confirmed (calls log) ↔ .confirm n ∈ log := by
  constructor
  · intro h
    obtain ⟨call, hcall, hn⟩ := List.mem_filterMap.mp h
    obtain ⟨e, he, hec⟩ := List.mem_filterMap.mp hcall
    cases call with
    | push => cases hn
    | confirm n' =>
      cases hn
      cases e with
      | confirm n' =>
        cases hec
        exact he
      | _ => cases hec
  · intro h
    exact List.mem_filterMap.mpr ⟨.confirm n, List.mem_filterMap.mpr ⟨.confirm n, h, rfl⟩, rfl⟩

/-- Each number of an accepted CONNECT has been confirmed. -/
theorem confirm_of_accepted {s : Server} (h : s.Acknowledged) {k : Nat} {b : Broadcast}
    {granted : Bool} (hb : BroadcastAt s.log k b granted) (hk : k ∈ accepts s.log) (i : Fin 3) :
    .confirm (b.lastSeqn + UInt64.ofNat i) ∈ s.log := by
  obtain ⟨items, seqn, address, after, hp, hall⟩ := (accepted_iff_completes h k).mp hk
  obtain ⟨b', granted', hb', rfl, -⟩ := broadcastAt_of_pushed h hp
  obtain ⟨rfl, -⟩ := broadcastAt_unique hb hb'
  obtain ⟨before, hcalls, -⟩ := hp
  have hmem : (ReplicaManager.copies b.lastSeqn b.message)[i].sequenceNumber ∈
      ConfirmationBuffer.confirmed after := hall i i.isLt
  rw [ReplicaManager.copies_sequenceNumber] at hmem
  refine mem_confirmed_calls.mp ?_
  rw [hcalls, ConfirmationBuffer.confirmed, List.filterMap_append]
  exact List.mem_append_right _ (List.mem_filterMap.mpr (by
    obtain ⟨call, hcall, hn⟩ := List.mem_filterMap.mp hmem
    exact ⟨call, List.mem_cons_of_mem _ hcall, hn⟩))

/-- What is accepted was broadcast from the address that the acceptance goes to. -/
theorem accepted_broadcastAt {s : Server} (h : s.Acknowledged) {k : Nat} {address : SocketAddress}
    {message : Packet} (hk : .sent address message (.accept k) ∈ s.log) :
    ∃ b granted, BroadcastAt s.log k b granted ∧ b.senderAddress = address := by
  obtain ⟨c, hc, hh⟩ := h.hosts address message k hk
  have hbuffer : (ConfirmationBuffer.run (calls s.log)).buffer =
      s.replicaManager.confirmationBuffer := by rw [h.history]
  rw [← hbuffer] at hc
  obtain ⟨items, seqn, address', after, hp, rfl⟩ := ConfirmationBuffer.run_settled hc
  obtain ⟨b, granted, hb, -, rfl⟩ := broadcastAt_of_pushed h hp
  exact ⟨b, granted, hb, hh⟩

theorem broadcastAt_of_index {log : List Event} {i k : Nat} {e : Event} {b : Broadcast}
    {granted : Bool} (hi : log[i]? = some e) (hb : e.broadcast? = some b)
    (hk : (broadcasts (log.take i)).length = k) (hs : serving (log.take i) =
      some ⟨b.message, b.senderAddress, some (b.message.text, b.senderAddress, granted)⟩) :
    BroadcastAt log k b granted := by
  obtain ⟨hlt, he⟩ := List.getElem?_eq_some_iff.mp hi
  refine ⟨log.take i, e, log.drop (i + 1), ?_, hb, hk, hs⟩
  rw [← he, ← List.drop_eq_getElem_cons, List.take_append_drop]

/-- Only admitted hosts are accepted exactly as long as no refused CONNECT has all
three of its numbers confirmed. -/
theorem only_admitted_iff (thisPeer : Peer) (peers : List Peer) (disk : Disk)
    (profiles : ProfileManager) (moves : List Move) :
    OnlyAdmitted ((new thisPeer peers disk profiles).run moves).shared.log ↔
      ∀ k b, BroadcastAt ((new thisPeer peers disk profiles).run moves).shared.log k b false →
        ¬ConfirmationBuffer.Completes
          (calls ((new thisPeer peers disk profiles).run moves).shared.log) k := by
  have h := run_acknowledged thisPeer peers disk profiles moves
  generalize ((new thisPeer peers disk profiles).run moves).shared = s at h ⊢
  constructor
  · intro hadmitted k b hb hcompletes
    obtain ⟨address, message, hsent⟩ := mem_accepts.mp ((accepted_iff_completes h k).mpr hcompletes)
    obtain ⟨b', hb', -⟩ := hadmitted k address message hsent
    exact absurd (broadcastAt_unique hb hb').2 (by decide)
  · intro hrefused k address message hsent
    obtain ⟨b, granted, hb, hh⟩ := accepted_broadcastAt h hsent
    cases granted with
    | true => exact ⟨b, hb, hh⟩
    | false =>
      have hcompletes := (accepted_iff_completes h k).mp (mem_accepts.mpr ⟨_, _, hsent⟩)
      exact absurd hcompletes (hrefused k b hb)

/-- A user that has two sockets connects from a third host, and the three secondaries
confirm the forwarded copies. -/
def thirdHost : List Move :=
  handling 32 (clientPacket packetConnectCmd 0 [97]) ⟨[], 4⟩ ++
    handling 32 (clientPacket packetConnectCmd 0 [97]) ⟨[], 5⟩ ++
    handling 32 (clientPacket packetConnectCmd 0 [97]) ⟨[], 6⟩ ++
    handling 8 (makeConfirmStateChangeMessage 0 6) ⟨[], 1⟩ ++
    handling 8 (makeConfirmStateChangeMessage 0 7) ⟨[], 2⟩ ++
    handling 8 (makeConfirmStateChangeMessage 0 8) ⟨[], 3⟩

/-- The third host is refused and accepted. -/
theorem not_only_admitted : ¬OnlyAdmitted (primaryOfThree.run thirdHost).shared.log := by
  intro h
  obtain ⟨b, hb, -⟩ := h 2 ⟨[], 6⟩ (makeAcceptConnCommand 0 0) (by decide +kernel)
  have hrefused : BroadcastAt (primaryOfThree.run thirdHost).shared.log 2
      ⟨clientPacket packetConnectCmd 0 [97], ⟨[], 6⟩, 6, 6⟩ false :=
    broadcastAt_of_index (i := 14)
      (e := .broadcast (clientPacket packetConnectCmd 0 [97]) ⟨[], 6⟩ 6 6)
      (by decide +kernel) rfl (by decide +kernel) (by decide +kernel)
  exact absurd (broadcastAt_unique hb hrefused).2 (by decide)

end Server

end Piupiu
