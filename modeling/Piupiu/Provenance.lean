import Piupiu.Acknowledgements

/-!
# Where packets come from

Every packet a server sends has a reason in the log, and every reason goes back
to a packet that the server has received. A broadcast takes its numbers from a
range of the counter that no other broadcast uses.
-/
namespace Piupiu

open Atomic

/-- The CONNECT handler of the packet was executed up to its last action, which is
to confirm the packet. -/
def Executed (log : List Event) (message : Packet) (address : SocketAddress) : Prop :=
  ∃ before after primary now granted,
    log = before ++ .sent primary (makeConfirmStateChangeMessage now message.seqn) .confirmation :: after ∧
    message.type = packetConnectCmd ∧
    serving before = some ⟨message, address, some (message.text, address, granted)⟩

theorem executed_append {log : List Event} {message : Packet} {address : SocketAddress}
    (h : Executed log message address) (events : List Event) :
    Executed (log ++ events) message address := by
  obtain ⟨before, after, primary, now, granted, rfl, htype, hserving⟩ := h
  exact ⟨before, after ++ events, primary, now, granted, by simp, htype, hserving⟩

/-- Why an event may stand in the log of a server with these replicas, when the
server has received packets `Ok`. -/
def Justified (Ok : Packet → SocketAddress → Prop) (m : ReplicaManager) (log : List Event) :
    Event → Prop
  | .started message address => Ok message address
  | .broadcast _ _ _ _ => m.isPrimary = true
  | .confirm seqn => ∃ message address, Ok message address ∧
      message.type = packetConfirmStateChange ∧ message.seqn = seqn
  | .sent _ message .notification => message.type = packetNotification
  | .sent _ message (.accept _) => message.type = packetAcceptConnCmd
  | .sent address message (.forward k i) => ∃ b peer, (broadcasts log)[k]? = some b ∧
      b.message.type = packetConnectCmd ∧ m.getSecondaryReplicas[i]? = some peer ∧
      address = peer.getSocketAddress ∧
      message = { b.message with seqn := b.lastSeqnTemp + UInt64.ofNat i }
  | .sent address message .confirmation => m.isPrimary = false ∧ ∃ primary now received sender,
      m.getPrimaryReplica = some primary ∧ address = primary.getSocketAddress ∧
      message = makeConfirmStateChangeMessage now received.seqn ∧ Ok received sender ∧
      (received.type = packetConfirmStateChange ∨ Executed log received sender)
  | .fault .noPrimaryPeer => m.isPrimary = false ∧ m.getPrimaryReplica = none
  | .fault .unknownType => ∃ message address, Ok message address ∧
      packetConfirmStateChange < message.type
  | _ => True

variable {Ok : Packet → SocketAddress → Prop} {m : ReplicaManager}

theorem justified_append {log : List Event} {e : Event} (h : Justified Ok m log e)
    (events : List Event) : Justified Ok m (log ++ events) e := by
  cases e with
  | sent address message origin =>
    cases origin with
    | forward k i =>
      obtain ⟨b, peer, hb, hrest⟩ := h
      refine ⟨b, peer, ?_, hrest⟩
      rw [broadcasts_append, List.getElem?_append_left (List.getElem?_eq_some_iff.mp hb).1, hb]
    | confirmation =>
      obtain ⟨hprimary, primary, now, received, sender, hp, ha, hm, hok, hreason⟩ := h
      exact ⟨hprimary, primary, now, received, sender, hp, ha, hm, hok,
        hreason.imp_right fun he => executed_append he events⟩
    | _ => exact h
  | fault f => cases f <;> exact h
  | _ => exact h

/-- The ranges of the counter that the broadcasts of a log have used. -/
structure Spans (log : List Event) (lastSeqn : Nat) (spans : List (Nat × Nat)) : Prop where
  numbers : (broadcasts log).map (fun b => (b.lastSeqn, b.lastSeqnTemp)) =
    spans.map fun x => (UInt64.ofNat x.1, UInt64.ofNat x.2)
  apart : spans.Pairwise fun x y => x.2 + 3 ≤ y.1
  bounded : ∀ x ∈ spans, x.1 ≤ x.2 ∧ x.2 + 3 ≤ lastSeqn

namespace Spans

variable {log : List Event} {lastSeqn : Nat} {spans : List (Nat × Nat)}

theorem get (h : Spans log lastSeqn spans) {k : Nat} {b : Broadcast}
    (hb : (broadcasts log)[k]? = some b) : ∃ x, spans[k]? = some x ∧
      b.lastSeqn = UInt64.ofNat x.1 ∧ b.lastSeqnTemp = UInt64.ofNat x.2 := by
  have hk := congrArg (·[k]?) h.numbers
  simp only [List.getElem?_map, hb, Option.map_some] at hk
  obtain ⟨x, hx, he⟩ := Option.map_eq_some_iff.mp hk.symm
  rw [Prod.mk.injEq] at he
  exact ⟨x, hx, he.1.symm, he.2.symm⟩

/-- A number of one broadcast is no number of another one. -/
theorem same_of_number (h : Spans log lastSeqn spans) {k k' : Nat} {x x' : Nat × Nat}
    (hx : spans[k]? = some x) (hx' : spans[k']? = some x') {i j : Nat} (hi : i < 3) (hj : j < 3)
    (he : x.1 + i = x'.2 + j) : k = k' := by
  have hle := (h.bounded x (List.mem_of_getElem? hx)).1
  have hle' := (h.bounded x' (List.mem_of_getElem? hx')).1
  obtain ⟨hk, rfl⟩ := List.getElem?_eq_some_iff.mp hx
  obtain ⟨hk', rfl⟩ := List.getElem?_eq_some_iff.mp hx'
  rcases Nat.lt_trichotomy k k' with hlt | heq | hlt
  · have := List.pairwise_iff_getElem.mp h.apart k k' hk hk' hlt
    omega
  · exact heq
  · have := List.pairwise_iff_getElem.mp h.apart k' k hk' hk hlt
    omega

/-- Below the wrap of the counter, equal numbers are equal as naturals. -/
theorem number_eq (h : Spans log lastSeqn spans) (hwrap : lastSeqn < 2 ^ 64) {x x' : Nat × Nat}
    (hx : x ∈ spans) (hx' : x' ∈ spans) {i j : Nat} (hi : i < 3) (hj : j < 3)
    (he : UInt64.ofNat x.1 + UInt64.ofNat i = UInt64.ofNat x'.2 + UInt64.ofNat j) :
    x.1 + i = x'.2 + j := by
  have hb := h.bounded x hx
  have hb' := h.bounded x' hx'
  rw [← UInt64.ofNat_add, ← UInt64.ofNat_add] at he
  have := congrArg UInt64.toNat he
  rwa [UInt64.toNat_ofNat_of_lt' (by rw [UInt64.size]; omega),
    UInt64.toNat_ofNat_of_lt' (by rw [UInt64.size]; omega)] at this

end Spans

namespace Server

/-- What is known of the log of a server that runs as `m` says. -/
structure Traced (Ok : Packet → SocketAddress → Prop) (m : ReplicaManager) (s : Server) : Prop where
  thisPeer : s.replicaManager.thisPeer = m.thisPeer
  peers : s.replicaManager.peers = m.peers
  justified : ∀ e ∈ s.log, Justified Ok m s.log e
  spans : ∃ spans, Spans s.log s.lastSeqn spans

/-- More events with a reason, none of them a broadcast. -/
theorem Traced.extend {s s' : Server} (h : s.Traced Ok m) {events : List Event}
    (hthis : s'.replicaManager.thisPeer = s.replicaManager.thisPeer)
    (hpeers : s'.replicaManager.peers = s.replicaManager.peers)
    (hlog : s'.log = s.log ++ events) (hseqn : s.lastSeqn ≤ s'.lastSeqn)
    (hquiet : broadcasts events = []) (hevents : ∀ e ∈ events, Justified Ok m s'.log e) :
    s'.Traced Ok m := by
  refine ⟨hthis.trans h.thisPeer, hpeers.trans h.peers, fun e he => ?_, ?_⟩
  · rw [hlog] at he
    rcases List.mem_append.mp he with he | he
    · rw [hlog]
      exact justified_append (h.justified e he) events
    · exact hevents e he
  · obtain ⟨spans, hn, ha, hb⟩ := h.spans
    refine ⟨spans, ?_, ha, fun x hx => ?_⟩
    · rw [hlog, broadcasts_append, hquiet, List.append_nil, hn]
    · have := hb x hx
      omega

theorem Traced.isPrimary {s : Server} (h : s.Traced Ok m) :
    s.replicaManager.isPrimary = m.isPrimary := by
  simp [ReplicaManager.isPrimary, h.thisPeer]

theorem Traced.secondaries {s : Server} (h : s.Traced Ok m) :
    s.replicaManager.getSecondaryReplicas = m.getSecondaryReplicas := by
  simp [ReplicaManager.getSecondaryReplicas, h.peers]

theorem Traced.primary {s : Server} (h : s.Traced Ok m) :
    s.replicaManager.getPrimaryReplica = m.getPrimaryReplica := by
  simp [ReplicaManager.getPrimaryReplica, h.isPrimary, h.thisPeer, h.peers]

theorem Acknowledged.length {s : Server} (h : s.Acknowledged) :
    s.replicaManager.confirmationBuffer.length = (broadcasts s.log).length := by
  rw [← run_calls_length, h.history]

section step

variable {s₀ s : Server} {now : UInt64} {message : Packet} {address : SocketAddress}

/-- A broadcast uses numbers beyond those of all older broadcasts. -/
theorem push_traced (h₀ : s₀.Traced Ok m) (h : s.Traced Ok m) {lastSeqn lastSeqnTemp : Nat}
    (hprimary : s.replicaManager.isPrimary = true)
    (hbroadcasts : broadcasts s.log = broadcasts s₀.log) (hle₀ : s₀.lastSeqn ≤ lastSeqn)
    (hle₁ : lastSeqn ≤ lastSeqnTemp) (hle₂ : lastSeqnTemp + 3 ≤ s.lastSeqn) :
    (s.pushContainer message address (UInt64.ofNat lastSeqn)
      (UInt64.ofNat lastSeqnTemp)).1.Traced Ok m := by
  refine ⟨h.thisPeer, h.peers, fun e he => ?_, ?_⟩
  · simp only [pushContainer, record] at he ⊢
    rcases List.mem_append.mp he with he | he
    · exact justified_append (h.justified e he) _
    · rw [List.mem_singleton.mp he]
      exact h.isPrimary.symm.trans hprimary
  · obtain ⟨spans, hn, ha, hb⟩ := h₀.spans
    refine ⟨spans ++ [(lastSeqn, lastSeqnTemp)], ?_, ?_, fun x hx => ?_⟩
    · simp only [pushContainer, record, broadcasts_append, hbroadcasts, List.map_append, hn]
      rfl
    · rw [List.pairwise_append]
      refine ⟨ha, List.pairwise_singleton _ _, fun x hx y hy => ?_⟩
      rw [List.mem_singleton.mp hy]
      exact (hb x hx).2.trans hle₀
    · show x.1 ≤ x.2 ∧ x.2 + 3 ≤ s.lastSeqn
      rcases List.mem_append.mp hx with hx | hx
      · have := hb x hx
        omega
      · rw [List.mem_singleton.mp hx]
        exact ⟨hle₁, hle₂⟩

theorem step_traced (hack₀ : s₀.Acknowledged) (h₀ : s₀.Traced Ok m) (h : s.Traced Ok m)
    (hok : Ok message address) {s' : Server} (hstep : Step s₀ now message address s s') :
    s'.Traced Ok m := by
  have hquiet : ∀ s' : Server, s'.replicaManager = s.replicaManager → s'.log = s.log →
      s.lastSeqn ≤ s'.lastSeqn → s'.Traced Ok m := by
    intro s' hr hl hle
    have hlog : s'.log = s.log ++ [] := by simp [hl]
    exact h.extend (by rw [hr]) (by rw [hr]) hlog hle rfl (by simp)
  have hone : ∀ (s' : Server) (e : Event), s'.replicaManager = s.replicaManager →
      s'.log = s.log ++ [e] → s.lastSeqn ≤ s'.lastSeqn → e.broadcast? = none →
      Justified Ok m s'.log e → s'.Traced Ok m := fun s' e hr hl hle hb he =>
    h.extend (by rw [hr]) (by rw [hr]) hl hle (by simp [broadcasts, hb])
      (by simpa using he)
  cases hstep with
  | look | pushProfile | setSession | pushFollower => exact hquiet _ rfl rfl (Nat.le_refl _)
  | incrementSeqn => exact hquiet _ rfl rfl (Nat.le_succ _)
  | sync => exact hquiet _ (sync_same s).1 (sync_same s).2.1 (sync_same s).2.2.ge
  | started => exact hone _ _ rfl rfl (Nat.le_refl _) rfl hok
  | startSession | endSession | noReturnValue | enqueue =>
    exact hone _ _ rfl rfl (Nat.le_refl _) rfl trivial
  | unknownType htype => exact hone _ _ rfl rfl (Nat.le_refl _) rfl ⟨message, address, hok, htype⟩
  | getConnectedUsers =>
    unfold getConnectedUsers
    split
    · exact hquiet _ rfl rfl (Nat.le_refl _)
    · exact hone _ _ rfl rfl (Nat.le_refl _) rfl trivial
  | pushContainer lastSeqn lastSeqnTemp granted htype hprimary hserving hbroadcasts hle₀ hle₁ hle₂ =>
    exact push_traced h₀ h hprimary hbroadcasts hle₀ hle₁ hle₂
  | forward lastSeqn lastSeqnTemp i peer htype hpeer hbroadcasts =>
    refine hone _ _ rfl rfl (Nat.le_refl _) rfl ⟨⟨message, address, lastSeqn, lastSeqnTemp⟩, peer,
      ?_, htype, h.secondaries ▸ hpeer, rfl, rfl⟩
    rw [hack₀.length]
    simp only [send, record, broadcasts_append, hbroadcasts, List.append_assoc]
    simp
  | confirmBuffer htype hprimary =>
    rw [confirmBuffer_eq]
    refine h.extend rfl rfl rfl (Nat.le_refl _) ?_ fun e he => ?_
    · refine List.filterMap_eq_nil_iff.mpr fun e he => ?_
      rcases mem_confirmEvents he with rfl | ⟨k, c, -, -, -, rfl⟩ <;> rfl
    · rcases mem_confirmEvents he with rfl | ⟨k, c, -, -, -, rfl⟩
      · exact ⟨message, address, hok, htype, rfl⟩
      · rfl
  | confirmToPrimary hprimary hserved =>
    unfold confirmToPrimary
    split
    · next primary hp =>
      refine hone _ _ rfl rfl (Nat.le_refl _) rfl ⟨h.isPrimary ▸ hprimary, primary, now, message,
        address, h.primary ▸ hp, rfl, rfl, hok, hserved.imp_right fun h => ?_⟩
      obtain ⟨htype, granted, hs⟩ := h
      exact ⟨s.log, [], _, now, granted, rfl, htype, hs⟩
    · next hnone =>
      exact hone _ _ rfl rfl (Nat.le_refl _) rfl ⟨h.isPrimary ▸ hprimary, h.primary ▸ hnone⟩

end step

theorem worker_traced {s : Server} (h : s.Traced Ok m) (now : UInt64) :
    (s.pendingNotificationWorker now).Traced Ok m := by
  obtain ⟨events, hlog, hevents⟩ := (worker_rely now s).log
  have hreplicas := (worker_rely now s).replicas
  refine h.extend (by rw [hreplicas]) (by rw [hreplicas]) hlog (worker_rely now s).seqn
    (broadcasts_byWorker hevents) fun e he => ?_
  have := hevents e he
  cases e with
  | sent address message origin =>
    cases origin with
    | notification =>
      have htype : message.type = packetNotification := of_decide_eq_true this
      exact htype
    | _ => cases this
  | delivered | requeued => exact trivial
  | fault f =>
    cases f with
    | payloadOverflow | unsetSession => exact trivial
    | _ => cases this
  | _ => cases this

theorem traced_preserved :
    Preserves (fun _ => Ok) (fun _ => True) fun s => s.Acknowledged ∧ s.Traced Ok m where
  stable _ _ _ _ := trivial
  ended _ _ _ _ _ _ _ _ := trivial
  step s₀ s s' now message address hok _ h₀ h hstep :=
    ⟨acknowledged_preserved.step s₀ s s' now message address trivial trivial h₀.1 h.1 hstep,
      step_traced h₀.1 h₀.2 h.2 hok hstep⟩
  worker s now h := ⟨acknowledged_preserved.worker s now h.1, worker_traced h.2 now⟩

/-- In every run, what is logged goes back to the packets that have arrived. -/
theorem run_traced (thisPeer : Peer) (peers : List Peer) (disk : Disk) (profiles : ProfileManager)
    {moves : List Move}
    (hok : ∀ now message address, Move.arrive now message address ∈ moves → Ok message address) :
    ((new thisPeer peers disk profiles).run moves).shared.Acknowledged ∧
      ((new thisPeer peers disk profiles).run moves).shared.Traced Ok ⟨thisPeer, peers, []⟩ := by
  have hack : (new thisPeer peers disk profiles).Acknowledged :=
    ⟨rfl, by simp [new], by simp [new], by simp [new]⟩
  have htraced : (new thisPeer peers disk profiles).Traced Ok ⟨thisPeer, peers, []⟩ :=
    ⟨rfl, rfl, by simp [new], [], rfl, .nil, by simp⟩
  exact (run_tracked traced_preserved trivial ⟨hack, htraced⟩ (admits_of_mem _ hok)).holds

end Server

end Piupiu
