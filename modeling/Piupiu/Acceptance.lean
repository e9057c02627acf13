import Piupiu.DirectConnects
import Piupiu.Connect
import Piupiu.SessionViews

/-!
# When a CONNECT can be accepted

`BroadcastToSecondaries` reads the counter twice, for the slots of its container and
for the copies that it sends. When both readings agree, the client can be accepted
from every state that the servers may reach later on with nothing undefined on the way;
when the worker has sent a notification in between, the client is never accepted.
-/
namespace Piupiu

open Atomic Atomic.Prog Server Calls

namespace Server

/-- Each broadcast of the log was sent to all secondaries. -/
def AllSent (s : Server) : Prop := ∀ k < (broadcasts s.log).length,
  SentTo s.replicaManager.getSecondaryReplicas s.log k s.replicaManager.getSecondaryReplicas.length

theorem AllSent.extend {s s' : Server} (h : s.AllSent)
    (hpeers : s'.replicaManager.getSecondaryReplicas = s.replicaManager.getSecondaryReplicas)
    (hbroadcasts : broadcasts s'.log = broadcasts s.log) (hlog : s.log <+: s'.log) : s'.AllSent := by
  unfold AllSent
  rw [hpeers, hbroadcasts]
  exact fun k hk => (h k hk).mono hlog

theorem rely_broadcasts {s s' : Server} (h : WorkerRely s s') :
    broadcasts s'.log = broadcasts s.log := by
  obtain ⟨events, hlog, hevents⟩ := h.log
  rw [hlog, broadcasts_append, broadcasts_byWorker hevents, List.append_nil]

theorem rely_log {s s' : Server} (h : WorkerRely s s') : s.log <+: s'.log := by
  obtain ⟨events, hlog, -⟩ := h.log
  rw [hlog]
  exact List.prefix_append _ _

theorem AllSent.rely {s s' : Server} (h : s.AllSent) (hr : WorkerRely s s') : s'.AllSent :=
  h.extend (by rw [hr.replicas]) (rely_broadcasts hr) (rely_log hr)

variable {s₀ : Server} {now : UInt64} {message : Packet} {address : SocketAddress}

theorem step_log {s s' : Server} (h : Step s₀ now message address s s') : s.log <+: s'.log := by
  obtain ⟨events, hlog, -⟩ := step_events h
  rw [hlog]
  exact List.prefix_append _ _

theorem confirmBuffer_allSent {s : Server} (h : s.AllSent) (now seqn : UInt64) :
    (s.confirmBuffer now seqn).AllSent := by
  have hnone : broadcasts (confirmEvents now s.replicaManager.confirmationBuffer seqn) = [] := by
    refine List.filterMap_eq_nil_iff.mpr fun e hm => ?_
    obtain rfl | ⟨k, c, -, -, -, rfl⟩ := mem_confirmEvents hm <;> rfl
  rw [confirmBuffer_eq]
  refine h.extend rfl ?_ (List.prefix_append _ _)
  simp only [broadcasts_append, hnone, List.append_nil]

theorem confirmToPrimary_allSent {s : Server} (h : s.AllSent) (now seqn : UInt64) :
    (s.confirmToPrimary now seqn).AllSent := by
  unfold confirmToPrimary
  split <;> exact h.extend rfl (by simp [send, record, broadcasts, Event.broadcast?])
    (List.prefix_append _ _)

/-- A handler of another packet than CONNECT broadcasts nothing. -/
theorem step_allSent {s s' : Server} (hstep : Step s₀ now message address s s')
    (htype : message.type ≠ packetConnectCmd) (h : s.AllSent) : s'.AllSent := by
  have hlog := step_log hstep
  obtain ⟨hreplicas, events, he, hapart⟩ | ⟨_, _, _, hconnect, -⟩ | hconfirm := step_buffer hstep
  · refine h.extend (by rw [hreplicas]) ?_ hlog
    have hnone : broadcasts events = [] :=
      List.filterMap_eq_nil_iff.mpr fun e hm => (hapart e hm).2.2
    rw [he, broadcasts_append, hnone, List.append_nil]
  · exact absurd hconnect htype
  · rw [hconfirm]
    exact confirmBuffer_allSent h now message.seqn

/-- The copies that are still to be sent for the container at `k`. -/
theorem sendToPeers_allSent {lastSeqnTemp : UInt64} {k : Nat} (i : Nat) (rest : List Peer)
    {s : Server} (hrest : s.replicaManager.getSecondaryReplicas.drop i = rest)
    (hk : (broadcasts s.log).length = k + 1)
    (hold : ∀ k' < k, SentTo s.replicaManager.getSecondaryReplicas s.log k'
      s.replicaManager.getSecondaryReplicas.length)
    (hsent : SentTo s.replicaManager.getSecondaryReplicas s.log k i) :
    (sendToPeers message lastSeqnTemp k i rest).Safe WorkerRely (fun _ _ => True)
      (fun _ => AllSent) s := by
  induction rest generalizing i s with
  | nil =>
    intro t hr
    have hall : s.AllSent := by
      intro k' hk'
      by_cases hlast : k' < k
      · exact hold k' hlast
      · have he : k' = k := by omega
        subst he
        refine fun j peer hj hpeer => hsent j peer ?_ hpeer
        have hle := List.drop_eq_nil_iff.mp hrest
        omega
    exact hall.rely hr
  | cons peer rest ih =>
    refine safe_update_bind fun t hr => ⟨trivial, ?_⟩
    have hpeers : t.replicaManager.getSecondaryReplicas = s.replicaManager.getSecondaryReplicas :=
      congrArg _ hr.replicas
    have hlog := (rely_log hr).trans (List.prefix_append t.log [.sent peer.getSocketAddress
      { message with seqn := lastSeqnTemp + UInt64.ofNat i } (.forward k i)])
    refine ih (i + 1) ?_ ?_ (fun k' hk' => ?_) fun j peer' hj hpeer' => ?_
    · change t.replicaManager.getSecondaryReplicas.drop (i + 1) = rest
      rw [hpeers, ← List.tail_drop, hrest]
      rfl
    · simp only [send, record, broadcasts_append, rely_broadcasts hr, List.length_append, hk]
      rfl
    · change SentTo t.replicaManager.getSecondaryReplicas _ k'
        t.replicaManager.getSecondaryReplicas.length
      rw [hpeers]
      exact (hold k' hk').mono hlog
    · change t.replicaManager.getSecondaryReplicas[j]? = some peer' at hpeer'
      rw [hpeers] at hpeer'
      by_cases hlast : j = i
      · subst hlast
        rw [← List.head?_drop, hrest] at hpeer'
        cases hpeer'
        exact ⟨_, List.mem_append_right _ List.mem_cons_self⟩
      · exact hsent.mono hlog j peer' (by omega) hpeer'

/-- The container of a broadcast is at the position that the broadcast has in the log. -/
def Counted (s : Server) : Prop :=
  s.replicaManager.confirmationBuffer.length = (broadcasts s.log).length

theorem Counted.rely {s s' : Server} (h : s.Counted) (hr : WorkerRely s s') : s'.Counted := by
  unfold Counted
  rw [hr.replicas, rely_broadcasts hr]
  exact h

theorem broadcastToSecondaries_allSent {s : Server} (h : s.AllSent) (hcounted : s.Counted) :
    (broadcastToSecondaries message address).Safe WorkerRely (fun _ _ => True)
      (fun _ => AllSent) s := by
  intro s₁ hr₁
  refine ⟨trivial, fun s₂ hr₂ => ⟨trivial, fun s₃ hr₃ => ⟨trivial, fun s₄ hr₄ => ⟨trivial,
    fun s₅ hr₅ => ⟨trivial, fun s₆ hr₆ => ⟨trivial, fun s₇ hr₇ => ⟨trivial, ?_⟩⟩⟩⟩⟩⟩⟩
  have hrely : ∀ {t u : Server}, t.AllSent ∧ t.Counted → WorkerRely t u → u.AllSent ∧ u.Counted :=
    fun ht hr => ⟨ht.1.rely hr, ht.2.rely hr⟩
  have hincrement : ∀ {t : Server}, t.AllSent ∧ t.Counted →
      t.incrementSeqn.AllSent ∧ t.incrementSeqn.Counted := fun ht => ht
  have h₄ := hrely (hrely (hrely (hrely ⟨h, hcounted⟩ hr₁) hr₂) hr₃) hr₄
  have h₇ := hrely (hincrement (hrely (hincrement (hrely (hincrement h₄) hr₅)) hr₆)) hr₇
  have hreplicas : s₇.replicaManager = s₁.replicaManager :=
    ((((hr₇.replicas.trans hr₆.replicas).trans hr₅.replicas).trans hr₄.replicas).trans
      hr₃.replicas).trans hr₂.replicas
  have hsecondaries : s₁.replicaManager.getSecondaryReplicas =
      (s₇.pushContainer message address s₂.getLastSeqn
        s₃.getLastSeqn).1.replicaManager.getSecondaryReplicas := by
    rw [← hreplicas]
    rfl
  have hlog : (s₇.pushContainer message address s₂.getLastSeqn s₃.getLastSeqn).1.log =
      s₇.log ++ [.broadcast message address s₂.getLastSeqn s₃.getLastSeqn] := rfl
  change (sendToPeers message s₃.getLastSeqn s₇.replicaManager.confirmationBuffer.length 0
    s₁.replicaManager.getSecondaryReplicas).Safe WorkerRely (fun _ _ => True) (fun _ => AllSent)
      (s₇.pushContainer message address s₂.getLastSeqn s₃.getLastSeqn).1
  rw [hsecondaries]
  refine sendToPeers_allSent 0 _ rfl ?_ (fun k hk => ?_) fun j peer hj => absurd hj (by omega)
  · rw [hlog, broadcasts_append, List.length_append, ← h₇.2]
    rfl
  · have hold := h₇.1 k (by rw [← h₇.2]; exact hk)
    rw [hlog]
    exact hold.mono (List.prefix_append _ _)

/-- A handler leaves no broadcast half sent. -/
theorem messageHandler_allSent (h : s₀.AllSent) (hcounted : s₀.Counted) :
    (messageHandler now message address).Safe WorkerRely (fun _ _ => True)
      (fun _ => AllSent) s₀ := by
  by_cases htype : message.type = packetConnectCmd
  · have h₀ : At s₀ s₀.store (serving s₀.log) s₀ := ⟨rfl, rfl, rfl, rfl, rfl, Nat.le_refl _⟩
    unfold messageHandler
    refine safe_update_bind fun s₁ hr₁ => ⟨trivial, ?_⟩
    have h₁ : At s₀ s₀.store (some ⟨message, address, none⟩) (s₁.record (.started message address)) :=
      (h₀.rely hr₁).record (.started message address) rfl rfl
    have hlog₁ : s₀.log <+: (s₁.record (.started message address)).log :=
      (rely_log hr₁).trans (List.prefix_append _ _)
    have hrely : ∀ a b, WorkerRely a b → s₀.log <+: a.log → s₀.log <+: b.log :=
      fun a b hr ha => ha.trans (rely_log hr)
    have hstep : ∀ a b, Step s₀ now message address a b → s₀.log <+: a.log → s₀.log <+: b.log :=
      fun a b hab ha => ha.trans (step_log hab)
    rw [if_pos htype]
    unfold connectCmd
    refine Safe.bind WorkerRely.refl
      (((findProfile_safe h₁ htype).invariant hrely hstep hlog₁).mono (fun _ _ _ => trivial) ?_)
    rintro p t ⟨⟨ht, hp⟩, hlog⟩
    refine Safe.bind WorkerRely.refl (((admitUser_safe ht htype hp ?_).invariant hrely hstep
      hlog).mono (fun _ _ _ => trivial) ?_)
    · rw [Store.handle_connect htype, Store.connect, hp]
    · rintro _ t' ⟨⟨granted, ht'⟩, hlog'⟩
      have hall : t'.AllSent := h.extend (by rw [ht'.replicas]) ht'.broadcasts hlog'
      have hcounted' : t'.Counted := by
        unfold Counted
        rw [ht'.replicas, ht'.broadcasts]
        exact hcounted
      unfold replicate
      refine safe_read_bind fun t₁ hr => ⟨trivial, ?_⟩
      cases t₁.replicaManager.isPrimary with
      | true => exact broadcastToSecondaries_allSent (hall.rely hr) (hcounted'.rely hr)
      | false =>
        refine safe_read_bind fun t₂ hr₂ => ⟨trivial, ?_⟩
        have hall₂ := (hall.rely hr).rely hr₂
        cases t₂.replicaManager.isPrimary with
        | true =>
          refine safe_update fun t₃ hr₃ => ⟨trivial, fun u hr₄ => AllSent.rely ?_ hr₄⟩
          exact confirmBuffer_allSent (hall₂.rely hr₃) now message.seqn
        | false =>
          refine safe_update fun t₃ hr₃ => ⟨trivial, fun u hr₄ => AllSent.rely ?_ hr₄⟩
          exact confirmToPrimary_allSent (hall₂.rely hr₃) now message.seqn
  · exact ((messageHandler_safe s₀ now message address).invariant (fun _ _ hr ha => ha.rely hr)
      (fun _ _ hstep => step_allSent hstep htype) h).mono (fun _ _ _ => trivial) fun _ _ ht => ht.2

/-- Whenever no handler is running, all copies of all broadcasts have been sent. -/
theorem run_allSent (thisPeer : Peer) (peers : List Peer) (disk : Disk) (profiles : ProfileManager)
    {moves : List Move} (hidle : ((new thisPeer peers disk profiles).run moves).idle = true) :
    ((new thisPeer peers disk profiles).run moves).shared.AllSent := by
  have htracked : Config.Tracked WorkerRely (HandlerStep fun _ _ _ => True) AllSent Acknowledged
      ((new thisPeer peers disk profiles).run moves) := by
    clear hidle
    induction moves using List.reverseRecOn with
    | nil =>
      have hall : (new thisPeer peers disk profiles).AllSent := fun k hk => by cases hk
      exact Config.tracked_init hall (run_acknowledged thisPeer peers disk profiles [])
        fun t hr => hall.rely hr
    | append_singleton moves m ih =>
      rw [run_concat]
      cases m with
      | arrive now message address =>
        refine ih.start WorkerRely.refl fun _ hall hack => ?_
        exact ((messageHandler_safe _ now message address).and
          (messageHandler_allSent hall hack.length)).mono
            (fun a b hab => ⟨now, message, address, trivial, hab.1⟩) fun _ _ h => h.2
      | advance =>
        refine ih.advance WorkerRely.refl fun s₀ s s' _ hack₀ hack hstep => ?_
        obtain ⟨now, message, address, -, hstep⟩ := hstep
        exact acknowledged_preserved.step s₀ s s' now message address trivial trivial hack₀ hack hstep
      | worker now =>
        exact ih.interfere (fun _ _ _ => WorkerRely.trans) (worker_rely now _)
          (acknowledged_preserved.worker _ now)
  exact htracked.rest WorkerRely.refl hidle

/-- A secondary that handles a CONNECT sends its confirmation to the primary. -/
theorem handle_confirms {s : Server} {primary : Peer} (now : UInt64) {message : Packet}
    (address : SocketAddress) (htype : message.type = packetConnectCmd)
    (hsecondary : s.replicaManager.isPrimary = false)
    (hprimary : s.replicaManager.getPrimaryReplica = some primary) :
    .sent primary.getSocketAddress (makeConfirmStateChangeMessage now message.seqn) .confirmation ∈
      (s.handle now message address).log := by
  obtain ⟨p, -, he⟩ := handle_connect s now address htype
  rw [he]
  simp [replicated, hsecondary, confirmToPrimary, hprimary, send, record]

/-- A primary that handles a confirmation calls `Confirm` with its number. -/
theorem handle_confirmed {s : Server} (now : UInt64) {message : Packet} (address : SocketAddress)
    (htype : message.type = packetConfirmStateChange)
    (hprimary : s.replicaManager.isPrimary = true) :
    ∃ events, (s.handle now message address).log = s.log ++ events ∧
      .confirm message.seqn ∈ events := by
  have he : s.handle now message address =
      (s.record (.started message address)).confirmBuffer now message.seqn := by
    simp [handle, messageHandler, htype, confirmMessage, record, hprimary, packetConnectCmd,
      packetDisconnectCmd, packetFollowCmd, packetSendCmd, packetRequestUserInfo,
      packetConfirmStateChange]
  rw [he, confirmBuffer_eq]
  refine ⟨.started message address :: confirmEvents now s.replicaManager.confirmationBuffer
    message.seqn, by simp [record], ?_⟩
  simp [confirmEvents]

end Server

theorem Deployment.mem_nodes (n : Node) : n ∈ nodes := by
  cases n with
  | primary => exact List.mem_cons_self
  | secondary i => exact List.mem_cons_of_mem _ (List.mem_ofFn.mpr ⟨i, rfl⟩)

namespace Cluster

variable (d : Deployment)

theorem nodeAt_address (n : Node) : d.nodeAt (d.address n) = some n := by
  have hsome : (d.nodeAt (d.address n)).isSome := by
    rw [Deployment.nodeAt, List.find?_isSome]
    exact ⟨n, Deployment.mem_nodes n, by simp⟩
  obtain ⟨n', hn'⟩ := Option.isSome_iff_exists.mp hsome
  rw [hn', d.distinct n' n (nodeAt_some d hn')]

theorem run_append (c : Cluster) (moves more : List Move) :
    run d c (moves ++ more) = run d (run d c moves) more := List.foldl_append

/-- A server is left alone until its handler is done. -/
theorem run_advances (c : Cluster) (n : Node) (steps : Nat) :
    (run d c (advances n steps)).node n = Config.advance^[steps] (c.node n) ∧
      ∀ n' ≠ n, (run d c (advances n steps)).node n' = c.node n' := by
  induction steps generalizing c with
  | zero => exact ⟨rfl, fun _ _ => rfl⟩
  | succ steps ih =>
    have hmove : run d c (advances n (steps + 1)) =
        run d (c.set n (c.node n).advance) (advances n steps) := rfl
    obtain ⟨hself, hothers⟩ := ih (c.set n (c.node n).advance)
    rw [hmove, hself, set_self, Function.iterate_succ_apply]
    exact ⟨rfl, fun n' hn' => by rw [hothers n' hn', set_other _ _ hn']⟩

theorem finishes (c : Cluster) (n : Node) : ∃ steps,
    (run d c (advances n steps)).node n =
      ⟨((c.node n).running.exec (c.node n).shared).1, .done ()⟩ ∧
    ∀ n' ≠ n, (run d c (advances n steps)).node n' = c.node n' := by
  obtain ⟨steps, hsteps⟩ := Config.exec_eq_iterate (c.node n).running (c.node n).shared
  obtain ⟨hself, hothers⟩ := run_advances d c n steps
  exact ⟨steps, by rw [hself, ← hsteps], hothers⟩

/-- Clients send packets of the defined types only. -/
def Move.Known : Move → Prop
  | .client _ message _ _ => message.type ≤ packetConfirmStateChange
  | _ => True

/-- Neither a client nor a worker has a part in the move. -/
def Move.Quiet : Move → Prop
  | .deliver _ _ _ | .advance _ => True
  | _ => False

theorem Move.Quiet.known {mv : Move} (h : mv.Quiet) : mv.Known := by
  cases mv with
  | client => cases h
  | _ => trivial

theorem quiet_advances (n : Node) (steps : Nat) : ∀ mv ∈ advances n steps, mv.Quiet := by
  intro mv hm
  rw [List.eq_of_mem_replicate hm]
  trivial

theorem quiet_append {moves more : List Move} (h : ∀ mv ∈ moves, mv.Quiet)
    (h' : ∀ mv ∈ more, mv.Quiet) : ∀ mv ∈ moves ++ more, mv.Quiet :=
  fun mv hm => (List.mem_append.mp hm).elim (h mv) (h' mv)

/-- A packet that was sent to a server comes to it, and is handled with nothing in between. -/
theorem delivers {c : Cluster} {source n : Node} {message : Packet} {origin : Origin}
    (hidle : (c.node n).idle = true)
    (hsent : .sent (d.address n) message origin ∈ (c.node source).shared.log) (now : UInt64) :
    ∃ more, (∀ mv ∈ more, mv.Quiet) ∧ (run d c more).node n =
        ⟨(c.node n).shared.handle now message (d.address source), .done ()⟩ ∧
      ∀ n' ≠ n, (run d c more).node n' = c.node n' := by
  obtain ⟨k, hk⟩ := List.getElem?_of_mem hsent
  have hpart : localMove d c (.deliver now source k) =
      some (n, .arrive now message (d.address source)) := by
    simp only [localMove, hk, nodeAt_address, Option.map_some]
  have hmove : move d c (.deliver now source k) = c.set n ⟨(c.node n).shared,
      messageHandler now message (d.address source)⟩ := by
    simp only [move, hpart, Server.move, Config.start_of_idle hidle]
  obtain ⟨steps, hself, hothers⟩ := finishes d (move d c (.deliver now source k)) n
  refine ⟨.deliver now source k :: advances n steps,
    List.forall_mem_cons.mpr ⟨trivial, quiet_advances n steps⟩, ?_, fun n' hn' => ?_⟩
  · change (run d (move d c (.deliver now source k)) (advances n steps)).node n = _
    rw [hself, hmove, set_self]
    rfl
  · change (run d (move d c (.deliver now source k)) (advances n steps)).node n' = _
    rw [hothers n' hn', hmove, set_other _ _ hn']

section launched

variable (disk : Node → Disk) (profiles : Node → ProfileManager)

/-- Every server of a cluster does a run of its own. -/
theorem own_run (moves : List Move) (n : Node) : ∃ ms : List Server.Move,
    (run d (start d disk profiles) moves).node n =
      (Server.new (d.peer n) (d.peers n) (disk n) (profiles n)).run ms := by
  obtain ⟨ms, hrun, -⟩ := local_runs d (localMove d) (fun _ _ _ _ => True)
    (fun _ _ _ _ _ _ => trivial) (fun _ _ _ _ _ _ _ _ => .inl trivial) disk profiles moves n
  exact ⟨ms, hrun⟩

theorem run_log (moves more : List Move) (n : Node) :
    ((run d (start d disk profiles) moves).node n).shared.log <+:
      ((run d (start d disk profiles) (moves ++ more)).node n).shared.log := by
  induction more using List.reverseRecOn with
  | nil => rw [List.append_nil]
  | append_singleton more mv ih =>
    rw [← List.append_assoc, run_concat]
    exact ih.trans (act_log d (own_run d disk profiles (moves ++ more))
      (localMove d (run d (start d disk profiles) (moves ++ more)) mv) n)

variable {moves : List Move} {k : Nat} {b : Broadcast}

/-- The copy for a secondary has been sent once the primary is idle. -/
theorem copy_sent (hidle : ((run d (start d disk profiles) moves).node .primary).idle = true)
    (hb : (broadcasts ((run d (start d disk profiles) moves).node .primary).shared.log)[k]? = some b)
    (i : Fin 3) : b.message.type = packetConnectCmd ∧
      .sent (d.address (.secondary i)) { b.message with seqn := b.number i } (.forward k i) ∈
        ((run d (start d disk profiles) moves).node .primary).shared.log := by
  have htraced := (run_node d disk profiles moves .primary).2
  obtain ⟨ms, hrun⟩ := own_run d disk profiles moves .primary
  have hall : ((run d (start d disk profiles) moves).node .primary).shared.AllSent := by
    rw [hrun] at hidle ⊢
    exact run_allSent _ _ _ _ hidle
  have hpeers := htraced.secondaries.trans (secondaries_of_primary d)
  have hget : ((run d (start d disk profiles) moves).node
      .primary).shared.replicaManager.getSecondaryReplicas[i.val]? = some (d.peer (.secondary i)) := by
    rw [hpeers, List.getElem?_ofFn, dif_pos i.isLt]
  obtain ⟨message, hsent⟩ := hall k (List.getElem?_eq_some_iff.mp hb).1 i _
    (List.getElem?_eq_some_iff.mp hget).1 hget
  obtain ⟨b', peer, hb', htype, -, -, hcopy⟩ := htraced.justified _ hsent
  cases hb.symm.trans hb'
  rw [hcopy] at hsent
  exact ⟨htype, hsent⟩

/-- The secondary finishes what it is doing, handles a copy and confirms it. -/
theorem copy_confirmed {i : Fin 3} {message : Packet} {origin : Origin}
    (htype : message.type = packetConnectCmd)
    (hcopy : .sent (d.address (.secondary i)) message origin ∈
      ((run d (start d disk profiles) moves).node .primary).shared.log) :
    ∃ more, (∀ mv ∈ more, mv.Quiet) ∧
      (run d (start d disk profiles) (moves ++ more)).node .primary =
        (run d (start d disk profiles) moves).node .primary ∧
      .sent (d.address .primary) (makeConfirmStateChangeMessage 0 message.seqn) .confirmation ∈
        ((run d (start d disk profiles) (moves ++ more)).node (.secondary i)).shared.log := by
  have hne : Node.primary ≠ .secondary i := by simp
  obtain ⟨steps, hself, hothers⟩ := finishes d (run d (start d disk profiles) moves) (.secondary i)
  rw [← run_append] at hself hothers
  have htraced := (run_node d disk profiles (moves ++ advances (.secondary i) steps)
    (.secondary i)).2
  have hidle : ((run d (start d disk profiles) (moves ++ advances (.secondary i) steps)).node
      (.secondary i)).idle = true := by
    rw [hself]
    rfl
  rw [← hothers _ hne] at hcopy
  obtain ⟨more, hquiet, hself', hothers'⟩ := delivers d hidle hcopy 0
  rw [← run_append, List.append_assoc] at hself' hothers'
  refine ⟨advances (.secondary i) steps ++ more, quiet_append (quiet_advances _ steps) hquiet,
    by rw [hothers' _ hne, hothers _ hne], ?_⟩
  have hsecondary : ((run d (start d disk profiles) (moves ++ advances (.secondary i) steps)).node
      (.secondary i)).shared.replicaManager.isPrimary = false := by
    rw [htraced.isPrimary, Bool.eq_false_iff, ne_eq, replicas_isPrimary]
    simp
  rw [hself']
  exact handle_confirms 0 _ htype hsecondary (htraced.primary.trans (primary_of_secondary d i))

/-- From every state in which the primary is idle, a copy can come through and be
confirmed. -/
theorem confirmation_comes
    (hidle : ((run d (start d disk profiles) moves).node .primary).idle = true)
    (hb : (broadcasts ((run d (start d disk profiles) moves).node .primary).shared.log)[k]? = some b)
    (i : Fin 3) : ∃ more, (∀ mv ∈ more, mv.Quiet) ∧
      ((run d (start d disk profiles) (moves ++ more)).node .primary).idle = true ∧
      ConfirmedSince ((run d (start d disk profiles) (moves ++ more)).node .primary).shared.log k
        (b.number i) := by
  obtain ⟨htype, hcopy⟩ := copy_sent d disk profiles hidle hb i
  have hconnect : ({ b.message with seqn := b.number i } : Packet).type = packetConnectCmd := htype
  obtain ⟨more, hquiet, hprimary, hsent⟩ := copy_confirmed d disk profiles hconnect hcopy
  rw [← hprimary] at hidle hb
  have hnumber : .sent (d.address .primary) (makeConfirmStateChangeMessage 0 (b.number i))
      .confirmation ∈ ((run d (start d disk profiles) (moves ++ more)).node
        (.secondary i)).shared.log := hsent
  obtain ⟨more', hquiet', hself, -⟩ := delivers d hidle hnumber 0
  rw [← run_append, List.append_assoc] at hself
  have htraced := (run_node d disk profiles (moves ++ more) .primary).2
  have hconfirmation : (makeConfirmStateChangeMessage 0 (b.number i)).type =
      packetConfirmStateChange := rfl
  obtain ⟨events, hlog, hconfirm⟩ := handle_confirmed 0 (d.address (.secondary i)) hconfirmation
    (htraced.isPrimary.trans ((replicas_isPrimary d .primary).mpr rfl))
  refine ⟨more ++ more', quiet_append hquiet hquiet', by rw [hself]; rfl, ?_⟩
  have hk := (List.getElem?_eq_some_iff.mp hb).1
  rw [ConfirmedSince, hself, hlog, since_append hk]
  exact List.mem_append_right _ hconfirm

/-- Copies can come through one after another. -/
theorem confirmations_come
    (hidle : ((run d (start d disk profiles) moves).node .primary).idle = true)
    (hb : (broadcasts ((run d (start d disk profiles) moves).node .primary).shared.log)[k]? = some b)
    (l : List (Fin 3)) : ∃ more, (∀ mv ∈ more, mv.Quiet) ∧ ∀ i ∈ l,
      ConfirmedSince ((run d (start d disk profiles) (moves ++ more)).node .primary).shared.log k
        (b.number i) := by
  induction l generalizing moves with
  | nil => exact ⟨[], by simp, by simp⟩
  | cons i l ih =>
    obtain ⟨more, hquiet, hidle', hconfirmed⟩ := confirmation_comes d disk profiles hidle hb i
    obtain ⟨events, hlog⟩ := run_log d disk profiles moves more .primary
    have hk := (List.getElem?_eq_some_iff.mp hb).1
    have hb' : (broadcasts ((run d (start d disk profiles) (moves ++ more)).node
        .primary).shared.log)[k]? = some b := by
      rw [← hlog, broadcasts_append, List.getElem?_append_left hk, hb]
    obtain ⟨more', hquiet', hall⟩ := ih hidle' hb'
    rw [List.append_assoc] at hall
    refine ⟨more ++ more', quiet_append hquiet hquiet', fun j hj => ?_⟩
    obtain rfl | hj := List.mem_cons.mp hj
    · obtain ⟨events', hlog'⟩ := run_log d disk profiles (moves ++ more) more' .primary
      have hk' := (List.getElem?_eq_some_iff.mp hb').1
      rw [List.append_assoc] at hlog'
      rw [ConfirmedSince, ← hlog', since_append hk']
      exact List.mem_append_left _ hconfirmed
    · exact hall j hj

/-- A broadcast whose copies have all been confirmed since is accepted, at the host that
asked for it. -/
theorem accepted_of_confirmed (hequal : b.lastSeqn = b.lastSeqnTemp)
    (hb : (broadcasts ((run d (start d disk profiles) moves).node .primary).shared.log)[k]? = some b)
    (hall : ∀ i : Fin 3, ConfirmedSince
      ((run d (start d disk profiles) moves).node .primary).shared.log k (b.number i)) :
    ∃ message, .sent b.senderAddress message (.accept k) ∈
      ((run d (start d disk profiles) moves).node .primary).shared.log := by
  have hack := (run_node d disk profiles moves .primary).1
  have hk : k ∈ accepts ((run d (start d disk profiles) moves).node .primary).shared.log := by
    have hcalled : (ConfirmationBuffer.run (calls ((run d (start d disk profiles) moves).node
        .primary).shared.log)).called = accepts ((run d (start d disk profiles) moves).node
        .primary).shared.log := congrArg ConfirmationBuffer.History.called hack.history
    rw [← hcalled]
    refine (ConfirmationBuffer.called_iff (by decide) _ k).mpr ⟨_, run_calls_get hb, ?_⟩
    rw [isConfirmed_settled]
    intro j hj
    rw [hequal]
    exact hall ⟨j, hj⟩
  obtain ⟨address, message, hsent⟩ := mem_accepts.mp hk
  obtain ⟨b', granted, hb', rfl⟩ := accepted_broadcastAt hack hsent
  cases hb.symm.trans (broadcastAt_get hb')
  exact ⟨message, hsent⟩

/-- Both readings agree once all numbers of a broadcast have been confirmed: no other
copy has its first number. -/
theorem readings_agree {c : Cluster} (h : Explained d c)
    (hwrap : (c.node .primary).shared.lastSeqn < 2 ^ 64)
    (hb : (broadcasts (c.node .primary).shared.log)[k]? = some b)
    (hconfirm : .confirm (b.lastSeqn + UInt64.ofNat 0) ∈ (c.node .primary).shared.log) :
    b.lastSeqn = b.lastSeqnTemp := by
  obtain ⟨spans, hspans⟩ := (h .primary).spans
  obtain ⟨x, hx, hseqn, htemp⟩ := hspans.get hb
  obtain ⟨k', j, b', copy, hb', rfl, hnumber, -, -⟩ := executed_of_confirm h hconfirm
  obtain ⟨x', hx', -, htemp'⟩ := hspans.get hb'
  rw [hseqn, htemp'] at hnumber
  have hmem := List.mem_of_getElem? hx
  have he := hspans.number_eq (i := 0) hwrap hmem (List.mem_of_getElem? hx') (by decide) j.isLt hnumber
  obtain rfl := hspans.same_of_number hx hx' (by decide) j.isLt he
  cases hx.symm.trans hx'
  have hle := (hspans.bounded x hmem).1
  have hreadings : x.1 = x.2 := by omega
  rw [hseqn, htemp, hreadings]

/-- No server has met anything that the source leaves undefined. -/
def Faultless (c : Cluster) : Prop := ∀ n, faults (c.node n).shared.log = []

/-- The servers send each other packets of the defined types only. -/
theorem sent_known {c : Cluster} {Direct : Node → Packet → SocketAddress → Prop}
    (h : ∀ n, (c.node n).shared.Traced (Reached d Direct c n) (d.replicas n)) {n : Node}
    {address : SocketAddress} {message : Packet} {origin : Origin}
    (he : .sent address message origin ∈ (c.node n).shared.log) :
    message.type ≤ packetConfirmStateChange := by
  have hreason := justified_of_sent h he
  cases origin with
  | notification =>
    have htype : message.type = packetNotification := hreason
    rw [htype]
    decide
  | accept k =>
    have htype : message.type = packetAcceptConnCmd := hreason
    rw [htype]
    decide
  | forward k i =>
    obtain ⟨b, peer, -, htype, -, -, rfl⟩ := hreason
    change b.message.type ≤ packetConfirmStateChange
    rw [htype]
    decide
  | confirmation =>
    obtain ⟨-, primary, now, received, sender, -, -, rfl, -⟩ := hreason
    exact UInt16.le_refl packetConfirmStateChange

/-- A client has sent this packet. -/
def Said (moves : List Move) (_ : Node) (message : Packet) (_ : SocketAddress) : Prop :=
  ∃ now sender command, .client now message sender command ∈ moves

theorem run_said (moves : List Move) (n : Node) :
    ((run d (start d disk profiles) moves).node n).shared.Traced
      (Reached d (Said moves) (run d (start d disk profiles) moves) n) (d.replicas n) := by
  refine (local_traced d (localMove d) Said (fun _ _ _ _ _ h => ?_) (fun _ _ _ _ _ _ _ h => ?_)
    disk profiles moves n).2
  · obtain ⟨now, sender, command, hm⟩ := h
    exact ⟨now, sender, command, List.mem_append_left _ hm⟩
  · obtain ⟨command, -, rfl⟩ | hsent := localMove_arrive d h
    · exact .inl ⟨_, _, command, List.mem_append_right _ List.mem_cons_self⟩
    · exact .inr hsent

/-- Without profiles at the start, and with defined types only, what a server may meet is
a notification that is too long. -/
theorem run_defined {moves : List Move} (hknown : ∀ mv ∈ moves, mv.Known) (n : Node) {f : Fault}
    (hf : .fault f ∈ ((run d (start d disk fun _ => ⟨[]⟩) moves).node n).shared.log) :
    f = .payloadOverflow := by
  have htraced := run_said d disk (fun _ => ⟨[]⟩) moves
  have hreason := (htraced n).justified _ hf
  obtain ⟨ms, hrun⟩ := own_run d disk (fun _ => ⟨[]⟩) moves n
  have hhealthy := (run_healthy (d.peer n) (d.peers n) (disk n) ms).holds
  rw [← hrun] at hhealthy
  obtain rfl | ⟨rfl, -⟩ | ⟨rfl, -⟩ := hhealthy.faults f hf
  · obtain ⟨hnot, hnone⟩ := hreason
    cases n with
    | primary =>
      rw [(replicas_isPrimary d .primary).mpr rfl] at hnot
      cases hnot
    | secondary i =>
      rw [primary_of_secondary] at hnone
      cases hnone
  · rfl
  · obtain ⟨message, sender, hreached, htype⟩ := hreason
    have hle : message.type ≤ packetConfirmStateChange := by
      obtain ⟨now, sender', command, hm⟩ | ⟨source, origin, hsent, -⟩ := hreached
      · exact hknown _ hm
      · exact sent_known d htraced hsent
    exact absurd htype (UInt16.not_lt.mpr hle)

/-- A move without clients and workers is one of a handler. -/
theorem quiet_log (moves : List Move) {mv : Move} (hquiet : mv.Quiet) (n : Node) :
    ∃ events, ((run d (start d disk fun _ => ⟨[]⟩) (moves ++ [mv])).node n).shared.log =
        ((run d (start d disk fun _ => ⟨[]⟩) moves).node n).shared.log ++ events ∧
      ∀ e ∈ events, e.byHandler = true := by
  obtain ⟨ms, hrun⟩ := own_run d disk (fun _ => ⟨[]⟩) moves n
  rw [run_concat]
  generalize run d (start d disk fun _ => ⟨[]⟩) moves = c at hrun ⊢
  change ∃ events, ((c.act (localMove d c mv)).node n).shared.log = _ ∧ _
  obtain he | ⟨m, hm, he⟩ := act_cases c (localMove d c mv) n <;> rw [he]
  · exact ⟨[], by simp, by simp⟩
  · rw [hrun]
    obtain hsame | ⟨s₀, -, -, now, message, address, -, hstep⟩ | ⟨now, rfl, -⟩ :=
      move_cases (run_healthy (d.peer n) (d.peers n) (disk n) ms) m
    · rw [hsame]
      exact ⟨[], by simp, by simp⟩
    · obtain ⟨events, hlog, -, hadds, -⟩ := step_events hstep
      exact ⟨events, hlog, fun e hm => (hadds e hm).byHandler⟩
    · rw [localMove_worker d hm] at hquiet
      cases hquiet

/-- Left to themselves, the servers meet nothing undefined. -/
theorem quiet_faultless {moves more : List Move} (hknown : ∀ mv ∈ moves, mv.Known)
    (hquiet : ∀ mv ∈ more, mv.Quiet)
    (h : Faultless (run d (start d disk fun _ => ⟨[]⟩) moves)) :
    Faultless (run d (start d disk fun _ => ⟨[]⟩) (moves ++ more)) := by
  induction more using List.reverseRecOn with
  | nil => rwa [List.append_nil]
  | append_singleton more mv ih =>
    have ih := ih fun mv hm => hquiet mv (List.mem_append_left _ hm)
    intro n
    refine List.eq_nil_iff_forall_not_mem.mpr fun f hf => ?_
    have hf := mem_faults.mp hf
    have hoverflow := run_defined d disk (fun mv hm => (List.mem_append.mp hm).elim (hknown mv)
      fun hm => (hquiet mv hm).known) n hf
    obtain ⟨events, hlog, hevents⟩ := quiet_log d disk (moves ++ more)
      (hquiet mv (List.mem_append_right _ List.mem_cons_self)) n
    rw [← List.append_assoc, hlog] at hf
    obtain hf | hf := List.mem_append.mp hf
    · exact absurd (mem_faults.mpr hf) (by rw [ih n]; exact List.not_mem_nil)
    · rw [hoverflow] at hf
      cases hevents _ hf

/-- When both readings of the counter agree for a CONNECT, its client can be accepted
from every state that the servers reach with nothing undefined on the way, whatever they
are doing, and without clients or workers; when they differ, it is never accepted. -/
theorem acceptable_iff_readings_agree (moves : List Move)
    (hb : (broadcasts ((run d (start d disk profiles) moves).node .primary).shared.log)[k]? = some b) :
    (b.lastSeqn = b.lastSeqnTemp → (∀ n, profiles n = ⟨[]⟩) → (∀ mv ∈ moves, mv.Known) →
      Faultless (run d (start d disk profiles) moves) →
      ∃ more, (∀ mv ∈ more, mv.Quiet) ∧
        Faultless (run d (start d disk profiles) (moves ++ more)) ∧
        ∃ message, .sent b.senderAddress message (.accept k) ∈
          ((run d (start d disk profiles) (moves ++ more)).node .primary).shared.log) ∧
    (b.lastSeqn ≠ b.lastSeqnTemp → ∀ more,
      ((run d (start d disk profiles) (moves ++ more)).node .primary).shared.lastSeqn < 2 ^ 64 →
      ∀ host message, .sent host message (.accept k) ∉
        ((run d (start d disk profiles) (moves ++ more)).node .primary).shared.log) := by
  have hkept : ∀ more, (broadcasts ((run d (start d disk profiles) (moves ++ more)).node
      .primary).shared.log)[k]? = some b := by
    intro more
    obtain ⟨events, hlog⟩ := run_log d disk profiles moves more .primary
    have hk := (List.getElem?_eq_some_iff.mp hb).1
    rw [← hlog, broadcasts_append, List.getElem?_append_left hk, hb]
  constructor
  · intro hequal hprofiles hknown hfaultless
    obtain rfl : profiles = fun _ => ⟨[]⟩ := funext hprofiles
    obtain ⟨steps, hself, -⟩ := finishes d (run d (start d disk fun _ => ⟨[]⟩) moves) .primary
    rw [← run_append] at hself
    have hidle : ((run d (start d disk fun _ => ⟨[]⟩) (moves ++ advances .primary steps)).node
        .primary).idle = true := by
      rw [hself]
      rfl
    obtain ⟨more, hquiet, hall⟩ := confirmations_come d disk _ hidle (hkept _) (List.finRange 3)
    rw [List.append_assoc] at hall
    obtain ⟨message, hsent⟩ := accepted_of_confirmed d disk _ hequal (hkept _)
      fun i => hall i (List.mem_finRange i)
    have hquiet' := quiet_append (quiet_advances .primary steps) hquiet
    exact ⟨_, hquiet', quiet_faultless d disk hknown hquiet' hfaultless, message, hsent⟩
  · intro hdiffer more hwrap host message hsent
    have hack := (run_node d disk profiles (moves ++ more) .primary).1
    have hexplained : Explained d (run d (start d disk profiles) (moves ++ more)) :=
      fun n => (run_node d disk profiles (moves ++ more) n).2
    obtain ⟨b', granted, hb', -⟩ := accepted_broadcastAt hack hsent
    cases (hkept more).symm.trans (broadcastAt_get hb')
    have hconfirm := confirm_of_accepted hack hb' (mem_accepts.mpr ⟨_, _, hsent⟩) 0
    exact hdiffer (readings_agree d hexplained hwrap (hkept more) hconfirm)

end launched

/-- A client has sent its CONNECT, and the primary has sent the copies. -/
def connecting : List Move :=
  .client 0 (clientPacket packetConnectCmd 0 [97]) ⟨[], 9⟩ OpenCluster.connect_ne_confirm ::
    advances .primary 20

/-- The CONNECT is accepted in the end: the worker did nothing in between. -/
theorem acceptable_iff_readings_agree_launched : ∃ more, (∀ mv ∈ more, mv.Quiet) ∧
    Faultless (run launched (start launched (fun _ => ⟨true, none⟩) fun _ => ⟨[]⟩)
      (connecting ++ more)) ∧
    ∃ message, .sent ⟨[], 9⟩ message (.accept 0) ∈
      ((run launched (start launched (fun _ => ⟨true, none⟩) fun _ => ⟨[]⟩)
        (connecting ++ more)).node .primary).shared.log := by
  have hb : (broadcasts ((run launched (start launched (fun _ => ⟨true, none⟩) fun _ => ⟨[]⟩)
      connecting).node .primary).shared.log)[0]? =
      some ⟨clientPacket packetConnectCmd 0 [97], ⟨[], 9⟩, 0, 0⟩ := by decide +kernel
  refine (acceptable_iff_readings_agree launched _ _ connecting hb).1 rfl (fun _ => rfl) ?_ ?_
  · refine List.forall_mem_cons.mpr ⟨?_, fun mv hm => (quiet_advances _ _ mv hm).known⟩
    show packetConnectCmd ≤ packetConfirmStateChange
    decide
  · rintro (_ | i)
    · decide +kernel
    · revert i
      decide +kernel

end Cluster

end Piupiu
