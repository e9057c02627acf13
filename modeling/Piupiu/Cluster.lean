import Piupiu.Provenance

/-!
# One primary and three secondaries

The four servers run side by side and exchange the packets that their logs show as
sent. The network delivers any packet that was ever sent, at any time and any
number of times, or never: so it loses, repeats, delays and reorders packets.
Clients talk to the primary only, and send it no confirmations.
-/
namespace Piupiu

open Atomic Server

inductive Node where
  | primary
  | secondary (i : Fin 3)
  deriving DecidableEq, Repr

/-- The peers of a launch, which have addresses of their own. -/
structure Deployment where
  peer : Node → Peer
  primary : ∀ n, (peer n).primary = true ↔ n = .primary
  distinct : ∀ n n', (peer n).getSocketAddress = (peer n').getSocketAddress → n = n'

namespace Deployment

variable (d : Deployment)

def address (n : Node) : SocketAddress := (d.peer n).getSocketAddress

def nodes : List Node := .primary :: List.ofFn .secondary

/-- The peers a server is launched with: all of them but itself. -/
def peers (n : Node) : List Peer := (nodes.filter fun n' => n' ≠ n).map d.peer

/-- The server that is bound to an address. -/
def nodeAt (address : SocketAddress) : Option Node := nodes.find? fun n => d.address n = address

/-- What a server is launched with. -/
def replicas (n : Node) : ReplicaManager := ⟨d.peer n, d.peers n, []⟩

end Deployment

/-- Each server with what it is doing. -/
structure Cluster where
  primary : Config Server
  secondary : Vector (Config Server) 3

namespace Cluster

theorem secondary_lt (i : Fin 3) : i.val < 3 := i.isLt

def node (c : Cluster) : Node → Config Server
  | .primary => c.primary
  | .secondary i => c.secondary.get i

def set (c : Cluster) (n : Node) (s : Config Server) : Cluster :=
  match n with
  | .primary => { c with primary := s }
  | .secondary i => { c with secondary := c.secondary.set i s (secondary_lt i) }

@[simp] theorem set_self (c : Cluster) (n : Node) (s : Config Server) : (c.set n s).node n = s := by
  cases n with
  | primary => rfl
  | secondary i => exact Vector.getElem_set_self (secondary_lt i)

@[simp] theorem set_other (c : Cluster) {n n' : Node} (s : Config Server) (h : n' ≠ n) :
    (c.set n s).node n' = c.node n' := by
  cases n with
  | primary =>
    cases n' with
    | primary => exact absurd rfl h
    | secondary i => rfl
  | secondary i =>
    cases n' with
    | primary => rfl
    | secondary j =>
      have hij : i.val ≠ j.val := fun he => h (by rw [Fin.ext he])
      exact Vector.getElem_set_ne (secondary_lt i) (secondary_lt j) hij

/-- A packet of a client comes, a packet that was sent comes, a handler performs an
action, or a worker does an iteration. -/
inductive Move where
  | client (now : UInt64) (message : Packet) (address : SocketAddress)
      (command : message.type ≠ packetConfirmStateChange)
  | deliver (now : UInt64) (source : Node) (k : Nat)
  | advance (n : Node)
  | worker (n : Node) (now : UInt64)

variable (d : Deployment)

/-- The server that a move happens on, and its part of the move. -/
def localMove (c : Cluster) : Move → Option (Node × Server.Move)
  | .client now message address _ => some (.primary, .arrive now message address)
  | .deliver now source k =>
    match (c.node source).shared.log[k]? with
    | some (.sent address message _) =>
      (d.nodeAt address).map fun n => (n, .arrive now message (d.address source))
    | _ => none
  | .advance n => some (n, .advance)
  | .worker n now => some (n, .worker now)

def move (c : Cluster) (mv : Move) : Cluster :=
  match localMove d c mv with
  | some (n, m) => c.set n (Server.move (c.node n) m)
  | none => c

def launch (disk : Node → Disk) (profiles : Node → ProfileManager) (n : Node) : Config Server :=
  ⟨Server.new (d.peer n) (d.peers n) (disk n) (profiles n), .done ()⟩

/-- The servers as they start, each with its own file and profiles. -/
def start (disk : Node → Disk) (profiles : Node → ProfileManager) : Cluster :=
  ⟨launch d disk profiles .primary, .ofFn fun i => launch d disk profiles (.secondary i)⟩

theorem start_node (disk : Node → Disk) (profiles : Node → ProfileManager) (n : Node) :
    (start d disk profiles).node n = launch d disk profiles n := by
  cases n <;> simp [start, node]

def run (c : Cluster) (moves : List Move) : Cluster := moves.foldl (move d) c

theorem run_concat (c : Cluster) (moves : List Move) (mv : Move) :
    run d c (moves ++ [mv]) = move d (run d c moves) mv := by
  simp [run]

/-- Where the packets come from that a server has received. -/
def Received (c : Cluster) (n : Node) (message : Packet) (sender : SocketAddress) : Prop :=
  (n = .primary ∧ message.type ≠ packetConfirmStateChange) ∨
    ∃ source origin, .sent (d.address n) message origin ∈ (c.node source).shared.log ∧
      sender = d.address source

theorem nodeAt_some {address : SocketAddress} {n : Node} (h : d.nodeAt address = some n) :
    d.address n = address := by
  simpa using List.find?_some h

/-- Clients sent the packet to the server, or another server did. -/
def Reached (Direct : Node → Packet → SocketAddress → Prop) (c : Cluster) (n : Node)
    (message : Packet) (sender : SocketAddress) : Prop :=
  Direct n message sender ∨
    ∃ source origin, .sent (d.address n) message origin ∈ (c.node source).shared.log ∧
      sender = d.address source

/-- One server does its part of a move. -/
def act (c : Cluster) : Option (Node × Server.Move) → Cluster
  | some (n, m) => c.set n (Server.move (c.node n) m)
  | none => c

theorem act_cases (c : Cluster) (part : Option (Node × Server.Move)) (n : Node) :
    (c.act part).node n = c.node n ∨
      ∃ m, part = some (n, m) ∧ (c.act part).node n = Server.move (c.node n) m := by
  cases part with
  | none => exact .inl rfl
  | some e =>
    obtain ⟨n', m⟩ := e
    by_cases hn : n = n'
    · subst hn
      exact .inr ⟨m, rfl, set_self _ _ _⟩
    · exact .inl (set_other _ _ hn)

theorem reached_mono {Direct Direct' : Node → Packet → SocketAddress → Prop} {c c' : Cluster}
    {n : Node} {message : Packet} {sender : SocketAddress}
    (hdirect : Direct n message sender → Direct' n message sender)
    (hlog : ∀ n, (c.node n).shared.log <+: (c'.node n).shared.log)
    (h : Reached d Direct c n message sender) : Reached d Direct' c' n message sender := by
  refine h.imp hdirect ?_
  rintro ⟨source, origin, hsent, hsender⟩
  exact ⟨source, origin, (hlog source).subset hsent, hsender⟩

/-- The packet of a client comes to the primary, and one that was sent to the server that
has its address. -/
theorem localMove_arrive {c : Cluster} {mv : Move} {n : Node} {now : UInt64} {message : Packet}
    {sender : SocketAddress} (h : localMove d c mv = some (n, .arrive now message sender)) :
    (∃ command, n = .primary ∧ mv = .client now message sender command) ∨
      ∃ source origin, .sent (d.address n) message origin ∈ (c.node source).shared.log ∧
        sender = d.address source := by
  cases mv with
  | client now' message' address' command =>
    cases h
    exact .inl ⟨command, rfl, rfl⟩
  | deliver now' source k =>
    simp only [localMove] at h
    split at h
    · next address message' origin hk =>
      obtain ⟨n', hn', he⟩ := Option.map_eq_some_iff.mp h
      cases he
      refine .inr ⟨source, origin, ?_, rfl⟩
      rw [nodeAt_some d hn']
      exact List.mem_of_getElem? hk
    · cases h
  | advance | worker => cases h

theorem localMove_worker {c : Cluster} {mv : Move} {n : Node} {now : UInt64}
    (h : localMove d c mv = some (n, .worker now)) : mv = .worker n now := by
  cases mv with
  | deliver now' source k =>
    simp only [localMove] at h
    split at h
    · obtain ⟨n', -, he⟩ := Option.map_eq_some_iff.mp h
      cases he
    · cases h
  | client | advance => cases h
  | worker =>
    cases h
    rfl

/-- Every move adds to the logs. -/
theorem act_log {c : Cluster} {disk : Node → Disk} {profiles : Node → ProfileManager}
    (h : ∀ n, ∃ ms : List Server.Move,
      c.node n = (Server.new (d.peer n) (d.peers n) (disk n) (profiles n)).run ms)
    (part : Option (Node × Server.Move)) (n : Node) :
    (c.node n).shared.log <+: ((c.act part).node n).shared.log := by
  obtain he | ⟨m, -, he⟩ := act_cases c part n
  · rw [he]
  · obtain ⟨ms, hrun⟩ := h n
    rw [he, hrun]
    exact move_log_mono _ ms m

section parts

variable {Mv : Type} (part : Cluster → Mv → Option (Node × Server.Move))
  (Direct : List Mv → Node → Packet → SocketAddress → Prop)

/-- Each server of a cluster does a run of its own. -/
theorem local_runs
    (hmono : ∀ moves mv n message sender, Direct moves n message sender →
      Direct (moves ++ [mv]) n message sender)
    (hpart : ∀ moves mv c n now message sender, part c mv = some (n, .arrive now message sender) →
      Reached d (Direct (moves ++ [mv])) c n message sender)
    (disk : Node → Disk) (profiles : Node → ProfileManager) (moves : List Mv) (n : Node) :
    ∃ ms : List Server.Move,
      (moves.foldl (fun c mv => c.act (part c mv)) (start d disk profiles)).node n =
        (Server.new (d.peer n) (d.peers n) (disk n) (profiles n)).run ms ∧
      ∀ now message sender, .arrive now message sender ∈ ms → Reached d (Direct moves)
        (moves.foldl (fun c mv => c.act (part c mv)) (start d disk profiles)) n message sender := by
  induction moves using List.reverseRecOn generalizing n with
  | nil => exact ⟨[], start_node d disk profiles n, fun _ _ _ h => by cases h⟩
  | append_singleton moves mv ih =>
    rw [List.foldl_append, List.foldl_cons, List.foldl_nil]
    generalize moves.foldl (fun c mv => c.act (part c mv)) (start d disk profiles) = c at ih
    have hlog := act_log d (fun n => (ih n).imp fun ms h => h.1) (part c mv)
    obtain ⟨ms, hrun, hreached⟩ := ih n
    have hold : ∀ now message sender, .arrive now message sender ∈ ms →
        Reached d (Direct (moves ++ [mv])) (c.act (part c mv)) n message sender :=
      fun now message sender ha =>
        reached_mono d (hmono moves mv n message sender) hlog (hreached now message sender ha)
    obtain he | ⟨m, hm, he⟩ := act_cases c (part c mv) n
    · exact ⟨ms, by rw [he, hrun], hold⟩
    · refine ⟨ms ++ [m], by rw [he, hrun, Server.run_concat], fun now message sender ha => ?_⟩
      obtain ha | ha := List.mem_append.mp ha
      · exact hold now message sender ha
      · rw [← List.mem_singleton.mp ha] at hm
        exact reached_mono d id hlog (hpart moves mv c n now message sender hm)

/-- What is known of each server goes back to the packets that have reached it. -/
theorem local_traced
    (hmono : ∀ moves mv n message sender, Direct moves n message sender →
      Direct (moves ++ [mv]) n message sender)
    (hpart : ∀ moves mv c n now message sender, part c mv = some (n, .arrive now message sender) →
      Reached d (Direct (moves ++ [mv])) c n message sender)
    (disk : Node → Disk) (profiles : Node → ProfileManager) (moves : List Mv) (n : Node) :
    ((moves.foldl (fun c mv => c.act (part c mv)) (start d disk profiles)).node
      n).shared.Acknowledged ∧
    ((moves.foldl (fun c mv => c.act (part c mv)) (start d disk profiles)).node n).shared.Traced
      (Reached d (Direct moves)
        (moves.foldl (fun c mv => c.act (part c mv)) (start d disk profiles)) n) (d.replicas n) := by
  obtain ⟨ms, hrun, hreached⟩ := local_runs d part Direct hmono hpart disk profiles moves n
  have h := run_traced (d.peer n) (d.peers n) (disk n) (profiles n) hreached
  rwa [← hrun] at h

end parts

/-- What is known of each server goes back to the packets it has received. -/
theorem run_node (disk : Node → Disk) (profiles : Node → ProfileManager) (moves : List Move)
    (n : Node) : ((run d (start d disk profiles) moves).node n).shared.Acknowledged ∧
      ((run d (start d disk profiles) moves).node n).shared.Traced
        (Received d (run d (start d disk profiles) moves) n) (d.replicas n) := by
  have hpart : ∀ (moves : List Move) mv c n now message sender,
      localMove d c mv = some (n, .arrive now message sender) →
        Reached d (fun n message _ => n = .primary ∧ message.type ≠ packetConfirmStateChange) c n
          message sender := by
    intro moves mv c n now message sender h
    obtain ⟨command, hn, -⟩ | hsent := localMove_arrive d h
    · exact .inl ⟨hn, command⟩
    · exact .inr hsent
  exact local_traced d (localMove d) (fun _ n message _ =>
    n = .primary ∧ message.type ≠ packetConfirmStateChange) (fun _ _ _ _ _ h => h) hpart disk
    profiles moves n

theorem replicas_isPrimary (n : Node) : (d.replicas n).isPrimary = true ↔ n = .primary :=
  d.primary n

theorem secondaries_of_primary : (d.replicas .primary).getSecondaryReplicas =
    List.ofFn fun i => d.peer (.secondary i) := by
  have hsecondary : ∀ i, (d.peer (.secondary i)).primary = false := by
    intro i
    rw [Bool.eq_false_iff, ne_eq, d.primary]
    simp
  have hpeers : d.peers .primary =
      [d.peer (.secondary 0), d.peer (.secondary 1), d.peer (.secondary 2)] := rfl
  simp [Deployment.replicas, ReplicaManager.getSecondaryReplicas, hpeers, hsecondary, List.ofFn_succ]

theorem primary_of_secondary (i : Fin 3) :
    (d.replicas (.secondary i)).getPrimaryReplica = some (d.peer .primary) := by
  have hprimary : (d.peer .primary).primary = true := (d.primary _).mpr rfl
  have hself : (d.peer (.secondary i)).primary = false := by
    rw [Bool.eq_false_iff, ne_eq, d.primary]
    simp
  simp [Deployment.replicas, ReplicaManager.getPrimaryReplica, ReplicaManager.isPrimary, hself,
    Deployment.peers, Deployment.nodes, hprimary]

variable {d} {c : Cluster}

/-- A cluster in which every packet sent has a reason. -/
def Explained (d : Deployment) (c : Cluster) : Prop :=
  ∀ n, (c.node n).shared.Traced (Received d c n) (d.replicas n)

section reached

variable {Direct : Node → Packet → SocketAddress → Prop}

theorem justified_of_sent
    (h : ∀ n, (c.node n).shared.Traced (Reached d Direct c n) (d.replicas n)) {n : Node} {e : Event}
    (he : e ∈ (c.node n).shared.log) :
    Justified (Reached d Direct c n) (d.replicas n) (c.node n).shared.log e := (h n).justified e he

/-- Only the primary broadcasts. -/
theorem broadcasts_secondary
    (h : ∀ n, (c.node n).shared.Traced (Reached d Direct c n) (d.replicas n)) (i : Fin 3) :
    broadcasts (c.node (.secondary i)).shared.log = [] := by
  refine List.filterMap_eq_nil_iff.mpr fun e he => ?_
  cases e with
  | broadcast =>
    have hprimary := (replicas_isPrimary d _).mp (justified_of_sent h he)
    cases hprimary
  | _ => rfl

/-- A CONNECT that has reached a secondary came straight from a client or is a copy
that was made for it. -/
theorem reached_connect
    (h : ∀ n, (c.node n).shared.Traced (Reached d Direct c n) (d.replicas n)) {i : Fin 3}
    {message : Packet} {sender : SocketAddress}
    (hr : Reached d Direct c (.secondary i) message sender)
    (htype : message.type = packetConnectCmd) : Direct (.secondary i) message sender ∨
      sender = d.address .primary ∧
      ∃ (k : Nat) (b : Broadcast), (broadcasts (c.node .primary).shared.log)[k]? = some b ∧
        message = { b.message with seqn := b.lastSeqnTemp + UInt64.ofNat i } ∧
        .sent (d.address (.secondary i)) message (.forward k i) ∈ (c.node .primary).shared.log := by
  refine hr.imp_right ?_
  rintro ⟨source, origin, hsent, hsender⟩
  have hreason := justified_of_sent h hsent
  cases origin with
  | notification => exact absurd (htype.symm.trans hreason) (by decide)
  | accept k => exact absurd (htype.symm.trans hreason) (by decide)
  | confirmation =>
    obtain ⟨-, primary, now, received, sender', -, -, hm, -⟩ := hreason
    have hconfirm : packetConfirmStateChange = packetConnectCmd := by
      rw [← htype, hm]
      rfl
    exact absurd hconfirm (by decide)
  | forward k i' =>
    obtain ⟨b, peer, hb, -, hpeer, haddress, hm⟩ := hreason
    cases source with
    | secondary j =>
      rw [broadcasts_secondary h j] at hb
      cases hb
    | primary =>
      rw [secondaries_of_primary, List.getElem?_ofFn] at hpeer
      split at hpeer
      · next hi' =>
        cases hpeer
        have hn := d.distinct _ _ haddress
        cases hn
        exact ⟨hsender, k, b, hb, hm, hsent⟩
      · cases hpeer

/-- Confirmations are sent by secondaries to the primary. -/
theorem sent_confirmation
    (h : ∀ n, (c.node n).shared.Traced (Reached d Direct c n) (d.replicas n)) {n : Node}
    {address : SocketAddress} {message : Packet} {origin : Origin}
    (he : .sent address message origin ∈ (c.node n).shared.log)
    (htype : message.type = packetConfirmStateChange) :
    ∃ i, n = .secondary i ∧ address = d.address .primary ∧ ∃ received sender,
      message.seqn = received.seqn ∧ Reached d Direct c n received sender ∧
      (received.type = packetConfirmStateChange ∨
        Executed (c.node n).shared.log received sender) := by
  have hreason := justified_of_sent h he
  cases origin with
  | notification => exact absurd (htype.symm.trans hreason) (by decide)
  | accept k => exact absurd (htype.symm.trans hreason) (by decide)
  | forward k i =>
    obtain ⟨b, peer, -, hb, -, -, hm⟩ := hreason
    rw [hm] at htype
    exact absurd (htype.symm.trans hb) (by decide)
  | confirmation =>
    obtain ⟨hnot, primary, now, received, sender, hp, ha, hm, hreached, hwhy⟩ := hreason
    cases n with
    | primary =>
      rw [(replicas_isPrimary d _).mpr rfl] at hnot
      cases hnot
    | secondary i =>
      rw [primary_of_secondary] at hp
      cases hp
      exact ⟨i, rfl, ha, received, sender, by rw [hm]; rfl, hreached, hwhy⟩

/-- The number is that of a copy that was forwarded for the broadcast at `k`, and the
secondary it was for has executed its handler. -/
def CopyExecuted (d : Deployment) (c : Cluster) (k : Nat) (n : UInt64) : Prop :=
  ∃ (i : Fin 3) (b : Broadcast) (copy : Packet),
    (broadcasts (c.node .primary).shared.log)[k]? = some b ∧
    copy = { b.message with seqn := b.lastSeqnTemp + UInt64.ofNat i } ∧ n = copy.seqn ∧
    .sent (d.address (.secondary i)) copy (.forward k i) ∈ (c.node .primary).shared.log ∧
    Executed (c.node (.secondary i)).shared.log copy (d.address .primary)

/-- A number that was confirmed to the primary is that of an executed copy or of a
CONNECT that a client sent straight to a secondary. -/
theorem confirmed_number
    (h : ∀ n, (c.node n).shared.Traced (Reached d Direct c n) (d.replicas n))
    (hcommand : ∀ n message sender, Direct n message sender →
      message.type ≠ packetConfirmStateChange) {n : UInt64}
    (hn : .confirm n ∈ (c.node .primary).shared.log) : (∃ k, CopyExecuted d c k n) ∨
      ∃ (i : Fin 3) (message : Packet) (sender : SocketAddress),
        Direct (.secondary i) message sender ∧ message.type = packetConnectCmd ∧
        n = message.seqn := by
  obtain ⟨message, sender, hreached, htype, rfl⟩ := justified_of_sent h hn
  obtain ⟨source, origin, hsent, -⟩ := hreached.resolve_left fun hd => hcommand _ _ _ hd htype
  obtain ⟨i, rfl, -, received, sender', hseqn, hreached', hwhy⟩ := sent_confirmation h hsent htype
  obtain hconfirm | hexecuted := hwhy
  · obtain ⟨source', origin', hsent', -⟩ :=
      hreached'.resolve_left fun hd => hcommand _ _ _ hd hconfirm
    obtain ⟨-, -, haddress, -⟩ := sent_confirmation h hsent' hconfirm
    have hn := d.distinct _ _ haddress
    cases hn
  · have hconnect : received.type = packetConnectCmd := by
      obtain ⟨-, -, -, -, -, -, htype, -⟩ := hexecuted
      exact htype
    obtain hdirect | ⟨rfl, k, b, hb, hcopy, hsent'⟩ := reached_connect h hreached' hconnect
    · exact .inr ⟨i, received, sender', hdirect, hconnect, hseqn⟩
    · exact .inl ⟨k, i, b, received, hb, hcopy, hseqn, hsent', hexecuted⟩

end reached

/-- Behind each confirmed number of a broadcast there is a copy that was executed. -/
theorem executed_of_confirm (h : Explained d c) {n : UInt64}
    (hn : .confirm n ∈ (c.node .primary).shared.log) : ∃ k, CopyExecuted d c k n := by
  have htraced : ∀ n, (c.node n).shared.Traced
      (Reached d (fun n message _ => n = .primary ∧ message.type ≠ packetConfirmStateChange) c n)
      (d.replicas n) := h
  refine (confirmed_number htraced (fun n message sender hd => hd.2) hn).resolve_right ?_
  rintro ⟨i, message, sender, hdirect, -⟩
  cases hdirect.1

/-- The numbers of a broadcast whose numbers are all confirmed are those of its own
copies, and each copy was executed. -/
theorem executed_of_confirmed (h : Explained d c)
    (hwrap : (c.node .primary).shared.lastSeqn < 2 ^ 64) {k : Nat} {b : Broadcast}
    (hb : (broadcasts (c.node .primary).shared.log)[k]? = some b)
    (hconfirm : ∀ i : Fin 3, .confirm (b.lastSeqn + UInt64.ofNat i) ∈ (c.node .primary).shared.log)
    (i : Fin 3) : Executed (c.node (.secondary i)).shared.log
      { b.message with seqn := b.lastSeqnTemp + UInt64.ofNat i } (d.address .primary) := by
  obtain ⟨spans, hspans⟩ := (h .primary).spans
  obtain ⟨x, hx, hseqn, htemp⟩ := hspans.get hb
  have hown : ∀ i : Fin 3, ∃ j : Fin 3, x.1 + i = x.2 + j ∧
      Executed (c.node (.secondary j)).shared.log
        { b.message with seqn := b.lastSeqnTemp + UInt64.ofNat j } (d.address .primary) := by
    intro i
    obtain ⟨k', j, b', copy, hb', rfl, hnumber, -, hexecuted⟩ := executed_of_confirm h (hconfirm i)
    obtain ⟨x', hx', -, htemp'⟩ := hspans.get hb'
    rw [hseqn, htemp'] at hnumber
    have he := hspans.number_eq hwrap (List.mem_of_getElem? hx) (List.mem_of_getElem? hx') i.isLt
      j.isLt hnumber
    obtain rfl := hspans.same_of_number hx hx' i.isLt j.isLt he
    rw [hb] at hb'
    cases hb'
    rw [hx] at hx'
    cases hx'
    exact ⟨j, he, hexecuted⟩
  have hle := (hspans.bounded x (List.mem_of_getElem? hx)).1
  obtain ⟨j₀, hj₀, -⟩ := hown 0
  obtain ⟨j, hj, hexecuted⟩ := hown i
  have hij : i = j := by
    rw [Fin.ext_iff]
    simp only [Fin.val_zero] at hj₀
    omega
  rwa [hij]

/-- When the primary sends ACCEPT_CONN for a CONNECT, each secondary has executed
its handler on the copy of this CONNECT that was made for it. -/
theorem replication_safety (d : Deployment) (disk : Node → Disk) (profiles : Node → ProfileManager)
    (moves : List Move)
    (hwrap : ((run d (start d disk profiles) moves).node .primary).shared.lastSeqn < 2 ^ 64)
    {host : SocketAddress} {message : Packet} {k : Nat}
    (hk : .sent host message (.accept k) ∈
      ((run d (start d disk profiles) moves).node .primary).shared.log) :
    ∃ b granted, BroadcastAt ((run d (start d disk profiles) moves).node .primary).shared.log k b granted ∧
      b.senderAddress = host ∧ b.message.type = packetConnectCmd ∧
      ∀ i : Fin 3, Executed ((run d (start d disk profiles) moves).node (.secondary i)).shared.log
        { b.message with seqn := b.lastSeqnTemp + UInt64.ofNat i } (d.address .primary) := by
  have hack := (run_node d disk profiles moves .primary).1
  have hexplained : Explained d (run d (start d disk profiles) moves) :=
    fun n => (run_node d disk profiles moves n).2
  generalize run d (start d disk profiles) moves = c at *
  obtain ⟨b, granted, hb, hhost⟩ := accepted_broadcastAt hack hk
  have hexecuted := executed_of_confirmed hexplained hwrap (broadcastAt_get hb)
    (confirm_of_accepted hack hb (mem_accepts.mpr ⟨_, _, hk⟩))
  refine ⟨b, granted, hb, hhost, ?_, hexecuted⟩
  obtain ⟨-, -, -, -, -, -, htype, -⟩ := hexecuted 0
  exact htype

/-- The launch of four servers on one host. -/
def launched : Deployment where
  peer
    | .primary => ⟨[], 0, true⟩
    | .secondary i => ⟨[], i.val + 1, false⟩
  primary n := by cases n <;> simp
  distinct n n' h := by
    cases n <;> cases n' <;> simp [Peer.getSocketAddress] at h ⊢ <;> omega

def advances (n : Node) (steps : Nat) : List Move := List.replicate steps (.advance n)

/-- The packet that `source` sent at position `k` comes to `n` and is handled. -/
def delivery (source : Node) (k : Nat) (n : Node) (steps : Nat) : List Move :=
  .deliver 0 source k :: advances n steps

/-- A client connects, and the copies and their confirmations come through. -/
def acceptance : List Move :=
  .client 0 (clientPacket packetConnectCmd 0 [97]) ⟨[], 9⟩ (by decide) :: advances .primary 20 ++
    delivery .primary 3 (.secondary 0) 12 ++ delivery .primary 4 (.secondary 1) 12 ++
    delivery .primary 5 (.secondary 2) 12 ++ delivery (.secondary 0) 2 .primary 3 ++
    delivery (.secondary 1) 2 .primary 3 ++ delivery (.secondary 2) 2 .primary 3

def accepted : Cluster :=
  run launched (start launched (fun _ => ⟨true, none⟩) fun _ => ⟨[]⟩) acceptance

/-- The client is accepted, and the three secondaries have executed its CONNECT. -/
theorem replication_safety_acceptance : ∃ b granted,
    BroadcastAt (accepted.node .primary).shared.log 0 b granted ∧ b.senderAddress = ⟨[], 9⟩ ∧
    b.message.type = packetConnectCmd ∧
    ∀ i : Fin 3, Executed (accepted.node (.secondary i)).shared.log
      { b.message with seqn := b.lastSeqnTemp + UInt64.ofNat i } (launched.address .primary) := by
  have hsent : .sent ⟨[], 9⟩ (makeAcceptConnCommand 0 0) (.accept 0) ∈
      (accepted.node .primary).shared.log := by decide +kernel
  exact replication_safety launched _ _ acceptance (by decide +kernel) hsent

end Cluster

end Piupiu
