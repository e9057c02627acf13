import Piupiu.SessionReplication
import Piupiu.Lib.GrowSet

/-!
# Convergence of the profiles

A primary and any number of secondaries, each of which handles one packet at a
time. The network delivers to a secondary what was ever forwarded to it, in any
order and any number of times, or never. The handles on both sides are the two
ends of a grow-only set.
-/
namespace Piupiu

open GrowSet

/-- The users whose CONNECT was taken up. -/
def connected (log : List Event) : Set Str :=
  {user | ∃ message address, .started message address ∈ log ∧ message.type = packetConnectCmd ∧
    message.text = user}

namespace Server

section handle

variable {s : Server} {now : UInt64} {message : Packet} {address : SocketAddress}

/-- A handler takes up no packet but its own. -/
theorem handle_started {m : Packet} {a : SocketAddress}
    (hm : .started m a ∈ (s.handle now message address).log) :
    .started m a ∈ s.log ∨ m = message ∧ a = address := by
  refine handle_preserves (P := fun s' => .started m a ∈ s'.log →
    .started m a ∈ s.log ∨ m = message ∧ a = address) (fun b b' hstep ih hm => ?_) .inl hm
  obtain ⟨events, hlog, -, hevents, -⟩ := step_events hstep
  rw [hlog] at hm
  obtain hm | hm := List.mem_append.mp hm
  · exact ih hm
  · exact .inr (hevents _ hm)

theorem connect_started (s : Server) (now : UInt64) (address : SocketAddress)
    (htype : message.type = packetConnectCmd) :
    .started message address ∈ (s.handle now message address).log := by
  obtain ⟨p, -, he⟩ := handle_connect s now address htype
  rw [he]
  exact (replicated_log _ _ _ _).subset (List.mem_append_right _ List.mem_cons_self)

theorem handle_handles (s : Server) (now : UInt64) (message : Packet) (address : SocketAddress) :
    (s.handle now message address).profileManager.handles =
      if message.type = packetConnectCmd ∧ message.text ∉ s.profileManager.handles then
        s.profileManager.handles ++ [message.text]
      else s.profileManager.handles := by
  have hprofiles : (s.handle now message address).profileManager =
      (s.handle now message address).store.profiles := rfl
  rw [hprofiles, (handle_ended s now message address).store, Store.handle_handles]
  rfl

/-- A CONNECT adds its user to the handles, and no other packet changes them. -/
theorem mem_handles_handle (s : Server) (now : UInt64) (message : Packet) (address : SocketAddress)
    (user : Str) : user ∈ (s.handle now message address).profileManager.handles ↔
      user ∈ s.profileManager.handles ∨
        message.type = packetConnectCmd ∧ user = message.text := by
  rw [handle_handles]
  by_cases hadded : message.type = packetConnectCmd ∧ message.text ∉ s.profileManager.handles
  · rw [if_pos hadded, List.mem_append, List.mem_singleton]
    simp only [hadded.1, true_and]
  · rw [if_neg hadded]
    refine (or_iff_left_of_imp ?_).symm
    rintro ⟨htype, rfl⟩
    by_contra hm
    exact hadded ⟨htype, hm⟩

theorem handle_distinct (h : s.profileManager.handles.Nodup) :
    (s.handle now message address).profileManager.handles.Nodup := by
  rw [handle_handles]
  split
  · next hadded => exact List.nodup_append.mpr ⟨h, List.nodup_singleton _, fun a ha b hb he =>
      hadded.2 (List.mem_singleton.mp hb ▸ he ▸ ha)⟩
  · exact h

theorem mem_connected_handle (s : Server) (now : UInt64) (message : Packet)
    (address : SocketAddress) (user : Str) : user ∈ connected (s.handle now message address).log ↔
      user ∈ connected s.log ∨ message.type = packetConnectCmd ∧ user = message.text := by
  constructor
  · rintro ⟨m, a, hm, htype, rfl⟩
    obtain hm | ⟨rfl, rfl⟩ := handle_started hm
    · exact .inl ⟨m, a, hm, htype, rfl⟩
    · exact .inr ⟨htype, rfl⟩
  · rintro (⟨m, a, hm, htype, rfl⟩ | ⟨htype, rfl⟩)
    · exact ⟨m, a, (handle_log s now message address).subset hm, htype, rfl⟩
    · exact ⟨message, address, connect_started s now address htype, htype, rfl⟩

end handle

theorem worker_connected (s : Server) (now : UInt64) :
    connected (s.pendingNotificationWorker now).log = connected s.log := by
  obtain ⟨events, hlog, hevents⟩ := (worker_rely now s).log
  ext user
  constructor
  · rintro ⟨m, a, hm, htype, rfl⟩
    rw [hlog] at hm
    refine ⟨m, a, (List.mem_append.mp hm).resolve_right fun he => ?_, htype, rfl⟩
    have hworker := hevents _ he
    cases hworker
  · rintro ⟨m, a, hm, htype, rfl⟩
    exact ⟨m, a, hlog ▸ List.mem_append_left events hm, htype, rfl⟩

theorem worker_handles (s : Server) (now : UInt64) :
    (s.pendingNotificationWorker now).profileManager.handles = s.profileManager.handles :=
  congrArg (fun st : Store => st.profiles.handles) (worker_rely now s).store

theorem worker_forwarded (s : Server) (now : UInt64) (i : Nat) :
    forwarded i (s.pendingNotificationWorker now).log = forwarded i s.log := by
  obtain ⟨events, hlog, hevents⟩ := (worker_rely now s).log
  rw [hlog, forwarded_append, forwarded_byWorker hevents, List.append_nil]

end Server

/-- The primary and its secondaries, in the order of the peers. -/
structure Replicas where
  primary : Server
  secondary : List Server

namespace Replicas

open Server

/-- What can happen: a packet comes to the primary, a forwarded packet comes to a
secondary, anything but a CONNECT comes to it, or a worker does an iteration. -/
inductive Move where
  | packet (now : UInt64) (message : Packet) (address : SocketAddress)
  | deliver (i : Nat) (now : UInt64) (k : Nat) (address : SocketAddress)
  | stray (i : Nat) (now : UInt64) (message : Packet) (address : SocketAddress)
      (other : message.type ≠ packetConnectCmd)
  | primaryWorker (now : UInt64)
  | secondaryWorker (i : Nat) (now : UInt64)

def onSecondary (c : Replicas) (i : Nat) (f : Server → Server) : Replicas :=
  { c with secondary := c.secondary.modify i f }

def move (c : Replicas) : Move → Replicas
  | .packet now message address => { c with primary := c.primary.handle now message address }
  | .deliver i now k address =>
    match (forwarded i c.primary.log)[k]? with
    | some message => c.onSecondary i fun s => s.handle now message address
    | none => c
  | .stray i now message address _ => c.onSecondary i fun s => s.handle now message address
  | .primaryWorker now => { c with primary := c.primary.pendingNotificationWorker now }
  | .secondaryWorker i now => c.onSecondary i (pendingNotificationWorker now)

def run (c : Replicas) (moves : List Move) : Replicas := moves.foldl move c

theorem run_concat (c : Replicas) (moves : List Move) (m : Move) :
    c.run (moves ++ [m]) = (c.run moves).move m := by
  simp [run]

/-- The servers before their first packet, with the same distinct handles. -/
structure Started (c : Replicas) : Prop where
  primary : ∃ thisPeer peers disk profiles, thisPeer.primary = true ∧
    c.primary = new thisPeer peers disk profiles
  secondary : ∀ s ∈ c.secondary, ∃ thisPeer peers disk profiles, thisPeer.primary = false ∧
    s = new thisPeer peers disk profiles
  peers : c.secondary.length = c.primary.replicaManager.getSecondaryReplicas.length
  distinct : c.primary.profileManager.handles.Nodup
  same : ∀ s ∈ c.secondary, s.profileManager.handles.Nodup ∧
    ∀ user, user ∈ s.profileManager.handles ↔ user ∈ c.primary.profileManager.handles

/-- The handles of the primary and of the secondary at position `i`, and the users
whose CONNECT is on its way. -/
def link (i : Nat) (primary secondary : Server) : Link Str where
  source := {user | user ∈ primary.profileManager.handles}
  sent := {user | ∃ message ∈ forwarded i primary.log, message.type = packetConnectCmd ∧
    message.text = user}
  replica := {user | user ∈ secondary.profileManager.handles}
  seen := connected secondary.log

/-- A CONNECT adds its user to the handles. -/
theorem handles_connect (s : Server) (now : UInt64) {message : Packet}
    (htype : message.type = packetConnectCmd) (address : SocketAddress) :
    {user | user ∈ (s.handle now message address).profileManager.handles} =
      insert message.text {user | user ∈ s.profileManager.handles} := by
  ext user
  simp only [Set.mem_ofPred_eq, Set.mem_insert_iff, mem_handles_handle, htype, true_and]
  exact or_comm

/-- The primary adds a user and sends it, or does nothing that counts. -/
theorem primary_link {i : Nat} {p s : Server} {peer : Peer}
    (hprimary : p.replicaManager.isPrimary = true)
    (hi : p.replicaManager.getSecondaryReplicas[i]? = some peer) (now : UInt64) (message : Packet)
    (address : SocketAddress) :
    Relation.ReflGen Step (link i p s) (link i (p.handle now message address) s) := by
  have hforwarded := handle_forwarded hprimary hi now message address
  have hhandles := mem_handles_handle p now message address
  by_cases htype : message.type = packetConnectCmd
  · rw [if_pos htype] at hforwarded
    have hlink : link i (p.handle now message address) s =
        { link i p s with
          source := insert message.text (link i p s).source
          sent := insert message.text (link i p s).sent } := by
      unfold link
      congr 1
      · exact handles_connect p now htype address
      · ext user
        simp only [hforwarded, Set.mem_ofPred_eq, Set.mem_insert_iff, List.mem_append,
          List.mem_singleton]
        constructor
        · rintro ⟨m, hm | rfl, hconnect, rfl⟩
          · exact .inr ⟨m, hm, hconnect, rfl⟩
          · exact .inl rfl
        · rintro (rfl | ⟨m, hm, hconnect, rfl⟩)
          · exact ⟨_, .inr rfl, htype, rfl⟩
          · exact ⟨m, .inl hm, hconnect, rfl⟩
    rw [hlink]
    exact .single (.add message.text)
  · rw [if_neg htype, List.append_nil] at hforwarded
    have hlink : link i (p.handle now message address) s = link i p s := by
      simp only [link, hforwarded, hhandles, htype, false_and, or_false]
    rw [hlink]

/-- The secondary adds a user that comes to it, or does nothing that counts. -/
theorem secondary_link {i : Nat} {p s : Server} (now : UInt64) {message : Packet}
    (hmessage : message.type = packetConnectCmd → message ∈ forwarded i p.log)
    (address : SocketAddress) :
    Relation.ReflGen Step (link i p s) (link i p (s.handle now message address)) := by
  have hhandles := mem_handles_handle s now message address
  have hconnected := mem_connected_handle s now message address
  by_cases htype : message.type = packetConnectCmd
  · have hlink : link i p (s.handle now message address) =
        { link i p s with
          replica := insert message.text (link i p s).replica
          seen := insert message.text (link i p s).seen } := by
      unfold link
      congr 1
      · exact handles_connect s now htype address
      · ext user
        simp only [hconnected, htype, true_and, Set.mem_insert_iff]
        exact or_comm
    rw [hlink]
    exact .single (.deliver message.text ⟨message, hmessage htype, htype, rfl⟩)
  · have hlink : link i p (s.handle now message address) = link i p s := by
      have hseen : connected (s.handle now message address).log = connected s.log := by
        ext user
        simp only [hconnected, htype, false_and, or_false]
      simp only [link, hseen, hhandles, htype, false_and, or_false]
    rw [hlink]

/-- What holds in every state of a run from servers with these handles. -/
structure Running (initial : Set Str) (c : Replicas) : Prop where
  primary : c.primary.replicaManager.isPrimary = true
  peers : c.secondary.length = c.primary.replicaManager.getSecondaryReplicas.length
  distinct : c.primary.profileManager.handles.Nodup
  secondary : ∀ i s, c.secondary[i]? = some s → s.profileManager.handles.Nodup ∧
    Tracks initial (link i c.primary s)

variable {initial : Set Str} {c : Replicas}

theorem Running.peer (h : c.Running initial) {i : Nat} {s : Server}
    (hs : c.secondary[i]? = some s) :
    ∃ peer, c.primary.replicaManager.getSecondaryReplicas[i]? = some peer := by
  have hlt := (List.getElem?_eq_some_iff.mp hs).1
  rw [h.peers] at hlt
  exact ⟨_, List.getElem?_eq_getElem hlt⟩

/-- The primary handles a packet or lets its worker run. -/
theorem Running.onPrimary (h : c.Running initial) {p : Server}
    (hthis : p.replicaManager.thisPeer = c.primary.replicaManager.thisPeer)
    (hpeers : p.replicaManager.peers = c.primary.replicaManager.peers)
    (hdistinct : p.profileManager.handles.Nodup)
    (hlink : ∀ i s, c.secondary[i]? = some s →
      Relation.ReflGen Step (link i c.primary s) (link i p s)) :
    Running initial { c with primary := p } := by
  constructor
  · have hprimary := h.primary
    simpa only [ReplicaManager.isPrimary, hthis] using hprimary
  · simpa only [ReplicaManager.getSecondaryReplicas, hpeers] using h.peers
  · exact hdistinct
  · intro i s hs
    obtain ⟨hnodup, htracks⟩ := h.secondary i s hs
    exact ⟨hnodup, htracks.run (hlink i s hs).to_reflTransGen⟩

/-- A secondary handles a packet or lets its worker run. -/
theorem Running.onSecondary (h : c.Running initial) {i : Nat} {f : Server → Server}
    (hdistinct : ∀ s, s.profileManager.handles.Nodup → (f s).profileManager.handles.Nodup)
    (hlink : ∀ s, Relation.ReflGen Step (link i c.primary s) (link i c.primary (f s))) :
    Running initial (c.onSecondary i f) := by
  constructor
  · exact h.primary
  · simpa only [Replicas.onSecondary, List.length_modify] using h.peers
  · exact h.distinct
  · intro j s' hs'
    simp only [Replicas.onSecondary, List.getElem?_modify, Option.map_eq_map,
      Option.map_eq_some_iff] at hs'
    obtain ⟨s, hs, rfl⟩ := hs'
    obtain ⟨hnodup, htracks⟩ := h.secondary j s hs
    by_cases hij : i = j
    · subst hij
      rw [if_pos rfl]
      exact ⟨hdistinct s hnodup, htracks.run (hlink s).to_reflTransGen⟩
    · rw [if_neg hij]
      exact ⟨hnodup, htracks⟩

theorem move_running (h : c.Running initial) (m : Move) : (c.move m).Running initial := by
  cases m with
  | packet now message address =>
    have hlaunch := handle_launch c.primary now message address
    refine h.onPrimary hlaunch.1 hlaunch.2 (handle_distinct h.distinct) fun i s hs => ?_
    obtain ⟨peer, hpeer⟩ := h.peer hs
    exact primary_link h.primary hpeer now message address
  | deliver i now k address =>
    simp only [move]
    split
    · next message hk =>
      refine h.onSecondary (fun s hs => handle_distinct hs) fun s => ?_
      exact secondary_link now (fun _ => List.mem_of_getElem? hk) address
    · exact h
  | stray i now message address other =>
    refine h.onSecondary (fun s hs => handle_distinct hs) fun s => ?_
    exact secondary_link now (fun htype => absurd htype other) address
  | primaryWorker now =>
    have hreplicas := (worker_rely now c.primary).replicas
    refine h.onPrimary (by rw [hreplicas]) (by rw [hreplicas]) ?_ fun i s hs => ?_
    · rw [worker_handles]
      exact h.distinct
    · simp only [link, worker_handles, worker_forwarded]
      exact .refl
  | secondaryWorker i now =>
    refine h.onSecondary (fun s hs => ?_) fun s => ?_
    · rw [worker_handles]
      exact hs
    · simp only [link, worker_handles, worker_connected]
      exact .refl

theorem Started.running (h : c.Started) :
    c.Running {user | user ∈ c.primary.profileManager.handles} := by
  obtain ⟨thisPeer, peers, disk, profiles, hprimary, he⟩ := h.primary
  have hlog : c.primary.log = [] := by rw [he]; rfl
  constructor
  · rw [he]
    exact hprimary
  · exact h.peers
  · exact h.distinct
  · intro i s hs
    have hm := List.mem_of_getElem? hs
    obtain ⟨thisPeer', peers', disk', profiles', -, he'⟩ := h.secondary s hm
    obtain ⟨hnodup, hsame⟩ := h.same s hm
    have hlog' : s.log = [] := by rw [he']; rfl
    have hsent : (link i c.primary s).sent = ∅ := by simp [link, hlog, forwarded]
    have hseen : (link i c.primary s).seen = ∅ := by simp [link, hlog', connected]
    refine ⟨hnodup, ?_, ?_, ?_⟩
    · rw [hsent, Set.union_empty]
      rfl
    · rw [hseen, Set.union_empty]
      ext user
      exact hsame user
    · rw [hseen]
      exact Set.empty_subset _

theorem run_running (h : c.Started) (moves : List Move) :
    (c.run moves).Running {user | user ∈ c.primary.profileManager.handles} := by
  induction moves using List.reverseRecOn with
  | nil => exact h.running
  | append_singleton moves m ih =>
    rw [run_concat]
    exact move_running ih m

/-- In every state the handles of a secondary are distinct and among those of the
primary, and they are all of these once everything that was forwarded to it has
been handled. -/
theorem replicas_converge (h : c.Started) (moves : List Move) :
    (c.run moves).primary.profileManager.handles.Nodup ∧
    ∀ i s, (c.run moves).secondary[i]? = some s → s.profileManager.handles.Nodup ∧
      s.profileManager.handles ⊆ (c.run moves).primary.profileManager.handles ∧
      ((∀ message ∈ forwarded i (c.run moves).primary.log, ∃ address,
        .started message address ∈ s.log) →
          ∀ user, user ∈ s.profileManager.handles ↔
            user ∈ (c.run moves).primary.profileManager.handles) := by
  have hrunning := run_running h moves
  refine ⟨hrunning.distinct, fun i s hs => ?_⟩
  obtain ⟨hnodup, htracks⟩ := hrunning.secondary i s hs
  refine ⟨hnodup, fun user hm => htracks.subset hm, fun hall user => ?_⟩
  have hcaught : (link i (c.run moves).primary s).sent ⊆ (link i (c.run moves).primary s).seen := by
    rintro user ⟨message, hm, htype, rfl⟩
    obtain ⟨address, hstarted⟩ := hall message hm
    exact ⟨message, address, hstarted, htype, rfl⟩
  exact Set.ext_iff.mp (htracks.converged hcaught) user

/-- A primary and two secondaries without profiles. -/
def twoSecondaries : Replicas where
  primary := new ⟨[], 0, true⟩ [⟨[], 1, false⟩, ⟨[], 2, false⟩] ⟨true, none⟩ ⟨[]⟩
  secondary := [new ⟨[], 1, false⟩ [⟨[], 0, true⟩, ⟨[], 2, false⟩] ⟨true, none⟩ ⟨[]⟩,
    new ⟨[], 2, false⟩ [⟨[], 0, true⟩, ⟨[], 1, false⟩] ⟨true, none⟩ ⟨[]⟩]

theorem twoSecondaries_started : twoSecondaries.Started := by
  constructor
  · exact ⟨_, _, _, _, rfl, rfl⟩
  · intro s hs
    obtain rfl | rfl : s = _ ∨ s = _ := by simpa [twoSecondaries] using hs
    · exact ⟨_, _, _, _, rfl, rfl⟩
    · exact ⟨_, _, _, _, rfl, rfl⟩
  · rfl
  · exact List.nodup_nil
  · intro s hs
    obtain rfl | rfl : s = _ ∨ s = _ := by simpa [twoSecondaries] using hs
    · exact ⟨List.nodup_nil, fun user => Iff.rfl⟩
    · exact ⟨List.nodup_nil, fun user => Iff.rfl⟩

/-- Two copies come to the first secondary in the wrong order, and one of them twice. -/
def reordered : List Move :=
  [.packet 0 (clientPacket packetConnectCmd 0 [97]) ⟨[], 9⟩,
    .packet 0 (clientPacket packetConnectCmd 0 [98]) ⟨[], 9⟩,
    .deliver 0 0 1 ⟨[], 0⟩, .deliver 0 0 0 ⟨[], 0⟩, .deliver 0 0 1 ⟨[], 0⟩]

theorem replicas_converge_reordered : ∃ s,
    (twoSecondaries.run reordered).secondary[0]? = some s ∧ ∀ user,
      user ∈ s.profileManager.handles ↔
        user ∈ (twoSecondaries.run reordered).primary.profileManager.handles := by
  have hstarted : ∀ message ∈ forwarded 0 (twoSecondaries.run reordered).primary.log,
      .started message ⟨[], 0⟩ ∈
        (((twoSecondaries.run reordered).secondary[0]?).map fun s => s.log).getD [] := by
    decide +kernel
  obtain ⟨s, hs⟩ : ∃ s, (twoSecondaries.run reordered).secondary[0]? = some s :=
    Option.isSome_iff_exists.mp (by decide +kernel)
  rw [hs] at hstarted
  have hconverge := ((replicas_converge twoSecondaries_started reordered).2 0 s hs).2.2
  exact ⟨s, hs, hconverge fun message hm => ⟨_, hstarted message hm⟩⟩

end Replicas

end Piupiu
