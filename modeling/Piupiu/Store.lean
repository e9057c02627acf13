import Piupiu.Server
import Piupiu.Reload

/-!
# What a packet does to the store

The profiles, the sessions and the file, and each packet as one transition on
them. A handler performs its transition in several actions; this is the level at
which invariants of the store are stated.
-/
namespace Piupiu

structure Store where
  profiles : ProfileManager
  sessions : SessionManager
  disk : Disk

def Server.store (s : Server) : Store := ⟨s.profileManager, s.sessionManager, s.disk⟩

namespace Store

/-- The file is what `Sync` writes for the profiles that are there now. -/
def sync (st : Store) : Store :=
  if st.disk.writable then { st with disk := ⟨true, some st.profiles.sync⟩ } else st

def create (st : Store) (user : Str) : Store :=
  sync { st with profiles := st.profiles.newProfile user }

/-- The store with a profile for the user. -/
def ensure (st : Store) (user : Str) : Store :=
  if st.profiles.getProfileByName user = none then st.create user else st

/-- A session of the profile at `p`, which has the handle `user`. -/
def openSession (st : Store) (p : ProfileRef) (user : Str) (address : SocketAddress) : Store :=
  match st.sessions.startSession user address with
  | (sessions, some r) =>
    { st with profiles := st.profiles.setSession p (.ref r), sessions := sessions }
  | (sessions, none) => { st with sessions := sessions }

def connect (st : Store) (user : Str) (address : SocketAddress) : Store :=
  match (st.ensure user).profiles.getProfileByName user with
  | some p => (st.ensure user).openSession p user address
  | none => st.ensure user

def disconnect (st : Store) (user : Str) (address : SocketAddress) : Store :=
  if st.profiles.getProfileByName user = none then st
  else { st with sessions := (st.sessions.endSession user address).1 }

/-- The new edge is saved; an edge that is there already changes nothing. -/
def addEdge (st : Store) (p follower : ProfileRef) : Store :=
  if follower ∈ (st.profiles.deref p).followers then st
  else sync { st with profiles := (st.profiles.pushFollower p follower).1 }

/-- The two ends of the edge that a FOLLOW from `address` asks for. -/
def followEdge (st : Store) (target : Str) (address : SocketAddress) :
    Option (ProfileRef × ProfileRef) :=
  match st.sessions.getUserNameByAddressAndIP address with
  | none => none
  | some username =>
    if target = username then none
    else
      match st.profiles.getProfileByName target, st.profiles.getProfileByName username with
      | some p, some follower => some (p, follower)
      | _, _ => none

def follow (st : Store) (target : Str) (address : SocketAddress) : Store :=
  match st.followEdge target address with
  | some (p, follower) => st.addEdge p follower
  | none => st

def handle (st : Store) (message : Packet) (address : SocketAddress) : Store :=
  if message.type = packetConnectCmd then st.connect message.text address
  else if message.type = packetDisconnectCmd then st.disconnect message.text address
  else if message.type = packetFollowCmd then st.follow message.text address
  else st

/-- The notifications that a packet puts into the queue. -/
def notifications (st : Store) (message : Packet) (address : SocketAddress) :
    List PendingNotification :=
  if message.type = packetSendCmd then
    match st.sessions.getUserNameByAddressAndIP address with
    | none => []
    | some username =>
      match st.profiles.getProfileByName username with
      | none => []
      | some p => (st.profiles.deref p).followers.map fun follower =>
          ⟨username, message.text, follower⟩
  else []

/-- A packet that any number of other packets may precede. -/
def handleAll (st : Store) (packets : List (Packet × SocketAddress)) : Store :=
  packets.foldl (fun st p => st.handle p.1 p.2) st

variable {st : Store} {user : Str} {address : SocketAddress}

section handle

variable {message : Packet}

theorem handle_connect (h : message.type = packetConnectCmd) :
    st.handle message address = st.connect message.text address := by
  simp [handle, h]

theorem handle_disconnect (h : message.type = packetDisconnectCmd) :
    st.handle message address = st.disconnect message.text address := by
  simp [handle, h, packetConnectCmd, packetDisconnectCmd]

theorem handle_follow (h : message.type = packetFollowCmd) :
    st.handle message address = st.follow message.text address := by
  simp [handle, h, packetConnectCmd, packetDisconnectCmd, packetFollowCmd]

theorem handle_other (hc : message.type ≠ packetConnectCmd) (hd : message.type ≠ packetDisconnectCmd)
    (hf : message.type ≠ packetFollowCmd) : st.handle message address = st := by
  simp [handle, hc, hd, hf]

end handle

@[simp] theorem sync_profiles (st : Store) : st.sync.profiles = st.profiles := by
  unfold sync
  split <;> rfl

@[simp] theorem sync_sessions (st : Store) : st.sync.sessions = st.sessions := by
  unfold sync
  split <;> rfl

@[simp] theorem sync_writable (st : Store) : st.sync.disk.writable = st.disk.writable := by
  unfold sync
  split
  · next h => exact h.symm
  · rfl

/-- The single changes that the transition of a packet is made of. -/
inductive Change (message : Packet) (st : Store) : Store → Prop
  | create (htype : message.type = packetConnectCmd)
      (fresh : st.profiles.getProfileByName message.text = none) :
      Change message st (st.create message.text)
  | openSession (p : ProfileRef) (address : SocketAddress)
      (hp : st.profiles.getProfileByName message.text = some p) :
      Change message st (st.openSession p message.text address)
  | endSession (p : ProfileRef) (address : SocketAddress)
      (hp : st.profiles.getProfileByName message.text = some p) :
      Change message st { st with sessions := (st.sessions.endSession message.text address).1 }
  | addEdge (p follower : ProfileRef) (hp : p < st.profiles.profiles.length)
      (hf : follower < st.profiles.profiles.length) : Change message st (st.addEdge p follower)

theorem ensure_changes (st : Store) {message : Packet} (htype : message.type = packetConnectCmd) :
    Relation.ReflTransGen (Change message) st (st.ensure message.text) := by
  unfold ensure
  split
  · next h => exact .single (.create htype h)
  · exact .refl

theorem create_lookup (h : st.profiles.getProfileByName user = none) :
    (st.create user).profiles.getProfileByName user = some st.profiles.profiles.length := by
  simp [create, ProfileManager.getProfileByName_newProfile, h]

theorem followEdge_some {target : Str} {e : ProfileRef × ProfileRef}
    (h : st.followEdge target address = some e) :
    ∃ username, st.sessions.getUserNameByAddressAndIP address = some username ∧
      target ≠ username ∧ st.profiles.getProfileByName target = some e.1 ∧
      st.profiles.getProfileByName username = some e.2 := by
  unfold followEdge at h
  split at h
  · cases h
  · next username hname =>
    split at h
    · cases h
    · next hne =>
      split at h
      · next hp hf =>
        cases h
        exact ⟨username, hname, hne, hp, hf⟩
      · cases h

theorem followEdge_lt {target : Str} {p follower : ProfileRef}
    (h : st.followEdge target address = some (p, follower)) :
    p < st.profiles.profiles.length ∧ follower < st.profiles.profiles.length := by
  obtain ⟨username, -, -, hp, hf⟩ := followEdge_some h
  exact ⟨(ProfileManager.getProfileByName_some _ hp).1, (ProfileManager.getProfileByName_some _ hf).1⟩

theorem handle_changes (st : Store) (message : Packet) (address : SocketAddress) :
    Relation.ReflTransGen (Change message) st (st.handle message address) := by
  unfold handle
  split
  · next htype =>
    refine (ensure_changes st htype).trans ?_
    unfold connect
    split
    · next p hp => exact .single (.openSession p address hp)
    · exact .refl
  · split
    · unfold disconnect
      split
      · exact .refl
      · next hp =>
        obtain ⟨p, hp⟩ := Option.ne_none_iff_exists'.mp hp
        exact .single (.endSession p address hp)
    · split
      · unfold follow
        split
        · next p follower h => exact .single (.addEdge p follower (followEdge_lt h).1 (followEdge_lt h).2)
        · exact .refl
      · exact .refl

/-- What every change keeps is kept by a packet. -/
theorem handle_keeps {P : Store → Prop} {message : Packet}
    (h : ∀ a b, Change message a b → P a → P b) (hst : P st) : P (st.handle message address) := by
  have hc := st.handle_changes message address
  generalize st.handle message address = st' at hc ⊢
  induction hc with
  | refl => exact hst
  | tail _ hab ih => exact h _ _ hab ih

theorem ensure_sessions (st : Store) (user : Str) : (st.ensure user).sessions = st.sessions := by
  unfold ensure
  split
  · exact sync_sessions _
  · rfl

theorem ensure_lookup (st : Store) (user : Str) :
    ∃ p, (st.ensure user).profiles.getProfileByName user = some p := by
  unfold ensure
  split
  · next h => exact ⟨_, create_lookup h⟩
  · next h => exact Option.ne_none_iff_exists'.mp h

theorem connect_sessions (st : Store) (user : Str) (address : SocketAddress) :
    (st.connect user address).sessions = (st.sessions.startSession user address).1 := by
  obtain ⟨p, hp⟩ := st.ensure_lookup user
  simp only [connect, hp, openSession, ensure_sessions]
  split <;> simp_all

theorem follow_sessions (st : Store) (target : Str) (address : SocketAddress) :
    (st.follow target address).sessions = st.sessions := by
  unfold follow
  split
  · unfold addEdge
    split
    · rfl
    · exact sync_sessions _
  · rfl

/-- The sockets of a user after a packet. -/
theorem handle_addresses (st : Store) (message : Packet) (address : SocketAddress) (v : Str) :
    (st.handle message address).sessions.getUserAddresses v =
      if message.type = packetConnectCmd then
        (st.sessions.startSession message.text address).1.getUserAddresses v
      else if message.type = packetDisconnectCmd ∧
          st.profiles.getProfileByName message.text ≠ none then
        (st.sessions.endSession message.text address).1.getUserAddresses v
      else st.sessions.getUserAddresses v := by
  by_cases hc : message.type = packetConnectCmd
  · rw [if_pos hc, handle_connect hc, connect_sessions]
  rw [if_neg hc]
  by_cases hd : message.type = packetDisconnectCmd
  · rw [handle_disconnect hd, disconnect]
    by_cases hp : st.profiles.getProfileByName message.text = none <;> simp [hp, hd]
  rw [if_neg fun h => hd h.1]
  by_cases hf : message.type = packetFollowCmd
  · rw [handle_follow hf, follow_sessions]
  · rw [handle_other hc hd hf]

theorem create_profiles (st : Store) (user : Str) :
    (st.create user).profiles = st.profiles.newProfile user := sync_profiles _

theorem ensure_handles (st : Store) (user : Str) : (st.ensure user).profiles.handles =
    if user ∈ st.profiles.handles then st.profiles.handles else st.profiles.handles ++ [user] := by
  have hfresh : st.profiles.getProfileByName user = none ↔ user ∉ st.profiles.handles := by
    rw [← ProfileManager.getProfileByName_isSome, Option.not_isSome_iff_eq_none]
  by_cases hu : user ∈ st.profiles.handles
  · rw [ensure, if_neg fun h => hfresh.mp h hu, if_pos hu]
  · rw [ensure, if_pos (hfresh.mpr hu), if_neg hu, create_profiles,
      ProfileManager.newProfile_handles]

theorem ensure_followers (st : Store) (user : Str) (q : ProfileRef) :
    ((st.ensure user).profiles.deref q).followers = (st.profiles.deref q).followers := by
  unfold ensure
  split
  · rw [create_profiles, ProfileManager.newProfile_deref]
    split
    · next hq =>
      have hnew : st.profiles.deref q = default := by simp [hq, ProfileManager.deref]
      rw [hnew]
      rfl
    · rfl
  · rfl

theorem openSession_handles (p : ProfileRef) :
    (st.openSession p user address).profiles.handles = st.profiles.handles := by
  unfold openSession
  split
  · exact ProfileManager.setSession_handles _ _ _
  · rfl

theorem openSession_followers {p : ProfileRef} (hp : p < st.profiles.profiles.length)
    (q : ProfileRef) : ((st.openSession p user address).profiles.deref q).followers =
      (st.profiles.deref q).followers := by
  unfold openSession
  split
  · exact ProfileManager.setSession_followers hp _ _
  · rfl

/-- The handles after a packet: a CONNECT adds the one it needs. -/
theorem handle_handles (st : Store) (message : Packet) (address : SocketAddress) :
    (st.handle message address).profiles.handles =
      if message.type = packetConnectCmd ∧ message.text ∉ st.profiles.handles then
        st.profiles.handles ++ [message.text]
      else st.profiles.handles := by
  by_cases hc : message.type = packetConnectCmd
  · obtain ⟨p, hp⟩ := st.ensure_lookup message.text
    rw [handle_connect hc, connect, hp]
    simp only [openSession_handles, ensure_handles, hc, true_and]
    by_cases hm : message.text ∈ st.profiles.handles <;> simp [hm]
  rw [if_neg fun h => hc h.1]
  by_cases hd : message.type = packetDisconnectCmd
  · rw [handle_disconnect hd, disconnect]
    split <;> rfl
  by_cases hf : message.type = packetFollowCmd
  · rw [handle_follow hf, follow]
    split
    · unfold addEdge
      split
      · rfl
      · rw [sync_profiles, ProfileManager.pushFollower_handles]
    · rfl
  · rw [handle_other hc hd hf]

/-- The followers of a profile after a packet: a FOLLOW adds one at the end. -/
theorem handle_followers (st : Store) (message : Packet) (address : SocketAddress)
    (q : ProfileRef) :
    ((st.handle message address).profiles.deref q).followers = (st.profiles.deref q).followers ∨
    ∃ follower, message.type = packetFollowCmd ∧
      st.followEdge message.text address = some (q, follower) ∧
      ((st.handle message address).profiles.deref q).followers =
        (st.profiles.deref q).followers ++ [follower] := by
  by_cases hc : message.type = packetConnectCmd
  · obtain ⟨p, hp⟩ := st.ensure_lookup message.text
    rw [handle_connect hc, connect, hp]
    refine .inl ?_
    dsimp only
    rw [openSession_followers (ProfileManager.getProfileByName_some _ hp).1, ensure_followers]
  by_cases hd : message.type = packetDisconnectCmd
  · rw [handle_disconnect hd, disconnect]
    split <;> exact .inl rfl
  by_cases hf : message.type = packetFollowCmd
  · rw [handle_follow hf, follow]
    cases he : st.followEdge message.text address with
    | none => exact .inl rfl
    | some edge =>
      obtain ⟨p, follower⟩ := edge
      dsimp only
      unfold addEdge
      split
      · exact .inl rfl
      · rw [sync_profiles, ProfileManager.pushFollower_deref _ p (followEdge_lt he).1]
        split
        · next hq =>
          obtain ⟨rfl, -⟩ := hq
          exact .inr ⟨follower, hf, rfl, rfl⟩
        · exact .inl rfl
  · rw [handle_other hc hd hf]
    exact .inl rfl

theorem create_graph (hg : st.profiles.Graph) (fresh : st.profiles.getProfileByName user = none) :
    (st.create user).profiles.Graph := by
  rw [create, sync_profiles]
  exact ProfileManager.graph_newProfile hg fresh

theorem openSession_graph {p : ProfileRef} (hg : st.profiles.Graph)
    (hp : st.profiles.getProfileByName user = some p) :
    (st.openSession p user address).profiles.Graph := by
  unfold openSession
  split
  · exact ProfileManager.graph_setSession hg (ProfileManager.getProfileByName_some _ hp).1 _
  · exact hg

theorem addEdge_graph {p follower : ProfileRef} (hg : st.profiles.Graph)
    (hp : p < st.profiles.profiles.length) (hf : follower < st.profiles.profiles.length) :
    (st.addEdge p follower).profiles.Graph := by
  unfold addEdge
  split
  · exact hg
  · rw [sync_profiles]
    exact ProfileManager.graph_pushFollower hg hp hf

theorem change_graph {message : Packet} {st' : Store} (hc : Change message st st')
    (hg : st.profiles.Graph) : st'.profiles.Graph := by
  cases hc with
  | create htype fresh => exact create_graph hg fresh
  | openSession p address hp => exact openSession_graph hg hp
  | endSession p address hp => exact hg
  | addEdge p follower hp hf => exact addEdge_graph hg hp hf

/-- The profile at `p` points to the session that its handle leads to. -/
def LinkedAt (st : Store) (p : ProfileRef) : Prop :=
  ∃ r, (st.profiles.deref p).session = .ref r ∧
    st.sessions.sessions[(st.profiles.deref p).handle]? = some r

structure Linked (st : Store) : Prop where
  graph : st.profiles.Graph
  linked : ∀ p, p < st.profiles.profiles.length → st.LinkedAt p
  known : ∀ k r, st.sessions.sessions[k]? = some r → k ∈ st.profiles.handles

theorem linked_empty (disk : Disk) : Linked ⟨⟨[]⟩, .empty, disk⟩ :=
  ⟨ProfileManager.graph_empty, fun p hp => by simp at hp, fun k r h => by
    simp [SessionManager.empty] at h⟩

/-- A connect links its own profile and keeps all other links. -/
theorem openSession_linked {p : ProfileRef} (hg : st.profiles.Graph)
    (hp : st.profiles.getProfileByName user = some p)
    (hothers : ∀ q, q < st.profiles.profiles.length → q ≠ p → st.LinkedAt q)
    (hself : st.LinkedAt p ∨ st.sessions.sessions[user]? = none)
    (hknown : ∀ k r, st.sessions.sessions[k]? = some r → k ∈ st.profiles.handles) :
    Linked (st.openSession p user address) := by
  obtain ⟨hlt, huser⟩ := ProfileManager.getProfileByName_some _ hp
  have hkeys : ∀ k r, (st.sessions.startSession user address).1.sessions[k]? = some r →
      k ∈ st.profiles.handles := by
    intro k r hr
    by_cases hk : k = user
    · rw [hk, ← ProfileManager.getProfileByName_isSome, hp]
      rfl
    · rw [SessionManager.startSession_keys _ _ _ hk] at hr
      exact hknown k r hr
  have hgraph : (st.openSession p user address).profiles.Graph := openSession_graph hg hp
  unfold openSession at hgraph ⊢
  split
  · next sessions r hs =>
    rw [hs] at hgraph
    have hsessions : (st.sessions.startSession user address).1 = sessions := by rw [hs]
    have hr : sessions.sessions[user]? = some r := by
      rw [← hsessions]
      exact SessionManager.startSession_ref _ _ _ (by rw [hs])
    refine ⟨hgraph, fun q hq => ?_, fun k r' hr' => ?_⟩
    · rw [ProfileManager.setSession_length] at hq
      by_cases hqp : q = p
      · refine ⟨r, ?_, ?_⟩
        · simp [ProfileManager.setSession_deref _ p hlt, hqp]
        · simp [ProfileManager.setSession_deref _ p hlt, hqp, huser, hr]
      · obtain ⟨r', hr', hs'⟩ := hothers q hq hqp
        refine ⟨r', ?_, ?_⟩
        · simpa [ProfileManager.setSession_deref _ p hlt, hqp] using hr'
        · simp only [ProfileManager.setSession_deref _ p hlt, hqp, if_false]
          rw [← hsessions]
          exact SessionManager.startSession_keeps _ _ _ hs'
    · rw [ProfileManager.setSession_handles]
      rw [← hsessions] at hr'
      exact hkeys k r' hr'
  · next sessions hs =>
    rw [hs] at hgraph
    have hnone : (st.sessions.startSession user address).2 = none := by rw [hs]
    have hsame : sessions = st.sessions := by
      rw [← SessionManager.startSession_refused _ _ _ hnone, hs]
    subst hsame
    refine ⟨hgraph, fun q hq => ?_, hknown⟩
    by_cases hqp : q = p
    · rcases hself with hl | hn
      · exact hqp ▸ hl
      · have hgranted := (st.sessions.startSession_isSome user address).mpr (by
          simp [SessionManager.getUserAddresses, hn, maxSessionsPerUser])
        simp [hnone] at hgranted
    · exact hothers q hq hqp

theorem connect_linked (h : st.Linked) : Linked (st.connect user address) := by
  unfold connect ensure
  split
  · next p hp =>
    split at hp
    · next hfresh =>
      rw [if_pos hfresh]
      have hgraph := create_graph h.graph hfresh
      rw [create_lookup hfresh] at hp
      cases hp
      have hprofiles := st.create_profiles user
      have hsessions : (st.create user).sessions = st.sessions := sync_sessions _
      have hno : st.sessions.sessions[user]? = none := by
        rw [Option.eq_none_iff_forall_ne_some]
        intro r hr
        have := h.known user r hr
        rw [← ProfileManager.getProfileByName_isSome, hfresh] at this
        cases this
      refine openSession_linked hgraph (create_lookup hfresh) (fun q hq hne => ?_)
        (.inr (by rw [hsessions, hno])) (fun k r hr => ?_)
      · rw [hprofiles, ProfileManager.newProfile_length] at hq
        obtain ⟨r, hr, hs⟩ := h.linked q (by omega)
        exact ⟨r, by simpa [hprofiles, ProfileManager.newProfile_deref, hne] using hr,
          by simpa [hprofiles, hsessions, ProfileManager.newProfile_deref, hne] using hs⟩
      · rw [hsessions] at hr
        rw [hprofiles, ProfileManager.newProfile_handles]
        exact List.mem_append_left _ (h.known k r hr)
    · next hfound =>
      rw [if_neg hfound]
      have hlt := (ProfileManager.getProfileByName_some _ hp).1
      exact openSession_linked h.graph hp (fun q hq _ => h.linked q hq) (.inl (h.linked p hlt)) h.known
  · next hp =>
    split at hp
    · next hfresh =>
      rw [create_lookup hfresh] at hp
      cases hp
    · next hfound => exact absurd hp hfound

theorem addEdge_linked {p follower : ProfileRef} (h : st.Linked)
    (hp : p < st.profiles.profiles.length) (hf : follower < st.profiles.profiles.length) :
    Linked (st.addEdge p follower) := by
  have hgraph := addEdge_graph h.graph hp hf
  unfold addEdge at hgraph ⊢
  split
  · exact h
  · next hnew =>
    rw [if_neg hnew] at hgraph
    refine ⟨hgraph, fun q hq => ?_, fun k r hr => ?_⟩
    · simp only [sync_profiles, ProfileManager.pushFollower_length] at hq
      obtain ⟨r, hr, hs⟩ := h.linked q hq
      refine ⟨r, ?_, ?_⟩
      · simpa only [sync_profiles, ProfileManager.pushFollower_session _ p hp] using hr
      · simpa only [sync_profiles, sync_sessions, ProfileManager.pushFollower_handle] using hs
    · simp only [sync_sessions, sync_profiles, ProfileManager.pushFollower_handles] at hr ⊢
      exact h.known k r hr

/-- Every packet keeps profiles and sessions linked. -/
theorem handle_linked (h : st.Linked) (message : Packet) (address : SocketAddress) :
    Linked (st.handle message address) := by
  unfold handle
  split
  · exact connect_linked h
  · split
    · unfold disconnect
      split
      · exact h
      · refine ⟨h.graph, fun p hp => ?_, fun k r hr => ?_⟩
        · obtain ⟨r, hr, hs⟩ := h.linked p hp
          exact ⟨r, hr, by simpa using hs⟩
        · exact h.known k r (by simpa using hr)
    · split
      · unfold follow
        split
        · next p follower hf => exact addEdge_linked h (followEdge_lt hf).1 (followEdge_lt hf).2
        · exact h
      · exact h

/-- Who is connected from some address has a profile. -/
theorem Linked.profile (h : st.Linked)
    (hname : st.sessions.getUserNameByAddressAndIP address = some user) :
    ∃ p, st.profiles.getProfileByName user = some p := by
  have hmem := ((SessionManager.getUserName_eq_some _ _ _).mp hname).1
  cases hr : st.sessions.sessions[user]? with
  | none => simp [SessionManager.getUserAddresses, hr] at hmem
  | some r =>
    have := (ProfileManager.getProfileByName_isSome _ _).mpr (h.known user r hr)
    exact Option.isSome_iff_exists.mp this

/-- Who has no profile has no session. -/
theorem Linked.addresses_of_none (h : st.Linked) (hnone : st.profiles.getProfileByName user = none) :
    st.sessions.getUserAddresses user = [] := by
  cases hr : st.sessions.sessions[user]? with
  | none => simp [SessionManager.getUserAddresses, hr]
  | some r =>
    have hsome := (ProfileManager.getProfileByName_isSome _ _).mpr (h.known user r hr)
    rw [hnone] at hsome
    cases hsome

end Store

end Piupiu
