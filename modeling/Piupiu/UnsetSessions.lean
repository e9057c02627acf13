import Piupiu.Connect
import Piupiu.Notifications

/-!
# Sessions that were never set

The constructor that the file reader and `NewProfile` use leaves `session` as it
finds it, and the scans over all profiles look at it. The first CONNECT sets the
session of its own profile and then scans the others: with none but its own
profile in the file every pointer is set from then on, with any other one the
scan reads a pointer that nobody wrote.
-/
namespace Piupiu

namespace ProfileManager

/-- Profiles as the file reader leaves them. -/
structure Loaded (m : ProfileManager) : Prop extends m.KnownFollowers where
  unset : ∀ profile ∈ m.profiles, profile.session = .unset

theorem loaded_empty : (⟨[]⟩ : ProfileManager).Loaded :=
  ⟨graph_empty.knownFollowers, fun profile hp => by cases hp⟩

theorem newProfile_loaded (m : ProfileManager) (name : Str) (h : m.Loaded) :
    (m.newProfile name).Loaded := by
  refine ⟨knownFollowers_newProfile h.toKnownFollowers, fun profile hp => ?_⟩
  obtain hm | hm := List.mem_append.mp hp
  · exact h.unset profile hm
  · rw [List.mem_singleton.mp hm]

theorem addFollower_loaded (m : ProfileManager) (p : ProfileRef) (user : Str)
    (hp : p < m.profiles.length) (h : m.Loaded) : (m.addFollower p user).1.Loaded := by
  unfold addFollower
  cases hfind : m.getProfileByName user with
  | none => exact h
  | some follower =>
    have hf := (getProfileByName_some m hfind).1
    refine ⟨knownFollowers_pushFollower h.toKnownFollowers hp hf, fun profile hm => ?_⟩
    obtain ⟨q, hq, rfl⟩ := exists_deref _ hm
    rw [pushFollower_length] at hq
    rw [pushFollower_session m p hp]
    exact h.unset (m.deref q) (m.deref_mem q hq)

theorem read_loaded {file : Option Str} {numProfiles r : Int} {m : ProfileManager}
    (h : readProfilesFromFile file numProfiles = .ok (m, r)) : m.Loaded :=
  read_keeps loaded_empty newProfile_loaded addFollower_loaded h

end ProfileManager

namespace Store

/-- Nobody has connected since the profiles were read. -/
structure Unvisited (st : Store) : Prop where
  nobody : ∀ user : Str, st.sessions.sessions[user]? = none
  loaded : st.profiles.Loaded

variable {st : Store}

theorem Unvisited.caller (h : st.Unvisited) (address : SocketAddress) :
    st.sessions.getUserNameByAddressAndIP address = none := by
  rw [Option.eq_none_iff_forall_ne_some]
  intro user huser
  have hm := ((SessionManager.getUserName_eq_some _ _ _).mp huser).1
  simp [SessionManager.getUserAddresses, h.nobody user] at hm

/-- No packet but a CONNECT does anything as long as nobody has connected. -/
theorem Unvisited.handle (h : st.Unvisited) {message : Packet} (address : SocketAddress)
    (htype : message.type ≠ packetConnectCmd) : (st.handle message address).Unvisited := by
  by_cases hd : message.type = packetDisconnectCmd
  · rw [handle_disconnect hd, disconnect]
    split
    · exact h
    · refine ⟨fun user => ?_, h.loaded⟩
      rw [SessionManager.endSession_sessions]
      exact h.nobody user
  by_cases hf : message.type = packetFollowCmd
  · have hedge : st.followEdge message.text address = none := by
      simp only [followEdge, h.caller address]
    rw [handle_follow hf, follow, hedge]
    exact h
  · rwa [handle_other htype hd hf]

theorem Unvisited.ensure (h : st.Unvisited) (user : Str) : (st.ensure user).Unvisited := by
  unfold Store.ensure
  split
  · refine ⟨fun k => ?_, ?_⟩
    · have hsessions : (st.create user).sessions = st.sessions := sync_sessions _
      rw [hsessions]
      exact h.nobody k
    · rw [create_profiles]
      exact ProfileManager.newProfile_loaded _ user h.loaded
  · exact h

/-- The first CONNECT links the store when there is no profile but its own. -/
theorem Unvisited.connect (h : st.Unvisited) {user : Str} (address : SocketAddress)
    (hown : st.profiles.handles = [] ∨ st.profiles.handles = [user]) :
    (st.connect user address).Linked := by
  have hgraph : st.profiles.Graph := by
    refine ⟨?_, h.loaded.known, h.loaded.once⟩
    obtain he | he := hown <;> simp [he]
  have hhandles : (st.ensure user).profiles.handles = [user] := by
    rw [ensure_handles]
    obtain he | he := hown <;> simp [he]
  have hensured : (st.ensure user).profiles.Graph := by
    unfold Store.ensure
    split
    · next hfresh => exact create_graph hgraph hfresh
    · exact hgraph
  obtain ⟨p, hp⟩ := st.ensure_lookup user
  have hlt := (ProfileManager.getProfileByName_some _ hp).1
  have hlength : (st.ensure user).profiles.profiles.length = 1 := by
    rw [← ProfileManager.handles_length, hhandles]
    rfl
  have hnobody := (h.ensure user).nobody
  rw [Store.connect, hp]
  refine openSession_linked hensured hp (fun q hq hne => ?_) (.inr (hnobody user)) fun k r hr => ?_
  · rw [hlength, Nat.lt_one_iff] at hq hlt
    exact absurd (hq.trans hlt.symm) hne
  · rw [hnobody k] at hr
    cases hr

end Store

namespace Server

/-- A CONNECT that is the first of all finds no profile but its own. -/
def OnlyOwn (s : Server) (message : Packet) (_ : SocketAddress) : Prop :=
  message.type = packetConnectCmd → (∀ user : Str, s.sessionManager.sessions[user]? = none) →
    s.profileManager.handles = [] ∨ s.profileManager.handles = [message.text]

/-- Nobody has connected yet, or all is linked. -/
def Visited (s : Server) : Prop := s.store.Unvisited ∨ s.store.Linked

theorem visited_ready {s₀ : Server} {message : Packet} {address : SocketAddress}
    (hok : s₀.OnlyOwn message address) (h : s₀.Visited) : s₀.Ready message address := by
  obtain h | h := h
  · have hcaller : s₀.sessionManager.getUserNameByAddressAndIP address = none := h.caller address
    constructor
    · rintro (htype | ⟨username, hname⟩)
      · rw [Store.handle_connect htype]
        exact h.connect address (hok htype h.nobody)
      · rw [hcaller] at hname
        cases hname
    · intro username hname
      rw [hcaller] at hname
      cases hname
  · exact ready_of_linked h message address

theorem visited_handle {s₀ : Server} {message : Packet} {address : SocketAddress}
    (hok : s₀.OnlyOwn message address) (h : s₀.Visited) :
    (s₀.store.handle message address).Unvisited ∨ (s₀.store.handle message address).Linked := by
  obtain h | h := h
  · by_cases htype : message.type = packetConnectCmd
    · rw [Store.handle_connect htype]
      exact .inr (h.connect address (hok htype h.nobody))
    · exact .inl (h.handle address htype)
  · exact .inr (Store.handle_linked h message address)

theorem visited_preserved : Preserves OnlyOwn Visited Healthy where
  stable s s' h hr := by
    unfold Visited
    rwa [hr.store]
  ended s₀ s message address hok h _ hend := by
    unfold Visited
    rw [hend.store]
    exact visited_handle hok h
  step _ _ _ _ _ _ hok h₀ _ h hstep := step_healthy (visited_ready hok h₀) h hstep
  worker _ now h := worker_healthy h now

/-- Every scan over the profiles looks at pointers that were set. -/
def Scannable (s : Server) : Prop := ∀ exclude : Option ProfileRef,
  (s.profileManager.getConnectedUsers s.sessionManager exclude).isSome ∧
  (s.profileManager.getConnectedSockets s.sessionManager exclude).isSome

theorem scannable_of_linked {s : Server} (h : s.store.Linked) : s.Scannable := by
  have hset : ∀ profile ∈ s.profileManager.profiles, profile.session ≠ .unset := by
    intro profile hm
    obtain ⟨p, hp, rfl⟩ := s.profileManager.exists_deref hm
    obtain ⟨r, hr, -⟩ := h.linked p hp
    intro he
    cases hr.symm.trans he
  intro exclude
  have hscan := ProfileManager.connectedFrom_isSome s.sessionManager exclude 0 _ hset
  constructor
  · rw [ProfileManager.getConnectedUsers, Option.isSome_map]
    exact hscan
  · rw [ProfileManager.getConnectedSockets, Option.isSome_map]
    exact hscan

/-- From a saved file, in a run in which the first CONNECT finds no profile but its
own, no session is read before it is set; and once somebody has connected every
scan between two packets is sound. -/
theorem no_unset_session_read (thisPeer : Peer) (peers : List Peer) (writable : Bool)
    (saved : ProfileManager) {numProfiles r : Int} {profiles : ProfileManager}
    (hread : ProfileManager.readProfilesFromFile (some saved.sync) numProfiles = .ok (profiles, r))
    {moves : List Move}
    (hown : Admits OnlyOwn (new thisPeer peers ⟨writable, some saved.sync⟩ profiles) moves) :
    .fault .unsetSession ∉
      ((new thisPeer peers ⟨writable, some saved.sync⟩ profiles).run moves).shared.log ∧
    (((new thisPeer peers ⟨writable, some saved.sync⟩ profiles).run moves).idle = true →
      (∃ user : Str, ((new thisPeer peers ⟨writable, some saved.sync⟩ profiles).run
        moves).shared.sessionManager.sessions[user]? ≠ none) →
      ((new thisPeer peers ⟨writable, some saved.sync⟩ profiles).run moves).shared.Scannable) := by
  have hloaded := ProfileManager.read_loaded hread
  have hvisited : (new thisPeer peers ⟨writable, some saved.sync⟩ profiles).Visited := by
    refine .inl ⟨fun user => ?_, hloaded⟩
    simp [new, store, SessionManager.empty]
  have hrun := run_tracked visited_preserved hvisited
    ⟨by simp [new], by simp [new], by simp [new]⟩ hown
  constructor
  · intro hf
    obtain he | ⟨he, -⟩ | ⟨he, -⟩ := hrun.holds.faults _ hf <;> cases he
  · rintro hidle ⟨user, huser⟩
    obtain h | h := hrun.rest WorkerRely.refl hidle
    · exact absurd (h.nobody user) huser
    · exact scannable_of_linked h

theorem admits_handling {Ok : Server → Packet → SocketAddress → Prop} {s : Server}
    {message : Packet} {address : SocketAddress} (n : Nat) (h : Ok s message address) :
    Admits Ok s (handling n message address) := by
  intro i now message' address' hi _
  cases i with
  | zero =>
    cases hi
    exact h
  | succ i =>
    obtain ⟨-, he⟩ := List.mem_replicate.mp (List.mem_of_getElem? (l := List.replicate n Move.advance) hi)
    cases he

/-- Profiles that nobody has connected to since they were saved. -/
def savedUsers (handles : List Str) : ProfileManager :=
  ⟨handles.map fun handle => ⟨handle, [], .unset⟩⟩

/-- A server that was started from the file of these profiles. -/
def restarted (handles : List Str) : Server :=
  new ⟨[], 0, true⟩ [] ⟨true, some (savedUsers handles).sync⟩ (savedUsers handles)

/-- The only user of the file connects. -/
theorem no_unset_session_read_of_one : .fault .unsetSession ∉
    ((restarted [[97]]).run (handling 32 (clientPacket packetConnectCmd 0 [97]) ⟨[], 1⟩)).shared.log := by
  have hread : ProfileManager.readProfilesFromFile (some (savedUsers [[97]]).sync) 0 =
      .ok (savedUsers [[97]], 1) := rfl
  have hown : (restarted [[97]]).OnlyOwn (clientPacket packetConnectCmd 0 [97]) ⟨[], 1⟩ :=
    fun _ _ => .inr (by decide +kernel)
  exact (no_unset_session_read ⟨[], 0, true⟩ [] true _ hread (admits_handling 32 hown)).1

/-- One of the two users of the file connects, and the session of the other one is
read, which nobody has set. -/
theorem unset_session_read_of_two :
    ProfileManager.readProfilesFromFile (some (savedUsers [[97], [98]]).sync) 0 =
      .ok (savedUsers [[97], [98]], 2) ∧
    .fault .unsetSession ∈ ((restarted [[97], [98]]).run
      (handling 32 (clientPacket packetConnectCmd 0 [97]) ⟨[], 1⟩)).shared.log :=
  ⟨rfl, by decide +kernel⟩

/-- The first CONNECT reads a session that was never set as soon as there is any
profile but its own. -/
theorem unset_session_read {s : Server} (h : s.store.Unvisited) (now : UInt64) {message : Packet}
    (address : SocketAddress) (htype : message.type = packetConnectCmd)
    (hother : ¬s.OnlyOwn message address) :
    .fault .unsetSession ∈ (s.handle now message address).log := by
  obtain ⟨p, hp, he⟩ := handle_connect s now address htype
  have hensured := h.ensure message.text
  have hlt := (ProfileManager.getProfileByName_some _ hp).1
  have htwo : 2 ≤ (s.store.ensure message.text).profiles.profiles.length := by
    rw [← ProfileManager.handles_length, Store.ensure_handles]
    have hhandles : ¬(s.store.profiles.handles = [] ∨ s.store.profiles.handles = [message.text]) :=
      fun hown => hother fun _ _ => hown
    generalize s.store.profiles.handles = handles at hhandles
    match handles with
    | [] => exact absurd (.inl rfl) hhandles
    | [x] =>
      have hne : message.text ≠ x := fun hx => hhandles (.inr (by rw [hx]))
      simp [hne]
    | x :: y :: rest => split <;> simp
  obtain ⟨q, hq, hne⟩ : ∃ q, q < (s.store.ensure message.text).profiles.profiles.length ∧ q ≠ p := by
    by_cases hp0 : p = 0
    · exact ⟨1, htwo, by rw [hp0]; exact Nat.one_ne_zero⟩
    · exact ⟨0, Nat.lt_of_lt_of_le Nat.two_pos htwo, Ne.symm hp0⟩
  have hgranted := ((s.store.ensure message.text).sessions.startSession_isSome message.text
    address).mpr (by simp [SessionManager.getUserAddresses, hensured.nobody, maxSessionsPerUser])
  have hunset : (((s.store.ensure message.text).openSession p message.text address).profiles.deref
      q).session = .unset := by
    unfold Store.openSession
    split
    · rw [ProfileManager.setSession_deref _ p hlt, if_neg hne]
      exact hensured.loaded.unset _ (ProfileManager.deref_mem _ q hq)
    · exact hensured.loaded.unset _ (ProfileManager.deref_mem _ q hq)
  have hscan : scanEvents ((s.store.ensure message.text).openSession p message.text address) p =
      [.fault .unsetSession] := by
    have hq' : q < ((s.store.ensure message.text).openSession p message.text
        address).profiles.profiles.length := by
      rw [← ProfileManager.handles_length, Store.openSession_handles,
        ProfileManager.handles_length]
      exact hq
    rw [scanEvents, ProfileManager.getConnectedUsers, ProfileManager.connectedFrom_unset _ p
      (ProfileManager.deref_eq _ q hq') hunset (by omega)]
    rfl
  have hlog := replicated_log now { s.withStore (s.store.handle message address) with
    log := s.log ++ .started message address ::
      admitEvents (s.store.ensure message.text) p message.text address } message address
  rw [he]
  refine hlog.subset ?_
  simp [admitEvents, hgranted, hscan]

end Server

end Piupiu
