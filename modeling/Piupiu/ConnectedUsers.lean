import Piupiu.UnsetSessions

/-!
# The queries for connected users

`GetConnectedUsers` and `GetConnectedSockets` walk over the profiles and look at
their pointers; `GetUserAddresses` asks the session manager. The two agree on all
profiles but the excluded one when there is one. Both queries also skip every
profile when the excluded one is null, which is their default.
-/
namespace Piupiu

namespace ProfileManager

/-- The store with a null pointer wherever no session was ever set. -/
def nulled (m : ProfileManager) : ProfileManager :=
  ⟨m.profiles.map fun profile =>
    if profile.session = .unset then { profile with session := .null } else profile⟩

/-- The sockets behind the pointer of a profile; one without a session has none. -/
def socketsOf (sessions : SessionManager) (profile : Profile) : List SocketAddress :=
  (sessions.behind profile.session).getD []

theorem behind_nulled (sessions : SessionManager) (profile : Profile) :
    sessions.behind (if profile.session = .unset then { profile with session := .null }
      else profile : Profile).session = some (socketsOf sessions profile) := by
  unfold socketsOf
  split
  · next h =>
    rw [h]
    rfl
  · next h =>
    cases hs : profile.session with
    | unset => exact absurd hs h
    | null => rfl
    | ref r => rfl

/-- Whom a scan lists among the profiles `d k`, `d (k + 1)` and so on. -/
def Scanned (sessions : SessionManager) (exclude : Option ProfileRef) (d : ProfileRef → Profile)
    (p : ProfileRef) : Prop :=
  exclude ≠ none ∧ some p ≠ exclude ∧ socketsOf sessions (d p) ≠ []

instance (sessions : SessionManager) (exclude : Option ProfileRef) (d : ProfileRef → Profile)
    (p : ProfileRef) : Decidable (Scanned sessions exclude d p) := by
  unfold Scanned
  infer_instance

theorem connectedFrom_nulled (sessions : SessionManager) (exclude : Option ProfileRef)
    (d : ProfileRef → Profile) (n k : Nat) :
    connectedFrom sessions exclude k ((List.range' k n).map fun p =>
        if (d p).session = .unset then { d p with session := .null } else d p) =
      some (((List.range' k n).filter (Scanned sessions exclude d)).map fun p =>
        ((d p).handle, socketsOf sessions (d p))) := by
  induction n generalizing k with
  | zero => rfl
  | succ n ih =>
    have hhandle : (if (d k).session = .unset then { d k with session := .null }
        else d k : Profile).handle = (d k).handle := by
      split <;> rfl
    rw [List.range'_succ, List.map_cons, connectedFrom, ih, behind_nulled, hhandle]
    cases hsockets : socketsOf sessions (d k) with
    | nil =>
      have hskip : ¬Scanned sessions exclude d k := fun h => h.2.2 hsockets
      rw [List.filter_cons_of_neg (by simpa using hskip), ite_self]
    | cons socket sockets =>
      by_cases hk : exclude ≠ none ∧ some k ≠ exclude
      · have hlist : Scanned sessions exclude d k := ⟨hk.1, hk.2, by simp [hsockets]⟩
        rw [if_pos hk, List.filter_cons_of_pos (by simpa using hlist), List.map_cons, hsockets]
        rfl
      · have hskip : ¬Scanned sessions exclude d k := fun h => hk ⟨h.1, h.2.1⟩
        rw [if_neg hk, List.filter_cons_of_neg (by simpa using hskip)]

theorem nulled_profiles (m : ProfileManager) : m.nulled.profiles =
    (List.range' 0 m.profiles.length).map fun p =>
      if (m.deref p).session = .unset then { m.deref p with session := .null } else m.deref p := by
  unfold nulled
  conv_lhs => rw [profiles_eq_range m]
  rw [List.map_map, List.range_eq_range']
  rfl

/-- The profiles that both queries list. -/
def listed (m : ProfileManager) (sessions : SessionManager) (exclude : Option ProfileRef) :
    List ProfileRef :=
  (List.range m.profiles.length).filter (Scanned sessions exclude m.deref)

theorem getConnectedUsers_nulled (m : ProfileManager) (sessions : SessionManager)
    (exclude : Option ProfileRef) : m.nulled.getConnectedUsers sessions exclude =
      some ((m.listed sessions exclude).map fun p => (m.deref p).handle) := by
  rw [getConnectedUsers, nulled_profiles, connectedFrom_nulled, Option.map_some, List.map_map,
    listed, List.range_eq_range']
  rfl

theorem getConnectedSockets_nulled (m : ProfileManager) (sessions : SessionManager)
    (exclude : Option ProfileRef) : m.nulled.getConnectedSockets sessions exclude =
      some ((m.listed sessions exclude).flatMap fun p => socketsOf sessions (m.deref p)) := by
  rw [getConnectedSockets, nulled_profiles, connectedFrom_nulled, Option.map_some, List.flatMap_map,
    listed, List.range_eq_range']

end ProfileManager

namespace Store

/-- Only the first profile with a handle has a session, and it is the one that is
stored for the handle. -/
structure Paired (st : Store) : Prop where
  ofProfile : ∀ p, p < st.profiles.profiles.length → ∀ r, (st.profiles.deref p).session = .ref r →
    st.profiles.getProfileByName (st.profiles.deref p).handle = some p ∧
      st.sessions.sessions[(st.profiles.deref p).handle]? = some r
  ofSession : ∀ (user : Str) (r : SessionRef), st.sessions.sessions[user]? = some r →
    ∃ p, st.profiles.getProfileByName user = some p ∧ (st.profiles.deref p).session = .ref r

variable {st : Store}

theorem Unvisited.paired (h : st.Unvisited) : st.Paired := by
  constructor
  · intro p hp r hr
    rw [h.loaded.unset _ (st.profiles.deref_mem p hp)] at hr
    cases hr
  · intro user r hr
    rw [h.nobody user] at hr
    cases hr

theorem Paired.create (h : st.Paired) {user : Str} : (st.create user).Paired := by
  have hsessions : (st.create user).sessions = st.sessions := sync_sessions _
  have hkeep : ∀ {u : Str} {p : ProfileRef}, st.profiles.getProfileByName u = some p →
      (st.profiles.newProfile user).getProfileByName u = some p := by
    intro u p hp
    rw [ProfileManager.getProfileByName_newProfile, hp, Option.some_or]
  constructor
  · intro p hp r hr
    rw [create_profiles, ProfileManager.newProfile_length] at hp
    rw [create_profiles, ProfileManager.newProfile_deref] at hr ⊢
    by_cases hnew : p = st.profiles.profiles.length
    · rw [if_pos hnew] at hr
      cases hr
    · rw [if_neg hnew] at hr ⊢
      have hlt : p < st.profiles.profiles.length :=
        Nat.lt_of_le_of_ne (Nat.le_of_lt_succ hp) hnew
      obtain ⟨hfirst, hs⟩ := h.ofProfile p hlt r hr
      exact ⟨hkeep hfirst, hsessions ▸ hs⟩
  · intro u r hr
    rw [hsessions] at hr
    obtain ⟨p, hp, hs⟩ := h.ofSession u r hr
    have hlt := (ProfileManager.getProfileByName_some _ hp).1
    refine ⟨p, by rw [create_profiles]; exact hkeep hp, ?_⟩
    rw [create_profiles, ProfileManager.newProfile_deref, if_neg (Nat.ne_of_lt hlt)]
    exact hs

theorem Paired.openSession (h : st.Paired) {user : Str} {p : ProfileRef} (address : SocketAddress)
    (hp : st.profiles.getProfileByName user = some p) : (st.openSession p user address).Paired := by
  obtain ⟨hlt, huser⟩ := ProfileManager.getProfileByName_some _ hp
  unfold Store.openSession
  split
  · next sessions r hs =>
    have hsessions : (st.sessions.startSession user address).1 = sessions := by rw [hs]
    have hr : sessions.sessions[user]? = some r := by
      rw [← hsessions]
      exact SessionManager.startSession_ref _ _ _ (by rw [hs])
    have hname : ∀ u, (st.profiles.setSession p (.ref r)).getProfileByName u =
        st.profiles.getProfileByName u := fun u =>
      ProfileManager.getProfileByName_congr _ u (ProfileManager.setSession_handles _ _ _)
    constructor
    · intro q hq r' hr'
      rw [ProfileManager.setSession_length] at hq
      simp only [hname, ProfileManager.setSession_deref _ p hlt] at hr' ⊢
      by_cases hqp : q = p
      · rw [if_pos hqp] at hr' ⊢
        cases hr'
        rw [hqp]
        exact ⟨by simpa only [huser] using hp, by simpa only [huser] using hr⟩
      · rw [if_neg hqp] at hr' ⊢
        obtain ⟨hfirst, hs'⟩ := h.ofProfile q hq r' hr'
        refine ⟨hfirst, ?_⟩
        rw [← hsessions]
        exact SessionManager.startSession_keeps _ _ _ hs'
    · intro u r' hr'
      simp only [hname, ProfileManager.setSession_deref _ p hlt]
      by_cases hu : u = user
      · subst hu
        rw [hr] at hr'
        cases hr'
        exact ⟨p, hp, by rw [if_pos rfl]⟩
      · rw [← hsessions, SessionManager.startSession_keys _ _ _ hu] at hr'
        obtain ⟨q, hq, hs'⟩ := h.ofSession u r' hr'
        have hne : q ≠ p := by
          rintro rfl
          exact hu ((ProfileManager.getProfileByName_some _ hq).2.symm.trans huser)
        exact ⟨q, hq, by rwa [if_neg hne]⟩
  · next sessions hs =>
    have hnone : (st.sessions.startSession user address).2 = none := by rw [hs]
    have hsame : sessions = st.sessions := by
      rw [← SessionManager.startSession_refused _ _ _ hnone, hs]
    rw [hsame]
    exact h

theorem Paired.addEdge (h : st.Paired) {p : ProfileRef} (hp : p < st.profiles.profiles.length)
    (follower : ProfileRef) : (st.addEdge p follower).Paired := by
  unfold Store.addEdge
  split
  · exact h
  · have hname : ∀ u, (st.profiles.pushFollower p follower).1.getProfileByName u =
        st.profiles.getProfileByName u := fun u =>
      ProfileManager.getProfileByName_congr _ u (ProfileManager.pushFollower_handles _ _ _)
    constructor
    · intro q hq r hr
      simp only [sync_profiles, sync_sessions, ProfileManager.pushFollower_length, hname,
        ProfileManager.pushFollower_session _ p hp, ProfileManager.pushFollower_handle] at hq hr ⊢
      exact h.ofProfile q hq r hr
    · intro u r hr
      simp only [sync_profiles, sync_sessions, hname] at hr ⊢
      obtain ⟨q, hq, hs⟩ := h.ofSession u r hr
      exact ⟨q, hq, by rw [ProfileManager.pushFollower_session _ p hp]; exact hs⟩

theorem change_paired {message : Packet} {st' : Store} (hc : Change message st st')
    (h : st.Paired) : st'.Paired := by
  cases hc with
  | create htype fresh => exact h.create
  | openSession p address hp => exact h.openSession address hp
  | endSession p address hp =>
    constructor
    · intro q hq r hr
      obtain ⟨hfirst, hs⟩ := h.ofProfile q hq r hr
      exact ⟨hfirst, by rw [SessionManager.endSession_sessions]; exact hs⟩
    · intro u r hr
      rw [SessionManager.endSession_sessions] at hr
      exact h.ofSession u r hr
  | addEdge p follower hp hf => exact h.addEdge hp follower

/-- What a profile shows of its sessions: the addresses of its handle if it is the
first with it. -/
theorem Paired.socketsOf (h : st.Paired) {p : ProfileRef} (hp : p < st.profiles.profiles.length) :
    ProfileManager.socketsOf st.sessions (st.profiles.deref p) =
      if st.profiles.getProfileByName (st.profiles.deref p).handle = some p then
        st.sessions.getUserAddresses (st.profiles.deref p).handle
      else [] := by
  unfold ProfileManager.socketsOf
  by_cases hr : ∃ r, (st.profiles.deref p).session = .ref r
  · obtain ⟨r, hr⟩ := hr
    obtain ⟨hfirst, hs⟩ := h.ofProfile p hp r hr
    rw [if_pos hfirst, SessionManager.getUserAddresses_of_ref _ hs, hr]
    rfl
  · have hempty : (st.sessions.behind (st.profiles.deref p).session).getD [] = [] := by
      cases hs : (st.profiles.deref p).session with
      | unset => rfl
      | null => rfl
      | ref r => exact absurd ⟨r, hs⟩ hr
    rw [hempty]
    split
    · next hfirst =>
      cases hs : st.sessions.sessions[(st.profiles.deref p).handle]? with
      | none => simp [SessionManager.getUserAddresses, hs]
      | some r =>
        obtain ⟨q, hq, hset⟩ := h.ofSession _ r hs
        rw [hfirst] at hq
        cases hq
        exact absurd ⟨r, hset⟩ hr
    · rfl

/-- The profiles other than the excluded one whose handle has addresses. -/
def connected (st : Store) (exclude : Option ProfileRef) : List ProfileRef :=
  (List.range st.profiles.profiles.length).filter fun p =>
    some p ≠ exclude ∧ st.sessions.getUserAddresses (st.profiles.deref p).handle ≠ []

/-- Both queries give what the session manager has for the connected profiles. -/
structure Matches (st : Store) (exclude : Option ProfileRef) : Prop where
  users : st.profiles.nulled.getConnectedUsers st.sessions exclude =
    some ((st.connected exclude).map fun p => (st.profiles.deref p).handle)
  sockets : st.profiles.nulled.getConnectedSockets st.sessions exclude =
    some ((st.connected exclude).flatMap fun p =>
      st.sessions.getUserAddresses (st.profiles.deref p).handle)

/-- There is a profile to exclude or nobody is connected, and no connected profile
has its handle from an earlier one. -/
def Distinguished (st : Store) (exclude : Option ProfileRef) : Prop :=
  (exclude ≠ none ∨ st.connected none = []) ∧
    ∀ p ∈ st.connected exclude, st.profiles.getProfileByName (st.profiles.deref p).handle = some p

/-- The listed profiles are those of the connected ones that are first with their
handle, if there is a profile to exclude. -/
theorem Paired.listed (h : st.Paired) (exclude : Option ProfileRef) :
    st.profiles.listed st.sessions exclude = (st.connected exclude).filter fun p =>
      exclude ≠ none ∧ st.profiles.getProfileByName (st.profiles.deref p).handle = some p := by
  rw [ProfileManager.listed, connected, List.filter_filter]
  refine List.filter_congr fun p hp => ?_
  have hsockets := h.socketsOf (List.mem_range.mp hp)
  rw [← Bool.decide_and, decide_eq_decide, ProfileManager.Scanned, hsockets]
  split
  · next hfirst => simp only [hfirst, and_true]
  · next hfirst => simp only [hfirst, and_false, ne_eq, not_true_eq_false, false_and]

theorem Paired.matches_iff (h : st.Paired) (exclude : Option ProfileRef) :
    st.Matches exclude ↔ st.Distinguished exclude := by
  have hall : st.profiles.listed st.sessions exclude = st.connected exclude ↔
      st.Distinguished exclude := by
    rw [h.listed, List.filter_eq_self]
    simp only [decide_eq_true_eq, Distinguished]
    constructor
    · intro hlisted
      refine ⟨or_iff_not_imp_left.mpr fun hnone => ?_, fun p hp => (hlisted p hp).2⟩
      rw [not_not] at hnone
      subst hnone
      exact List.eq_nil_iff_forall_not_mem.mpr fun p hp => (hlisted p hp).1 rfl
    · rintro ⟨hexclude, hfirst⟩ p hp
      refine ⟨fun hnone => ?_, hfirst p hp⟩
      subst hnone
      rw [hexclude.resolve_left (not_not.mpr rfl)] at hp
      cases hp
  rw [← hall]
  constructor
  · intro hmatches
    have hlength := congrArg List.length (Option.some.inj
      ((ProfileManager.getConnectedUsers_nulled _ _ _).symm.trans hmatches.users))
    rw [List.length_map, List.length_map, h.listed] at hlength
    rw [h.listed]
    exact List.filter_sublist.eq_of_length hlength
  · intro hsame
    have hscan : ∀ p ∈ st.connected exclude,
        ProfileManager.socketsOf st.sessions (st.profiles.deref p) =
          st.sessions.getUserAddresses (st.profiles.deref p).handle := by
      intro p hp
      have hlt := List.mem_range.mp (List.mem_filter.mp hp).1
      rw [h.socketsOf hlt, if_pos ((hall.mp hsame).2 p hp)]
    constructor
    · rw [ProfileManager.getConnectedUsers_nulled, hsame]
    · rw [ProfileManager.getConnectedSockets_nulled, hsame, List.flatMap_congr hscan]

end Store

namespace Server

theorem serve_paired {s : Server} (h : s.store.Paired) (arrivals : List Arrival) :
    (s.serve arrivals).store.Paired := by
  induction arrivals using List.reverseRecOn with
  | nil => exact h
  | append_singleton arrivals a ih =>
    rw [serve_concat, (handle_ended _ _ _ _).store]
    exact Store.handle_keeps (fun _ _ hc hp => Store.change_paired hc hp) ih

/-- After any packets both queries match the sessions exactly when there is a profile
to exclude or nobody is connected, and no connected profile has its handle from an
earlier one. -/
theorem connected_queries_iff (thisPeer : Peer) (peers : List Peer) (writable : Bool)
    {file : Option Str} {numProfiles r : Int} {profiles : ProfileManager}
    (hread : ProfileManager.readProfilesFromFile file numProfiles = .ok (profiles, r))
    (arrivals : List Arrival) (exclude : Option ProfileRef) :
    ((new thisPeer peers ⟨writable, file⟩ profiles).serve arrivals).store.Matches exclude ↔
      ((new thisPeer peers ⟨writable, file⟩ profiles).serve arrivals).store.Distinguished exclude := by
  have hunvisited : (new thisPeer peers ⟨writable, file⟩ profiles).store.Unvisited := by
    refine ⟨fun user => ?_, ProfileManager.read_loaded hread⟩
    simp [new, store, SessionManager.empty]
  exact (serve_paired hunvisited.paired arrivals).matches_iff exclude

/-- Two users connect, and the second one is excluded. -/
theorem connected_queries_of_other : (alone.serve
    [⟨0, clientPacket packetConnectCmd 0 [97], ⟨[], 1⟩⟩,
      ⟨0, clientPacket packetConnectCmd 0 [98], ⟨[], 2⟩⟩]).store.Matches (some 1) := by
  have hread : ProfileManager.readProfilesFromFile none 0 = .ok (⟨[]⟩, 0) := rfl
  refine (connected_queries_iff ⟨[], 0, true⟩ [] true hread _ (some 1)).mpr ⟨.inl nofun, ?_⟩
  decide +kernel

/-- With nobody excluded the user that is connected is not listed. -/
theorem connected_queries_of_none : ¬(alone.serve
    [⟨0, clientPacket packetConnectCmd 0 [97], ⟨[], 1⟩⟩]).store.Matches none := by
  rintro ⟨husers, -⟩
  exact absurd husers (by decide +kernel)

end Server

end Piupiu
