import Piupiu.SessionViews
import Piupiu.FollowGraph
import Piupiu.Microblog

/-!
# The store as a microblog

What of the profiles and the sessions can be seen from outside: a user is there once
the pointer of its profile is set, its devices are the sockets behind this pointer,
and its followers go by their handles. A packet does to this view what its request
does to a microblog.
-/
namespace Piupiu

abbrev ServerBlog := Microblog Str SocketAddress Str

/-- Users, devices and followers. -/
structure View where
  users : Set Str
  devices : Str → List SocketAddress
  followers : Str → List Str

def Microblog.view (b : ServerBlog) : View := ⟨b.users, b.devices, b.followers⟩

/-- What a packet asks for; the other packets ask for nothing that can be seen. -/
def Packet.request? (message : Packet) : Option (Request Str Str) :=
  if message.type = packetConnectCmd then some (.connect message.text)
  else if message.type = packetDisconnectCmd then some (.disconnect message.text)
  else if message.type = packetFollowCmd then some (.follow message.text)
  else if message.type = packetSendCmd then some (.send message.text)
  else none

theorem request_connect {message : Packet} {u : Str} : message.request? = some (.connect u) ↔
    message.type = packetConnectCmd ∧ message.text = u := by
  unfold Packet.request?
  split_ifs <;> simp_all

theorem request_follow {message : Packet} {u : Str} : message.request? = some (.follow u) ↔
    message.type = packetFollowCmd ∧ message.text = u := by
  unfold Packet.request?
  split_ifs <;> simp_all [packetConnectCmd, packetDisconnectCmd, packetFollowCmd]

theorem request_send {message : Packet} {body : Str} : message.request? = some (.send body) ↔
    message.type = packetSendCmd ∧ message.text = body := by
  unfold Packet.request?
  split_ifs <;> simp_all [packetConnectCmd, packetDisconnectCmd, packetFollowCmd, packetSendCmd]

/-- The effect of a packet on a microblog. -/
noncomputable def Microblog.packet (b : ServerBlog) (message : Packet) (address : SocketAddress) :
    ServerBlog :=
  match message.request? with
  | some r => b.request maxSessionsPerUser address r
  | none => b

namespace Store

def users (st : Store) : Set Str :=
  {u | ∃ p r, st.profiles.getProfileByName u = some p ∧ (st.profiles.deref p).session = .ref r}

def devices (st : Store) (u : Str) : List SocketAddress :=
  match st.profiles.getProfileByName u with
  | some p => (st.sessions.behind (st.profiles.deref p).session).getD []
  | none => []

def followerNames (st : Store) (u : Str) : List Str :=
  match st.profiles.getProfileByName u with
  | some p => (st.profiles.deref p).followers.map fun f => (st.profiles.deref f).handle
  | none => []

def view (st : Store) : View := ⟨st.users, st.devices, st.followerNames⟩

variable {st : Store}

theorem sync_view (st : Store) : st.sync.view = st.view := by
  unfold sync
  split <;> rfl

theorem LinkedAt.devices {u : Str} {p : ProfileRef} (hp : st.profiles.getProfileByName u = some p)
    (h : st.LinkedAt p) : st.devices u = st.sessions.getUserAddresses u := by
  obtain ⟨r, hr, hs⟩ := h
  rw [(ProfileManager.getProfileByName_some _ hp).2] at hs
  rw [SessionManager.getUserAddresses_of_ref _ hs, Store.devices, hp]
  simp only [hr]
  rfl

theorem Linked.devices (h : st.Linked) (u : Str) :
    st.devices u = st.sessions.getUserAddresses u := by
  cases hp : st.profiles.getProfileByName u with
  | some p =>
    exact (h.linked p (ProfileManager.getProfileByName_some _ hp).1).devices hp
  | none =>
    rw [h.addresses_of_none hp]
    simp only [Store.devices, hp]

theorem Linked.users (h : st.Linked) : st.users = {u | u ∈ st.profiles.handles} := by
  ext u
  rw [Set.mem_ofPred_eq, ← ProfileManager.getProfileByName_isSome]
  constructor
  · rintro ⟨p, r, hp, -⟩
    rw [hp]
    rfl
  · intro hu
    obtain ⟨p, hp⟩ := Option.isSome_iff_exists.mp hu
    obtain ⟨r, hr, -⟩ := h.linked p (ProfileManager.getProfileByName_some _ hp).1
    exact ⟨p, r, hp, hr⟩

/-- Profiles that are added at the end, and followers that stay, leave the names of the
followers as they are. -/
theorem followerNames_grow {st' : Store} (hgraph : st.profiles.Graph)
    (hhandles : st.profiles.handles <+: st'.profiles.handles)
    (hfollowers : ∀ q, (st'.profiles.deref q).followers = (st.profiles.deref q).followers) :
    st'.followerNames = st.followerNames := by
  funext u
  obtain ⟨more, hmore⟩ := hhandles
  have hkept : ∀ f < st.profiles.profiles.length,
      (st'.profiles.deref f).handle = (st.profiles.deref f).handle := by
    intro f hf
    rw [ProfileManager.deref_handle, ProfileManager.deref_handle, ← hmore, List.getD_append]
    rwa [ProfileManager.handles_length]
  simp only [followerNames, ProfileManager.getProfileByName_handles, ← hmore, List.findIdx?_append]
  cases hp : st.profiles.handles.findIdx? (· = u) with
  | some p =>
    rw [← ProfileManager.getProfileByName_handles] at hp
    have hlt := (ProfileManager.getProfileByName_some _ hp).1
    simp only [Option.some_or, hfollowers]
    refine List.map_congr_left fun f hf => hkept f (hgraph.known p hlt f hf)
  | none =>
    simp only [Option.none_or]
    cases hq : more.findIdx? (· = u) with
    | none => rfl
    | some q =>
      have hnew : st.profiles.deref (q + st.profiles.handles.length) = default := by
        simp [ProfileManager.deref]
      simp only [Option.map_some, hfollowers, hnew]
      rfl

/-- Who follows a user by name follows it by pointer. -/
theorem mem_followerNames (hgraph : st.profiles.Graph) {u v : Str} {p f : ProfileRef}
    (hp : st.profiles.getProfileByName u = some p) (hf : st.profiles.getProfileByName v = some f) :
    v ∈ st.followerNames u ↔ f ∈ (st.profiles.deref p).followers := by
  obtain ⟨hlt, hv⟩ := ProfileManager.getProfileByName_some _ hf
  simp only [followerNames, hp, List.mem_map]
  constructor
  · rintro ⟨g, hg, he⟩
    have hg' := hgraph.known p (ProfileManager.getProfileByName_some _ hp).1 g hg
    have hlookup := st.profiles.getProfileByName_deref g hgraph.distinct hg'
    rw [he, hf] at hlookup
    cases hlookup
    exact hg
  · exact fun hm => ⟨f, hm, hv⟩

/-- A new edge shows as a new name at the end of one list. -/
theorem followerNames_push {u v : Str} {p f : ProfileRef}
    (hp : st.profiles.getProfileByName u = some p) (hf : st.profiles.getProfileByName v = some f)
    (hnew : f ∉ (st.profiles.deref p).followers) :
    ({ st with profiles := (st.profiles.pushFollower p f).1 } : Store).followerNames =
      Function.update st.followerNames u (st.followerNames u ++ [v]) := by
  obtain ⟨hlt, hu⟩ := ProfileManager.getProfileByName_some _ hp
  have hv := (ProfileManager.getProfileByName_some _ hf).2
  funext w
  have hname : (st.profiles.pushFollower p f).1.getProfileByName w = st.profiles.getProfileByName w :=
    ProfileManager.getProfileByName_congr _ _ (ProfileManager.pushFollower_handles _ _ _)
  simp only [followerNames, hname, ProfileManager.pushFollower_handle]
  by_cases hw : w = u
  · subst hw
    rw [Function.update_self, hp]
    simp only [ProfileManager.pushFollower_deref _ p hlt, hnew, not_false_eq_true, and_true,
      if_true, List.map_append, List.map_singleton, hv]
  · rw [Function.update_of_ne hw]
    cases hq : st.profiles.getProfileByName w with
    | none => simp only [followerNames, hq]
    | some q =>
      have hne : q ≠ p := by
        rintro rfl
        exact hw ((ProfileManager.getProfileByName_some _ hq).2.symm.trans hu)
      simp only [followerNames, hq, ProfileManager.pushFollower_deref _ p hlt, hne, false_and, if_false]

/-- An edge shows nowhere else. -/
theorem push_users {p f : ProfileRef} (hp : p < st.profiles.profiles.length) :
    ({ st with profiles := (st.profiles.pushFollower p f).1 } : Store).users = st.users ∧
    ({ st with profiles := (st.profiles.pushFollower p f).1 } : Store).devices = st.devices := by
  have hname : ∀ w, (st.profiles.pushFollower p f).1.getProfileByName w =
      st.profiles.getProfileByName w := fun w =>
    ProfileManager.getProfileByName_congr _ _ (ProfileManager.pushFollower_handles _ _ _)
  constructor
  · simp only [users, hname, ProfileManager.pushFollower_session _ p hp]
  · funext w
    simp only [Store.devices, hname, ProfileManager.pushFollower_session _ p hp]

variable {b : ServerBlog}

/-- The lookup of the server finds the user that the device speaks for. -/
theorem Linked.speaker (h : st.Linked) (hb : b.view = st.view) (a : SocketAddress) :
    b.speaker a = st.sessions.getUserNameByAddressAndIP a := by
  have hdevices : ∀ u, b.devices u = st.sessions.getUserAddresses u := by
    intro u
    rw [← h.devices u]
    exact congrFun (congrArg View.devices hb) u
  ext u
  rw [Microblog.speaker_eq_some, SessionManager.getUserName_eq_some, Microblog.Speaks]
  simp only [hdevices]

theorem Linked.connect_view (h : st.Linked) (hb : b.view = st.view) {message : Packet}
    (htype : message.type = packetConnectCmd) (address : SocketAddress) :
    (b.connect maxSessionsPerUser message.text address).view = (st.handle message address).view := by
  have hlinked := handle_linked h message address
  have husers : b.users = st.users := congrArg View.users hb
  have hdevices : b.devices = st.devices := congrArg View.devices hb
  have hfollowers : b.followers = st.followerNames := congrArg View.followers hb
  refine View.mk.injEq .. |>.mpr ⟨?_, ?_, ?_⟩
  · rw [Microblog.connect, husers, h.users, hlinked.users, handle_handles]
    ext u
    by_cases hm : message.text ∈ st.profiles.handles
    · simp only [htype, hm, not_true, and_false, if_false, Set.mem_insert_iff, Set.mem_ofPred_eq]
      exact or_iff_right_of_imp fun he => he ▸ hm
    · simp [htype, hm, or_comm]
  · funext v
    rw [hlinked.devices, handle_addresses, if_pos htype, SessionManager.startSession_addresses]
    simp only [Microblog.connect, hdevices, h.devices, SessionManager.startSession_isSome]
    by_cases hroom : (st.sessions.getUserAddresses message.text).length < maxSessionsPerUser
    · by_cases hv : v = message.text
      · simp [hroom, hv]
      · simp [hroom, hv, h.devices]
    · simp [hroom, h.devices]
  · have hsame := followerNames_grow h.graph (handle_grows message address).handles fun q => by
      obtain he | ⟨f, hfollow, -⟩ := st.handle_followers message address q
      · exact he
      · exact absurd (htype.symm.trans hfollow) (by decide)
    rw [hsame]
    exact hfollowers

theorem Linked.disconnect_view (h : st.Linked) (hb : b.view = st.view) {message : Packet}
    (htype : message.type = packetDisconnectCmd) (address : SocketAddress) :
    (b.disconnect message.text address).view = (st.handle message address).view := by
  have hlinked := handle_linked h message address
  have hconnect : message.type ≠ packetConnectCmd := by
    rw [htype]
    decide
  have husers : b.users = st.users := congrArg View.users hb
  have hdevices : b.devices = st.devices := congrArg View.devices hb
  have hfollowers : b.followers = st.followerNames := congrArg View.followers hb
  refine View.mk.injEq .. |>.mpr ⟨?_, ?_, ?_⟩
  · rw [hlinked.users, handle_handles, if_neg fun hc => hconnect hc.1, ← h.users]
    exact husers
  · funext v
    rw [hlinked.devices, handle_addresses, if_neg hconnect]
    simp only [Microblog.disconnect, hdevices, h.devices]
    by_cases hp : st.profiles.getProfileByName message.text = none
    · rw [if_neg fun hc => hc.2 hp, h.addresses_of_none hp, List.erase_nil]
      by_cases hv : v = message.text
      · rw [hv, Function.update_self, h.addresses_of_none hp]
      · rw [Function.update_of_ne hv, h.devices]
    · rw [if_pos ⟨htype, hp⟩, SessionManager.endSession_addresses]
      by_cases hv : v = message.text
      · rw [hv, Function.update_self, if_pos rfl]
      · rw [Function.update_of_ne hv, h.devices, if_neg hv]
  · have hsame := followerNames_grow h.graph (handle_grows message address).handles fun q => by
      obtain he | ⟨f, hfollow, -⟩ := st.handle_followers message address q
      · exact he
      · exact absurd (htype.symm.trans hfollow) (by decide)
    rw [hsame]
    exact hfollowers

theorem Linked.follow_view (h : st.Linked) (hb : b.view = st.view) (target : Str)
    (address : SocketAddress) : (b.follow target address).view = (st.follow target address).view := by
  have husers : b.users = st.users := congrArg View.users hb
  have hfollowers : b.followers = st.followerNames := congrArg View.followers hb
  have hknown : target ∈ b.users ↔ (st.profiles.getProfileByName target).isSome := by
    rw [husers, h.users, ProfileManager.getProfileByName_isSome]
    rfl
  rw [Microblog.follow, h.speaker hb, Store.follow, followEdge]
  cases hname : st.sessions.getUserNameByAddressAndIP address with
  | none => exact hb
  | some username =>
    obtain ⟨f, hf⟩ := h.profile hname
    by_cases hself : target = username
    · simp only [hself, ne_eq, not_true, false_and, if_false, if_true]
      exact hb
    cases hp : st.profiles.getProfileByName target with
    | none =>
      have hnot : target ∉ b.users := by
        rw [hknown, hp]
        exact Bool.false_ne_true
      simp only [hnot, false_and, and_false, if_false, hself]
      exact hb
    | some p =>
      have hyes : target ∈ b.users := by
        rw [hknown, hp]
        rfl
      have hmem := mem_followerNames h.graph hp hf
      simp only [ne_eq, hself, not_false_eq_true, hyes, true_and, if_false, hf, addEdge]
      by_cases hold : f ∈ (st.profiles.deref p).followers
      · rw [if_pos hold, if_neg]
        · exact hb
        · rw [hfollowers]
          exact fun hc => hc (hmem.mpr hold)
      · rw [if_neg hold, if_pos, sync_view]
        · obtain ⟨husers', hdevices'⟩ := push_users (f := f)
            (ProfileManager.getProfileByName_some _ hp).1
          refine View.mk.injEq .. |>.mpr ⟨?_, ?_, ?_⟩
          · rw [husers', ← husers]
          · rw [hdevices']
            exact congrArg View.devices hb
          · rw [hfollowers, followerNames_push hp hf hold]
        · rw [hfollowers]
          exact fun hc => hold (hmem.mp hc)

/-- On a linked store a packet does what it asks for. -/
theorem Linked.packet_view (h : st.Linked) (hb : b.view = st.view) (message : Packet)
    (address : SocketAddress) : (b.packet message address).view = (st.handle message address).view := by
  unfold Microblog.packet Packet.request?
  by_cases hconnect : message.type = packetConnectCmd
  · rw [if_pos hconnect]
    exact h.connect_view hb hconnect address
  by_cases hdisconnect : message.type = packetDisconnectCmd
  · rw [if_neg hconnect, if_pos hdisconnect]
    exact h.disconnect_view hb hdisconnect address
  by_cases hfollow : message.type = packetFollowCmd
  · rw [if_neg hconnect, if_neg hdisconnect, if_pos hfollow, handle_follow hfollow]
    exact h.follow_view hb message.text address
  rw [if_neg hconnect, if_neg hdisconnect, if_neg hfollow, handle_other hconnect hdisconnect hfollow]
  split
  · next r hr =>
    split at hr
    · cases hr
      obtain he | ⟨v, -, he⟩ := b.send_cases message.text address <;>
        simp only [Microblog.request, he] <;> exact hb
    · cases hr
  · exact hb

/-- The post that a notification stands for. -/
def post (st : Store) (n : PendingNotification) : Post Str Str :=
  ⟨n.senderUsername, n.body, (st.profiles.deref n.recipient).handle⟩

/-- The posts that a packet adds are its notifications. -/
theorem Linked.packet_outgoing (h : st.Linked) (hb : b.view = st.view) (message : Packet)
    (address : SocketAddress) : (b.packet message address).outgoing =
      b.outgoing ++ (st.notifications message address).map st.post := by
  have hfollowers : b.followers = st.followerNames := congrArg View.followers hb
  unfold Microblog.packet Packet.request? notifications
  by_cases hsend : message.type = packetSendCmd
  · simp only [hsend, if_true]
    rw [if_neg (by decide), if_neg (by decide), if_neg (by decide)]
    simp only [Microblog.request, Microblog.send, h.speaker hb]
    cases hname : st.sessions.getUserNameByAddressAndIP address with
    | none => simp
    | some username =>
      obtain ⟨p, hp⟩ := h.profile hname
      simp only [hp, hfollowers, followerNames, List.map_map]
      rfl
  · simp only [hsend, if_false, List.map_nil, List.append_nil]
    split
    · next r hr =>
      split at hr
      · cases hr
        rfl
      · split at hr
        · cases hr
          rfl
        · split at hr
          · cases hr
            obtain he | ⟨v, -, -, he⟩ := b.follow_cases message.text address <;>
              simp only [Microblog.request, he]
          · cases hr
    · rfl

/-- A profile that is just made cannot be seen. -/
theorem newProfile_view (hgraph : st.profiles.Graph) (u : Str) :
    ({ st with profiles := st.profiles.newProfile u } : Store).view = st.view := by
  have hnew : (st.profiles.newProfile u).deref st.profiles.profiles.length = ⟨u, [], .unset⟩ := by
    rw [ProfileManager.newProfile_deref, if_pos rfl]
  have hold : ∀ p < st.profiles.profiles.length,
      (st.profiles.newProfile u).deref p = st.profiles.deref p := by
    intro p hp
    rw [ProfileManager.newProfile_deref, if_neg (Nat.ne_of_lt hp)]
  refine View.mk.injEq .. |>.mpr ⟨?_, ?_, ?_⟩
  · ext w
    simp only [users, Set.mem_ofPred_eq, ProfileManager.getProfileByName_newProfile]
    cases hp : st.profiles.getProfileByName w with
    | some p =>
      have hlt := (ProfileManager.getProfileByName_some _ hp).1
      simp [hold p hlt]
    | none =>
      by_cases hw : u = w
      · subst hw
        simp [hnew]
      · simp [hw]
  · funext w
    simp only [Store.devices, ProfileManager.getProfileByName_newProfile]
    cases hp : st.profiles.getProfileByName w with
    | some p =>
      simp only [Option.some_or, hold p (ProfileManager.getProfileByName_some _ hp).1]
    | none =>
      by_cases hw : u = w
      · subst hw
        simp only [Option.none_or, if_true, hnew]
        rfl
      · simp only [Option.none_or, hw, if_false]
  · refine followerNames_grow hgraph ?_ fun q => ?_
    · rw [ProfileManager.newProfile_handles]
      exact List.prefix_append _ _
    · rw [ProfileManager.newProfile_deref]
      split
      · next hq =>
        have hnone : st.profiles.deref q = default := by simp [hq, ProfileManager.deref]
        rw [hnone]
        rfl
      · rfl

theorem Linked.ensure_view (h : st.Linked) (u : Str) : (st.ensure u).view = st.view := by
  unfold ensure
  split
  · rw [create, sync_view, newProfile_view h.graph]
  · rfl

/-- A pointer that is set again to where it leads stays as it is. -/
theorem setSession_self {p : ProfileRef} {r : SessionRef} (hp : p < st.profiles.profiles.length)
    (hr : (st.profiles.deref p).session = .ref r) : st.profiles.setSession p (.ref r) = st.profiles := by
  have hsame : (st.profiles.profiles.modify p fun profile => { profile with session := .ref r }) =
      st.profiles.profiles := by
    apply List.ext_getElem?
    intro i
    rw [List.getElem?_modify]
    by_cases hi : p = i
    · subst hi
      rw [st.profiles.deref_eq p hp, ← hr]
      simp
    · cases st.profiles.profiles[i]? <;> simp [hi]
  exact congrArg ProfileManager.mk hsame

/-- The transition of a CONNECT whose session is granted. -/
theorem handle_granted {message : Packet} (htype : message.type = packetConnectCmd)
    (address : SocketAddress) {p : ProfileRef}
    (hp : (st.ensure message.text).profiles.getProfileByName message.text = some p) {r : SessionRef}
    (hs : (st.sessions.startSession message.text address).2 = some r) :
    st.handle message address = { st.ensure message.text with
      profiles := (st.ensure message.text).profiles.setSession p (.ref r)
      sessions := (st.sessions.startSession message.text address).1 } := by
  rw [handle_connect htype, connect, hp]
  simp only [openSession, ensure_sessions]
  split
  · next sessions r' he =>
    rw [he] at hs ⊢
    cases hs
    rfl
  · next sessions he =>
    rw [he] at hs
    cases hs

/-- An older profile keeps its session when another user's is created. -/
theorem Linked.create_linkedAt (h : st.Linked) (u : Str) {q : ProfileRef}
    (hq : q < st.profiles.profiles.length) {sessions : SessionManager}
    (hkept : ∀ (k : Str) (r : SessionRef), st.sessions.sessions[k]? = some r →
      sessions.sessions[k]? = some r) :
    ({ st.create u with sessions := sessions } : Store).LinkedAt q := by
  have hold : (st.create u).profiles.deref q = st.profiles.deref q := by
    rw [create_profiles, ProfileManager.newProfile_deref, if_neg (Nat.ne_of_lt hq)]
  obtain ⟨r, hr, hs⟩ := h.linked q hq
  exact ⟨r, by rw [hold, hr], by rw [hold]; exact hkept _ r hs⟩

/-- The session of a new profile cannot be seen, since its pointer is not set yet. -/
theorem Linked.startSession_fresh (h : st.Linked) {u : Str} (address : SocketAddress)
    (hfresh : st.profiles.getProfileByName u = none) :
    ({ st.create u with sessions := (st.sessions.startSession u address).1 } : Store).view =
      (st.create u).view := by
  refine View.mk.injEq .. |>.mpr ⟨rfl, ?_, rfl⟩
  funext w
  cases hq : (st.create u).profiles.getProfileByName w with
  | none => simp only [Store.devices, hq]
  | some q =>
    obtain ⟨hlt, hw⟩ := ProfileManager.getProfileByName_some _ hq
    rw [create_profiles, ProfileManager.newProfile_length] at hlt
    by_cases hnew : q = st.profiles.profiles.length
    · have hunset : ((st.create u).profiles.deref q).session = .unset := by
        rw [create_profiles, ProfileManager.newProfile_deref, if_pos hnew]
      simp only [Store.devices, hq, hunset]
      rfl
    · have hold := Nat.lt_of_le_of_ne (Nat.le_of_lt_succ hlt) hnew
      have hsessions : (st.create u).sessions = st.sessions := sync_sessions _
      have hkept : ({ st.create u with sessions := st.sessions } : Store).LinkedAt q :=
        h.create_linkedAt u hold fun _ _ hr => hr
      have hbefore : (st.create u).LinkedAt q := by
        rwa [← hsessions] at hkept
      have hafter : ({ st.create u with
          sessions := (st.sessions.startSession u address).1 } : Store).LinkedAt q :=
        h.create_linkedAt u hold fun _ _ hr => SessionManager.startSession_keeps _ _ _ hr
      have hfound : ({ st.create u with
          sessions := (st.sessions.startSession u address).1 } :
          Store).profiles.getProfileByName w = some q := hq
      have hother : w ≠ u := by
        rintro rfl
        rw [create_lookup hfresh] at hq
        exact hnew (Option.some.inj hq).symm
      rw [hbefore.devices hq, hafter.devices hfound, hsessions,
        SessionManager.startSession_addresses, if_neg fun hc => hother hc.1]

/-- Once its session is started a CONNECT can be seen, or nothing of it yet. -/
theorem Linked.startSession_view (h : st.Linked) {message : Packet}
    (htype : message.type = packetConnectCmd) (address : SocketAddress) {p : ProfileRef}
    (hp : (st.ensure message.text).profiles.getProfileByName message.text = some p) :
    ({ st.ensure message.text with
        sessions := (st.sessions.startSession message.text address).1 } : Store).view = st.view ∨
      ({ st.ensure message.text with
        sessions := (st.sessions.startSession message.text address).1 } : Store).view =
          (st.handle message address).view := by
  obtain ⟨hlt, -⟩ := ProfileManager.getProfileByName_some _ hp
  cases hs : (st.sessions.startSession message.text address).2 with
  | none =>
    rw [SessionManager.startSession_refused _ _ _ hs, ← st.ensure_sessions message.text]
    exact .inl (h.ensure_view message.text)
  | some r =>
    by_cases hfresh : st.profiles.getProfileByName message.text = none
    · have hcreate : st.ensure message.text = st.create message.text := if_pos hfresh
      have hensure := h.ensure_view message.text
      rw [hcreate] at hensure ⊢
      exact .inl ((h.startSession_fresh address hfresh).trans hensure)
    · right
      have hsame : st.ensure message.text = st := if_neg hfresh
      rw [handle_granted htype address hp hs]
      rw [hsame] at hp hlt ⊢
      obtain ⟨r', hr', hs'⟩ := h.linked p hlt
      rw [(ProfileManager.getProfileByName_some _ hp).2] at hs'
      have hkept := SessionManager.startSession_keeps _ message.text address hs'
      have hgranted := SessionManager.startSession_ref _ _ _ hs
      cases hkept.symm.trans hgranted
      rw [setSession_self hlt hr']

end Store

end Piupiu
