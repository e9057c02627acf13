import Piupiu.Runs

/-!
# Restarting from the profiles file

Every transition that changes handles or followers ends with a save, so between
packets the file is what `Sync` writes for the profiles of the running server.
What a restart makes of it is then a question about the reader alone.
-/
namespace Piupiu

open IStream

namespace ProfileManager

/-- What a store shows of its follow graph: each handle with its followers' handles. -/
def view (m : ProfileManager) : List (Str × List Str) :=
  m.profiles.map fun profile =>
    (profile.handle, profile.followers.map fun f => (m.deref f).handle)

/-- The part of the profiles that is saved. -/
def graphOf (m : ProfileManager) : List (Str × List ProfileRef) :=
  m.profiles.map fun profile => (profile.handle, profile.followers)

theorem handles_eq_graphOf (m : ProfileManager) : m.handles = m.graphOf.map Prod.fst := by
  simp [handles, graphOf, Function.comp_def]

theorem view_eq_graphOf (m : ProfileManager) : m.view =
    m.graphOf.map fun e => (e.1, e.2.map fun f => m.handles.getD f []) := by
  simp [view, graphOf, deref_handle]

theorem edgeLines_eq_graphOf (m : ProfileManager) : m.edgeLines =
    m.graphOf.flatMap fun e => e.2.map fun f => e.1 ++ comma :: m.handles.getD f [] := by
  simp [edgeLines, graphOf, List.flatMap_map, deref_handle]

variable {m m' : ProfileManager}

theorem view_congr (h : m'.graphOf = m.graphOf) : m'.view = m.view := by
  rw [view_eq_graphOf, view_eq_graphOf, handles_eq_graphOf, handles_eq_graphOf, h]

/-- Sessions do not show in the file. -/
theorem sync_congr (h : m'.graphOf = m.graphOf) : m'.sync = m.sync := by
  have hlen : m'.profiles.length = m.profiles.length := by
    simpa [graphOf] using congrArg List.length h
  rw [sync, sync, edgeLines_eq_graphOf, edgeLines_eq_graphOf, handles_eq_graphOf, handles_eq_graphOf,
    h, hlen]

theorem graphOf_setSession (p : ProfileRef) (session : SessionPtr) :
    (m.setSession p session).graphOf = m.graphOf := by
  apply List.ext_getElem?
  intro i
  simp only [graphOf, setSession, List.getElem?_map, List.getElem?_modify]
  cases m.profiles[i]? <;> simp
  split <;> exact ⟨rfl, rfl⟩

theorem graphOf_forgetSessions : m.forgetSessions.graphOf = m.graphOf := by
  simp [graphOf, forgetSessions]

theorem forgetSessions_handles : m.forgetSessions.handles = m.handles := by
  rw [handles_eq_graphOf, handles_eq_graphOf, graphOf_forgetSessions]

theorem clean_forgetSessions (hm : m.Clean) : m.forgetSessions.Clean := by
  have hlen : m.forgetSessions.profiles.length = m.profiles.length := by simp [forgetSessions]
  refine ⟨⟨by rw [forgetSessions_handles]; exact hm.distinct, fun p hp => ?_, fun p hp => ?_⟩, ?_⟩
  · rw [forgetSessions_followers, hlen]
    exact hm.known p (hlen ▸ hp)
  · rw [forgetSessions_followers]
    exact hm.once p (hlen ▸ hp)
  · rw [forgetSessions_handles]
    exact hm.clean

end ProfileManager

namespace Store

/-- The file can be written, and it holds the profiles that are there now. -/
structure Saved (st : Store) : Prop where
  writable : st.disk.writable = true
  saved : st.disk.profiles = some st.profiles.sync ∨
    (st.disk.profiles = none ∧ st.profiles = ⟨[]⟩)

theorem saved_sync {st : Store} (h : st.disk.writable = true) : Saved st.sync := by
  simp only [sync, h, if_true]
  exact ⟨rfl, .inl rfl⟩

theorem change_saved {message : Packet} {st st' : Store} (hc : Change message st st')
    (h : st.Saved) : st'.Saved := by
  cases hc with
  | create htype fresh => exact saved_sync h.writable
  | openSession p address hp =>
    unfold openSession
    split
    · refine ⟨h.writable, ?_⟩
      simp only [ProfileManager.sync_congr (ProfileManager.graphOf_setSession _ _)]
      rcases h.saved with hs | ⟨-, he⟩
      · exact .inl hs
      · rw [he] at hp
        cases hp
    · exact ⟨h.writable, h.saved⟩
  | endSession p address hp => exact ⟨h.writable, h.saved⟩
  | addEdge p follower hp hf =>
    unfold addEdge
    split
    · exact h
    · exact saved_sync h.writable

theorem change_clean {message : Packet} {st st' : Store}
    (hmessage : message.type = packetConnectCmd → ProfileManager.CleanHandle message.text)
    (hc : Change message st st') (h : st.profiles.Clean) : st'.profiles.Clean := by
  refine ⟨change_graph hc h.toGraph, ?_⟩
  cases hc with
  | create htype fresh =>
    simp only [create, sync_profiles, ProfileManager.newProfile_handles, List.mem_append,
      List.mem_singleton]
    rintro h' (hm | rfl)
    · exact h.clean h' hm
    · exact hmessage htype
  | openSession p address hp =>
    rw [openSession_handles]
    exact h.clean
  | endSession p address hp => exact h.clean
  | addEdge p follower hp hf =>
    unfold addEdge
    split
    · exact h.clean
    · simp only [sync_profiles, ProfileManager.pushFollower_handles]
      exact h.clean

end Store

namespace Server

/-- The handles that the packets bring into the store are clean. -/
def CleanArrivals (arrivals : List Arrival) : Prop :=
  ∀ a ∈ arrivals, a.message.type = packetConnectCmd →
    ProfileManager.CleanHandle a.message.text

/-- No file, or a file that a run wrote which itself started from such a file. -/
inductive Persisted : Option Str → Prop
  | none : Persisted none
  | written {file : Option Str} (h : Persisted file) {numProfiles r : Int} {profiles : ProfileManager}
      (hread : ProfileManager.readProfilesFromFile file numProfiles = .ok (profiles, r))
      (thisPeer : Peer) (peers : List Peer) (arrivals : List Arrival) (hclean : CleanArrivals arrivals)
      (hcount : ((new thisPeer peers ⟨true, file⟩ profiles).serve
        arrivals).profileManager.profiles.length < 2 ^ 31) :
      Persisted ((new thisPeer peers ⟨true, file⟩ profiles).serve arrivals).disk.profiles

/-- A clean store that is saved. -/
def Kept (st : Store) : Prop := st.profiles.Clean ∧ st.Saved

theorem handle_kept {st : Store} (h : Kept st) {message : Packet} (address : SocketAddress)
    (hclean : message.type = packetConnectCmd → ProfileManager.CleanHandle message.text) :
    Kept (st.handle message address) :=
  ⟨Store.handle_keeps (fun _ _ hc hs => Store.change_clean hclean hc hs) h.1,
    Store.handle_keeps (fun _ _ hc hs => Store.change_saved hc hs) h.2⟩

theorem serve_kept {s : Server} (h : Kept s.store) {arrivals : List Arrival}
    (hclean : CleanArrivals arrivals) : Kept (s.serve arrivals).store := by
  induction arrivals using List.reverseRecOn with
  | nil => exact h
  | append_singleton arrivals a ih =>
    rw [serve_concat, (handle_ended _ _ _ _).store]
    exact handle_kept (ih fun b hb => hclean b (by simp [hb])) _ (hclean a (by simp))

/-- Reading the file of a clean saved store gives its profiles, without sessions. -/
theorem read_kept {st : Store} (h : Kept st) (hcount : st.profiles.profiles.length < 2 ^ 31)
    (numProfiles : Int) : ∃ r, ProfileManager.readProfilesFromFile st.disk.profiles numProfiles =
      .ok (st.profiles.forgetSessions, r) := by
  rcases h.2.saved with hs | ⟨hs, he⟩
  · rw [hs]
    exact ⟨_, ProfileManager.read_sync_clean h.1 hcount numProfiles⟩
  · rw [hs, he]
    exact ⟨0, rfl⟩

theorem kept_new {file : Option Str} {profiles : ProfileManager} (hclean : profiles.Clean)
    (hsaved : file = some profiles.sync ∨ (file = none ∧ profiles = ⟨[]⟩)) (thisPeer : Peer)
    (peers : List Peer) : Kept (new thisPeer peers ⟨true, file⟩ profiles).store :=
  ⟨hclean, rfl, hsaved⟩

/-- A server that starts from a file of this kind starts clean and saved. -/
theorem persisted_kept {file : Option Str} (h : Persisted file) {numProfiles r : Int}
    {profiles : ProfileManager}
    (hread : ProfileManager.readProfilesFromFile file numProfiles = .ok (profiles, r))
    (thisPeer : Peer) (peers : List Peer) :
    Kept (new thisPeer peers ⟨true, file⟩ profiles).store := by
  induction h generalizing numProfiles r profiles thisPeer peers with
  | none =>
    cases hread
    exact kept_new ⟨ProfileManager.graph_empty, by simp [ProfileManager.handles]⟩ (.inr ⟨rfl, rfl⟩) _ _
  | written h hread' thisPeer' peers' arrivals hclean hcount ih =>
    have hkept := serve_kept (ih hread' thisPeer' peers') hclean
    obtain ⟨r', hr'⟩ := read_kept hkept hcount numProfiles
    have heq := hread.symm.trans hr'
    cases heq
    refine kept_new (ProfileManager.clean_forgetSessions hkept.1) ?_ _ _
    rcases hkept.2.saved with hs | ⟨hs, he⟩
    · refine .inl (hs.trans ?_)
      rw [ProfileManager.sync_congr ProfileManager.graphOf_forgetSessions]
    · refine .inr ⟨hs, ?_⟩
      rw [he]
      rfl

/-- After any packets with clean handles the file is read back as the follow graph
of the running server. Sessions are not saved; a scan that meets one that was not
set since the start is only recorded and does not stop the run. -/
theorem restart_restores {file : Option Str} (hfile : Persisted file) {numProfiles r : Int}
    {profiles : ProfileManager}
    (hread : ProfileManager.readProfilesFromFile file numProfiles = .ok (profiles, r))
    (thisPeer : Peer) (peers : List Peer) {arrivals : List Arrival}
    (hclean : CleanArrivals arrivals)
    (hcount : ((new thisPeer peers ⟨true, file⟩ profiles).serve
      arrivals).profileManager.profiles.length < 2 ^ 31) (numProfiles' : Int) :
    ∃ m r', ProfileManager.readProfilesFromFile
        ((new thisPeer peers ⟨true, file⟩ profiles).serve arrivals).disk.profiles numProfiles' =
          .ok (m, r') ∧
      m.view = ((new thisPeer peers ⟨true, file⟩ profiles).serve arrivals).profileManager.view := by
  have hkept := serve_kept (persisted_kept hfile hread thisPeer peers) hclean
  obtain ⟨r', hr'⟩ := read_kept hkept hcount numProfiles'
  exact ⟨_, r', hr', ProfileManager.view_congr ProfileManager.graphOf_forgetSessions⟩

/-- Two users and a follower are saved and read back. -/
theorem restart_restores_example : ∃ m r', ProfileManager.readProfilesFromFile
      ((new ⟨[], 0, true⟩ [] ⟨true, none⟩ ⟨[]⟩).serve
        [⟨0, clientPacket packetConnectCmd 0 [97], ⟨[], 1⟩⟩,
          ⟨0, clientPacket packetConnectCmd 0 [98], ⟨[], 2⟩⟩,
          ⟨0, clientPacket packetFollowCmd 0 [98], ⟨[], 1⟩⟩]).disk.profiles 0 = .ok (m, r') ∧
    m.view = [([97], []), ([98], [[97]])] := by
  have hread : ProfileManager.readProfilesFromFile none 0 = .ok (⟨[]⟩, 0) := rfl
  have hclean : CleanArrivals [⟨0, clientPacket packetConnectCmd 0 [97], ⟨[], 1⟩⟩,
      ⟨0, clientPacket packetConnectCmd 0 [98], ⟨[], 2⟩⟩,
      ⟨0, clientPacket packetFollowCmd 0 [98], ⟨[], 1⟩⟩] := by
    intro a ha htype
    simp only [List.mem_cons, List.not_mem_nil, or_false] at ha
    rcases ha with rfl | rfl | rfl
    · rw [clientPacket_text (by decide), cString_of_ne_zero (by simp)]
      exact ⟨by decide, List.forall_mem_singleton.mpr (by decide)⟩
    · rw [clientPacket_text (by decide), cString_of_ne_zero (by simp)]
      exact ⟨by decide, List.forall_mem_singleton.mpr (by decide)⟩
    · exact absurd htype (by decide)
  obtain ⟨m, r', h, hview⟩ := restart_restores .none hread ⟨[], 0, true⟩ [] hclean (by decide) 0
  exact ⟨m, r', h, hview.trans rfl⟩

/-- A restart gets through the file and loads as many profiles as there are now. -/
def Restarts (s : Server) (numProfiles : Int) : Prop :=
  ∃ m r, ProfileManager.readProfilesFromFile s.disk.profiles numProfiles = .ok (m, r) ∧
    m.profiles.length = s.profileManager.profiles.length

theorem reloadable_empty : (⟨[]⟩ : ProfileManager).Reloadable :=
  ⟨by decide, fun w hw => by
    simp [ProfileManager.body, ProfileManager.handles, ProfileManager.edgeLines, lines] at hw⟩

/-- With arbitrary handles the server can restart exactly when its store is
reloadable: behind the words that are taken for the names, all others are edges
from one of them. -/
theorem restarts_iff (thisPeer : Peer) (peers : List Peer) (arrivals : List Arrival)
    (numProfiles : Int) :
    ((new thisPeer peers ⟨true, none⟩ ⟨[]⟩).serve arrivals).Restarts numProfiles ↔
      ((new thisPeer peers ⟨true, none⟩ ⟨[]⟩).serve arrivals).profileManager.Reloadable := by
  have hsaved : ((new thisPeer peers ⟨true, none⟩ ⟨[]⟩).serve arrivals).store.Saved := by
    induction arrivals using List.reverseRecOn with
    | nil => exact ⟨rfl, .inr ⟨rfl, rfl⟩⟩
    | append_singleton arrivals a ih =>
      rw [serve_concat, (handle_ended _ _ _ _).store]
      exact Store.handle_keeps (fun _ _ hc hs => Store.change_saved hc hs) ih
  generalize (new thisPeer peers ⟨true, none⟩ ⟨[]⟩).serve arrivals = s at hsaved ⊢
  rcases hsaved.saved with hs | ⟨hs, he⟩
  · have hs : s.disk.profiles = some s.profileManager.sync := hs
    rw [Restarts, hs]
    exact ProfileManager.reloads_iff s.profileManager numProfiles
  · have hs : s.disk.profiles = none := hs
    have he : s.profileManager = ⟨[]⟩ := he
    rw [Restarts, hs, he]
    exact iff_of_true ⟨⟨[]⟩, 0, rfl, rfl⟩ reloadable_empty

/-- One client that connects under a name with a space keeps the server down. -/
theorem not_restarts_of_space : ¬((new ⟨[], 0, true⟩ [] ⟨true, none⟩ ⟨[]⟩).serve
    [⟨0, clientPacket packetConnectCmd 0 [97, 32, 98], ⟨[], 1⟩⟩]).Restarts 0 := by
  rintro ⟨m, r, h, -⟩
  have hread : ProfileManager.readProfilesFromFile ((new ⟨[], 0, true⟩ [] ⟨true, none⟩ ⟨[]⟩).serve
      [⟨0, clientPacket packetConnectCmd 0 [97, 32, 98], ⟨[], 1⟩⟩]).disk.profiles 0 =
        .error .splitIndex := rfl
  rw [hread] at h
  cases h

end Server

end Piupiu
