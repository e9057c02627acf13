import Piupiu.Runs

/-!
# Whose commands a host gives

FOLLOW and SEND carry no user: the server looks for a session that holds the
address of the sender. The lookup takes the first user in map order, while the
host speaks for the user it connected as last.
-/
namespace Piupiu

namespace Server

/-- The user a host speaks for: the one its latest granted CONNECT was for, until
it sends a DISCONNECT that names this user. -/
def speaksFor (a : SocketAddress) (s : Server) (current : Option Str) (arrival : Arrival) :
    Option Str :=
  if arrival.address = a then
    if arrival.message.type = packetConnectCmd then
      if (s.sessionManager.startSession arrival.message.text a).2.isSome then some arrival.message.text
      else current
    else if arrival.message.type = packetDisconnectCmd ∧ current = some arrival.message.text then none
    else current
  else current

def attributionFrom (a : SocketAddress) : Server → Option Str → List Arrival → Option Str
  | _, current, [] => current
  | s, current, arrival :: arrivals =>
    attributionFrom a (s.handle arrival.now arrival.message arrival.address)
      (speaksFor a s current arrival) arrivals

/-- The user that `a` speaks for after a run that began in `s`. -/
def attribution (s : Server) (arrivals : List Arrival) (a : SocketAddress) : Option Str :=
  attributionFrom a s none arrivals

/-- A SEND from `a` is queued, and a FOLLOW from `a` is entered, for `u` only. -/
structure RecordedAs (s : Server) (a : SocketAddress) (u : Str) : Prop where
  send : ∀ now message, message.type = packetSendCmd →
    ∀ n ∈ (issued (s.handle now message a).log).drop (issued s.log).length, n.senderUsername = u
  follow : ∀ now message, message.type = packetFollowCmd →
    ∀ p f, f ∈ ((s.handle now message a).profileManager.deref p).followers →
      f ∉ (s.profileManager.deref p).followers →
        ((s.handle now message a).profileManager.deref f).handle = u

theorem speaksFor_held {s : Server} {a : SocketAddress} {current : Option Str}
    (h : ∀ u, current = some u → a ∈ s.sessionManager.getUserAddresses u) (arrival : Arrival) (u : Str)
    (hu : speaksFor a s current arrival = some u) :
    a ∈ (s.handle arrival.now arrival.message arrival.address).sessionManager.getUserAddresses u := by
  obtain ⟨now, message, address⟩ := arrival
  have hstore : (s.handle now message address).sessionManager =
      (s.store.handle message address).sessions :=
    congrArg Store.sessions (handle_ended s now message address).store
  have hsm : s.store.sessions = s.sessionManager := rfl
  rw [hstore, Store.handle_addresses, hsm]
  simp only [speaksFor] at hu
  by_cases hc : message.type = packetConnectCmd
  · rw [if_pos hc, SessionManager.startSession_addresses]
    simp only [hc, if_true] at hu
    by_cases hnew : address = a ∧ u = message.text ∧
        (s.sessionManager.startSession message.text a).2.isSome = true
    · obtain ⟨rfl, rfl, hg⟩ := hnew
      rw [if_pos ⟨rfl, hg⟩]
      simp
    · have hcurrent : current = some u := by
        split at hu
        · next ha =>
          split at hu
          · next hg =>
            cases hu
            exact absurd ⟨ha, rfl, hg⟩ hnew
          · exact hu
        · exact hu
      have hold := h u hcurrent
      split
      · next hv => exact List.mem_append_left _ (hv.1 ▸ hold)
      · exact hold
  · rw [if_neg hc]
    simp only [hc, if_false] at hu
    have hcurrent : current = some u ∧
        (address = a → message.type = packetDisconnectCmd → u ≠ message.text) := by
      split at hu
      · split at hu
        · cases hu
        · next hn => exact ⟨hu, fun _ hd he => hn ⟨hd, by rw [hu, he]⟩⟩
      · next ha => exact ⟨hu, fun h' => absurd h' ha⟩
    have hold := h u hcurrent.1
    split
    · next hd =>
      rw [SessionManager.endSession_addresses]
      split
      · next hv =>
        have hne : a ≠ address := fun he => hcurrent.2 he.symm hd.1 hv
        exact (List.mem_erase_of_ne hne).mpr (hv ▸ hold)
      · exact hold
    · exact hold

theorem attributionFrom_held {s : Server} {a : SocketAddress} {current : Option Str}
    (h : ∀ u, current = some u → a ∈ s.sessionManager.getUserAddresses u) (arrivals : List Arrival)
    {u : Str} (hu : attributionFrom a s current arrivals = some u) :
    a ∈ (s.serve arrivals).sessionManager.getUserAddresses u := by
  induction arrivals generalizing s current with
  | nil => exact h u hu
  | cons arrival arrivals ih => exact ih (speaksFor_held h arrival) hu

/-- What is recorded for a host goes by the answer of the lookup. -/
theorem recordedAs_of_lookup {s : Server} {a : SocketAddress} {u : Str}
    (h : s.sessionManager.getUserNameByAddressAndIP a = some u) : s.RecordedAs a u := by
  refine ⟨fun now message htype n hn => ?_, fun now message htype p f hf hnew => ?_⟩
  · rw [(handle_ended s now message a).issued, List.drop_left] at hn
    simp only [Store.notifications, htype, if_true] at hn
    have hname : s.store.sessions.getUserNameByAddressAndIP a = some u := h
    rw [hname] at hn
    dsimp only at hn
    split at hn
    · simp at hn
    · obtain ⟨f, -, rfl⟩ := List.mem_map.mp hn
      rfl
  · have hpm : (s.handle now message a).profileManager =
        (s.store.follow message.text a).profiles := by
      rw [← Store.handle_follow htype]
      exact congrArg Store.profiles (handle_ended s now message a).store
    have hold : s.profileManager = s.store.profiles := rfl
    rw [hpm] at hf ⊢
    rw [hold] at hnew
    cases he : s.store.followEdge message.text a with
    | none =>
      rw [Store.follow, he] at hf
      exact absurd hf hnew
    | some edge =>
      obtain ⟨username, hname, -, hp, hfollower⟩ := Store.followEdge_some he
      have hu : username = u := Option.some.inj (hname.symm.trans h)
      have hlt := (ProfileManager.getProfileByName_some _ hp).1
      have hhandle := (ProfileManager.getProfileByName_some _ hfollower).2
      simp only [Store.follow, he, Store.addEdge] at hf ⊢
      split at hf
      · exact absurd hf hnew
      · next hm =>
        rw [if_neg hm]
        simp only [Store.sync_profiles] at hf ⊢
        rw [ProfileManager.pushFollower_deref _ _ hlt] at hf
        split at hf
        · next hq =>
          rcases List.mem_append.mp hf with hf | hf
          · exact absurd (hq.1 ▸ hf) hnew
          · rw [List.mem_singleton.mp hf, ProfileManager.deref_handle,
              ProfileManager.pushFollower_handles, ← ProfileManager.deref_handle, hhandle, hu]
        · exact absurd hf hnew

/-- A host that connected for `u` gives its commands as `u` exactly when no user
with a smaller handle has a socket with the same address. -/
theorem attribution_iff (thisPeer : Peer) (peers : List Peer) (disk : Disk)
    (profiles : ProfileManager) (arrivals : List Arrival) (a : SocketAddress) (u : Str)
    (hu : attribution (new thisPeer peers disk profiles) arrivals a = some u) :
    (((new thisPeer peers disk profiles).serve arrivals).sessionManager.getUserNameByAddressAndIP a =
        some u ∧ ((new thisPeer peers disk profiles).serve arrivals).RecordedAs a u) ↔
      ∀ v, compare v u = .lt →
        a ∉ ((new thisPeer peers disk profiles).serve arrivals).sessionManager.getUserAddresses v := by
  have hheld := attributionFrom_held (fun u h => by cases h) arrivals hu
  rw [and_iff_left_of_imp recordedAs_of_lookup, SessionManager.getUserName_eq_some,
    and_iff_right hheld]

/-- A host with one user behind it goes for that user. -/
theorem attribution_iff_single :
    ((new ⟨[], 0, true⟩ [] ⟨true, none⟩ ⟨[]⟩).serve
        [⟨0, clientPacket packetConnectCmd 0 [98], ⟨[], 1⟩⟩]).sessionManager.getUserNameByAddressAndIP
          ⟨[], 1⟩ = some [98] ∧
      ((new ⟨[], 0, true⟩ [] ⟨true, none⟩ ⟨[]⟩).serve
        [⟨0, clientPacket packetConnectCmd 0 [98], ⟨[], 1⟩⟩]).RecordedAs ⟨[], 1⟩ [98] := by
  refine (attribution_iff _ _ _ _ _ _ _ rfl).mpr fun v hv => ?_
  have hsessions : ((new ⟨[], 0, true⟩ [] ⟨true, none⟩ ⟨[]⟩).serve
      [⟨0, clientPacket packetConnectCmd 0 [98], ⟨[], 1⟩⟩]).sessionManager =
        SessionManager.empty.newSession [98] ⟨[], 1⟩ := rfl
  have hother : v ≠ [98] := by
    rintro rfl
    exact absurd hv (by decide)
  rw [hsessions, SessionManager.getUserAddresses_newSession _ _ _ _ rfl, if_neg hother,
    SessionManager.getUserAddresses_empty]
  exact List.not_mem_nil

/-- A host that connects as one user and then as another with a greater handle
still goes for the first one. -/
theorem attribution_of_second_user :
    attribution (new ⟨[], 0, true⟩ [] ⟨true, none⟩ ⟨[]⟩)
      [⟨0, clientPacket packetConnectCmd 0 [97], ⟨[], 1⟩⟩,
        ⟨0, clientPacket packetConnectCmd 0 [98], ⟨[], 1⟩⟩] ⟨[], 1⟩ = some [98] ∧
    ((new ⟨[], 0, true⟩ [] ⟨true, none⟩ ⟨[]⟩).serve
      [⟨0, clientPacket packetConnectCmd 0 [97], ⟨[], 1⟩⟩,
        ⟨0, clientPacket packetConnectCmd 0 [98], ⟨[], 1⟩⟩]).sessionManager.getUserNameByAddressAndIP
          ⟨[], 1⟩ = some [97] := ⟨rfl, rfl⟩

end Server

end Piupiu
