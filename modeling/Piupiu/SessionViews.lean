import Piupiu.Notifications

/-!
# Two views of a session

A session is reached through the map of the session manager, by the handle, and
through the pointer of a profile. The map is written first and the pointer only
when a session was granted. This module shows that the two never disagree.
-/
namespace Piupiu

namespace Server

/-- A pointer that is set leads to the entry of the map, also inside a handler. -/
def Agreed (s : Server) : Prop :=
  ∀ p, p < s.profileManager.profiles.length → ∀ r, (s.profileManager.deref p).session = .ref r →
    s.sessionManager.sessions[(s.profileManager.deref p).handle]? = some r

theorem agreed_new (thisPeer : Peer) (peers : List Peer) (disk : Disk) :
    (new thisPeer peers disk ⟨[]⟩).Agreed := by
  intro p hp
  simp [new] at hp

theorem step_agreed {s₀ s s' : Server} {now : UInt64} {message : Packet} {address : SocketAddress}
    (h : s.Agreed) (hstep : Step s₀ now message address s s') : s'.Agreed := by
  cases hstep with
  | pushProfile =>
    intro p hp r hr
    simp only [Server.pushProfile, ProfileManager.newProfile_length] at hp
    simp only [Server.pushProfile, ProfileManager.newProfile_deref] at hr ⊢
    by_cases hnew : p = s.profileManager.profiles.length
    · simp [hnew] at hr
    · simp only [hnew, if_false] at hr ⊢
      exact h p (by omega) r hr
  | startSession => exact fun p hp r hr => SessionManager.startSession_keeps _ _ _ (h p hp r hr)
  | endSession =>
    intro p hp r hr
    simp only [Server.endSession, record, SessionManager.endSession_sessions]
    exact h p hp r hr
  | setSession q r' hq hr' =>
    intro p hp r hr
    simp only [Server.setSession, ProfileManager.setSession_length] at hp
    simp only [Server.setSession, ProfileManager.setSession_deref _ q hq] at hr ⊢
    by_cases hpq : p = q
    · simp only [hpq, if_true, SessionPtr.ref.injEq] at hr ⊢
      rw [← hr]
      exact hr'
    · simp only [hpq, if_false] at hr ⊢
      exact h p hp r hr
  | pushFollower q follower hq =>
    intro p hp r hr
    simp only [Server.pushFollower, ProfileManager.appendFollower_length] at hp
    simp only [Server.pushFollower, ProfileManager.appendFollower_session _ q hq,
      ProfileManager.appendFollower_handle] at hr ⊢
    exact h p hp r hr
  | sync =>
    unfold Server.sync
    split <;> exact h
  | getConnectedUsers =>
    unfold Server.getConnectedUsers
    split <;> exact h
  | confirmBuffer =>
    rw [confirmBuffer_eq]
    exact h
  | confirmToPrimary =>
    unfold Server.confirmToPrimary
    split <;> exact h
  | _ => exact h

theorem agreed_preserved : Preserves (fun _ _ _ => True) (fun _ => True) Agreed where
  stable _ _ _ _ := trivial
  ended _ _ _ _ _ _ _ _ := trivial
  step _ _ _ _ _ _ _ _ _ h hstep := step_agreed h hstep
  worker s now h := by
    have hstore := (worker_rely now s).store
    have hpm : (s.pendingNotificationWorker now).profileManager = s.profileManager :=
      congrArg Store.profiles hstore
    have hsm : (s.pendingNotificationWorker now).sessionManager = s.sessionManager :=
      congrArg Store.sessions hstore
    unfold Agreed
    rwa [hpm, hsm]

/-- What the worker walks over for a profile whose pointer is set. -/
theorem Agreed.recipientSockets {s : Server} (h : s.Agreed) {p : ProfileRef} (hp : s.Live p) :
    s.recipientSockets p =
      some (s.sessionManager.getUserAddresses (s.profileManager.deref p).handle) := by
  obtain ⟨hlt, r, hr⟩ := hp
  rw [SessionManager.getUserAddresses_of_ref _ (h p hlt r hr), Server.recipientSockets, hr]
  rfl

/-- The profiles and the session manager show the same sessions. -/
structure Views (s : Server) : Prop where
  /-- A session that was set on a profile is the one stored for its handle. -/
  ofProfile : ∀ p, p < s.profileManager.profiles.length →
    (s.profileManager.deref p).session ≠ .unset →
    ∃ r, (s.profileManager.deref p).session = .ref r ∧
      s.sessionManager.sessions[(s.profileManager.deref p).handle]? = some r
  /-- A session that is stored for a handle was set on the profile with this handle. -/
  ofSession : ∀ (u : Str) (r : SessionRef), s.sessionManager.sessions[u]? = some r →
    ∃ p, s.profileManager.getProfileByName u = some p ∧
      (s.profileManager.deref p).session = .ref r
  /-- The worker walks over the addresses of the recipient. -/
  walked : ∀ p, p < s.profileManager.profiles.length → s.recipientSockets p =
    some (s.sessionManager.getUserAddresses (s.profileManager.deref p).handle)

theorem views_of_linked {s : Server} (h : s.store.Linked) : s.Views := by
  have hagreed : s.Agreed := by
    intro p hp r hr
    obtain ⟨r', hr', hs⟩ := h.linked p hp
    have he : r' = r := SessionPtr.ref.inj (hr'.symm.trans hr)
    rwa [← he]
  refine ⟨fun p hp _ => h.linked p hp, fun u r hr => ?_, fun p hp => ?_⟩
  · have hmem := h.known u r hr
    obtain ⟨p, hp⟩ := Option.isSome_iff_exists.mp
      ((ProfileManager.getProfileByName_isSome _ u).mpr hmem)
    obtain ⟨hlt, hu⟩ := ProfileManager.getProfileByName_some _ hp
    obtain ⟨r', hr', hs⟩ := h.linked p hlt
    have he : some r' = some r := by
      rw [← hr, ← hs]
      exact congrArg _ hu
    cases he
    exact ⟨p, hp, hr'⟩
  · exact hagreed.recipientSockets (live_of_linked h hp)

section run

variable (thisPeer : Peer) (peers : List Peer) (disk : Disk) (moves : List Move)

theorem run_healthy : Tracked (fun _ _ _ => True) (fun s => s.store.Linked) Healthy
    ((new thisPeer peers disk ⟨[]⟩).run moves) :=
  run_tracked (s := new thisPeer peers disk ⟨[]⟩) healthy_preserved (Store.linked_empty disk)
    ⟨by simp [new], by simp [new], by simp [new]⟩ (admits_true _ _)

theorem run_agreed : ((new thisPeer peers disk ⟨[]⟩).run moves).shared.Agreed :=
  (run_tracked agreed_preserved trivial (agreed_new thisPeer peers disk) (admits_true _ _)).holds

/-- The worker walks over the addresses of the recipient that it takes. -/
theorem run_walked {n : PendingNotification}
    (hn : n ∈ ((new thisPeer peers disk ⟨[]⟩).run moves).shared.notificationQueue) :
    ((new thisPeer peers disk ⟨[]⟩).run moves).shared.recipientSockets n.recipient =
      some (((new thisPeer peers disk ⟨[]⟩).run moves).shared.sessionManager.getUserAddresses
        (((new thisPeer peers disk ⟨[]⟩).run moves).shared.profileManager.deref
          n.recipient).handle) :=
  (run_agreed thisPeer peers disk moves).recipientSockets
    ((run_healthy thisPeer peers disk moves).holds.live n hn)

/-- Between two packets the two views of every session agree, and whenever the
worker takes a notification it walks over the addresses of its recipient. -/
theorem session_views :
    (((new thisPeer peers disk ⟨[]⟩).run moves).idle = true →
      ((new thisPeer peers disk ⟨[]⟩).run moves).shared.Views) ∧
    ∀ n ∈ ((new thisPeer peers disk ⟨[]⟩).run moves).shared.notificationQueue,
      ((new thisPeer peers disk ⟨[]⟩).run moves).shared.recipientSockets n.recipient =
        some (((new thisPeer peers disk ⟨[]⟩).run moves).shared.sessionManager.getUserAddresses
          (((new thisPeer peers disk ⟨[]⟩).run moves).shared.profileManager.deref
            n.recipient).handle) := by
  refine ⟨fun hidle => ?_, fun n hn => run_walked thisPeer peers disk moves hn⟩
  exact views_of_linked ((run_healthy thisPeer peers disk moves).rest WorkerRely.refl hidle)

end run

end Server

end Piupiu
