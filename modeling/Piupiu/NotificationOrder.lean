import Piupiu.Notifications

/-!
# The order of notifications

The worker puts a notification for an offline user back to the end of the queue,
one notification at each iteration. Between two iterations the queue may thus be
in the middle of a rotation, and a user that connects then gets a younger
notification first.
-/
namespace Piupiu

open Atomic RotatingQueue

namespace Server

instance (s : Server) (r : ProfileRef) : Decidable (s.Online r) :=
  decidable_of_iff ((s.recipientSockets r).getD [] ≠ []) (by
    unfold Online
    cases s.recipientSockets r <;> simp)

/-- The notifications for `r` that wait stand in the order of their creation. -/
def InLine (s : Server) (r : ProfileRef) : Prop :=
  (ledger s.log).InLine PendingNotification.recipient r

instance (s : Server) (r : ProfileRef) : Decidable (s.InLine r) := by
  unfold InLine Ledger.InLine
  infer_instance

/-- Whenever a host connects as `r` and nobody was connected as `r`, what waits
for `r` is in line. -/
def OpensInOrder (s : Server) (moves : List Move) (r : ProfileRef) : Prop :=
  ∀ k, ¬(s.stateAt moves k).Online r → (s.stateAt moves (k + 1)).Online r →
    (s.stateAt moves k).InLine r

/-- Of two notifications for `r` the older one is delivered first. -/
def Ordered (s : Server) (moves : List Move) (r : ProfileRef) : Prop :=
  ∀ t t' n n' d', t < t' → (issued (s.run moves).shared.log)[t]? = some n → n.recipient = r →
    n'.recipient = r → Delivers s moves d' n' t' → ∃ d, d < d' ∧ Delivers s moves d n t

section run

variable {s : Server} (hs : s.log = []) (hq : s.notificationQueue = []) {moves : List Move}
  {r : ProfileRef}

include hs hq

/-- As long as `r` is online its notifications are in line. -/
theorem inLine_of_online (h : OpensInOrder s moves r) (k : Nat)
    (hon : (s.stateAt moves k).Online r) : (s.stateAt moves k).InLine r := by
  induction k with
  | zero =>
    have hnil : ledger (s.stateAt moves 0).log = ⟨[], [], []⟩ := by
      simp [stateAt, run, hs, ledger]
    simp [InLine, Ledger.InLine, hnil]
  | succ k ih =>
    have hbefore : (s.stateAt moves k).InLine r := by
      by_cases hk : (s.stateAt moves k).Online r
      · exact ih hk
      · exact h k hk hon
    have hsound := ledger_sound (s.stateAt moves k).log
    unfold InLine at hbefore ⊢
    by_cases hm : ∃ now, moves[k]? = some (.worker now)
    · obtain ⟨now, hm⟩ := hm
      rw [stateAt_worker s hm] at hon ⊢
      have hstore := (worker_rely now (s.stateAt moves k)).store
      rcases worker_ledger now (stateAt_queued hs hq moves k) with
        ⟨-, he⟩ | ⟨n, t, rest, hw, hoff, -, he⟩ | ⟨n, t, rest, hw, -, -, he⟩
      · rwa [he]
      · rw [he]
        refine inLine_apply _ r hsound hbefore fun _ e rest' hw' hr => hoff ?_
        rw [hw, List.cons.injEq] at hw'
        rw [← hw'.1] at hr
        simp only at hr
        rw [hr]
        have hpm := congrArg Store.profiles hstore
        have hsm := congrArg Store.sessions hstore
        simp only [store] at hpm hsm
        simpa only [Online, recipientSockets, hpm, hsm] using hon
      · rw [he]
        exact inLine_apply _ r hsound hbefore fun hop => by cases hop
    · obtain ⟨as, he⟩ := stateAt_pushes hs hq moves (not_exists.mp hm)
      rw [he]
      exact inLine_pushes _ r hsound hbefore as

end run

/-- The order is kept in every run in which nobody connects as `r`, coming from
offline, while the notifications for `r` are out of line. -/
theorem ordered_of_opensInOrder (thisPeer : Peer) (peers : List Peer) (disk : Disk)
    (moves : List Move) (r : ProfileRef)
    (h : OpensInOrder (new thisPeer peers disk ⟨[]⟩) moves r) :
    Ordered (new thisPeer peers disk ⟨[]⟩) moves r := by
  generalize hs : new thisPeer peers disk ⟨[]⟩ = s at h ⊢
  have hlog : s.log = [] := by rw [← hs]; rfl
  have hqueue : s.notificationQueue = [] := by rw [← hs]; rfl
  intro t t' n n' d' hlt ht hr hr' hd'
  have hqueued := stateAt_queued hlog hqueue moves d'
  have hsound := ledger_sound (s.stateAt moves d').log
  obtain ⟨rest, hw⟩ := List.head?_eq_some_iff.mp hd'.front
  have hline := inLine_of_online hlog hqueue h d' (hr' ▸ hd'.online)
  have hissued : (ledger (s.stateAt moves d').log).issued[t]? = some n := by
    have ht' := (hsound.mem_iff n' t').mp (.inl (by simp [hw]))
    have hlt' := hlt.trans (List.getElem?_eq_some_iff.mp ht').1
    rw [hqueued.issued] at hlt' ⊢
    have hmoves : d' ≤ moves.length := by
      obtain ⟨now, hm⟩ := hd'.worker
      exact (List.getElem?_eq_some_iff.mp hm).1.le
    obtain ⟨more, he⟩ := issued_mono s moves hmoves
    rw [stateAt_length] at he
    rwa [← he, List.getElem?_append_left hlt'] at ht
  exact (mem_taken hlog hqueue moves d' n t).mp
    (hline.front_last _ _ hsound hd'.front hissued hr hr' hlt)

theorem opensInOrder_iff {s : Server} {moves : List Move} {r : ProfileRef} :
    OpensInOrder s moves r ↔ ∀ k < moves.length, ¬(s.stateAt moves k).Online r →
      (s.stateAt moves (k + 1)).Online r → (s.stateAt moves k).InLine r := by
  refine ⟨fun h k _ => h k, fun h k hoff hon => ?_⟩
  rcases Nat.lt_or_ge k moves.length with hk | hk
  · exact h k hk hoff hon
  · rw [stateAt, run_take_none s (List.getElem?_eq_none hk)] at hon
    exact absurd hon hoff

/-- The moves before the worker first looks at two notifications for a user that
has disconnected. -/
def twoForOffline : List Move :=
  handling 16 (clientPacket packetConnectCmd 0 [97]) ⟨[], 1⟩ ++
    handling 16 (clientPacket packetConnectCmd 0 [98]) ⟨[], 2⟩ ++
    handling 16 (clientPacket packetFollowCmd 0 [97]) ⟨[], 2⟩ ++
    handling 16 (clientPacket packetDisconnectCmd 0 [98]) ⟨[], 2⟩ ++
    handling 16 (clientPacket packetSendCmd 0 [109]) ⟨[], 1⟩ ++
    handling 16 (clientPacket packetSendCmd 0 [110]) ⟨[], 1⟩

/-- The user connects again after a whole rotation of the queue. -/
theorem ordered_after_rotation : Ordered (new ⟨[], 0, true⟩ [] ⟨true, none⟩ ⟨[]⟩)
    (twoForOffline ++ [.worker 0, .worker 0] ++
      handling 16 (clientPacket packetConnectCmd 0 [98]) ⟨[], 2⟩ ++ [.worker 0, .worker 0]) 1 :=
  ordered_of_opensInOrder _ _ _ _ _ (opensInOrder_iff.mpr (by decide +kernel))

/-- The user connects again in the middle of a rotation. -/
theorem not_ordered_in_rotation : ¬Ordered (new ⟨[], 0, true⟩ [] ⟨true, none⟩ ⟨[]⟩)
    (twoForOffline ++ [.worker 0] ++
      handling 16 (clientPacket packetConnectCmd 0 [98]) ⟨[], 2⟩ ++ [.worker 0]) 1 := by
  intro h
  obtain ⟨d, hd, hdel⟩ := h 0 1 ⟨[97], [109], 1⟩ ⟨[97], [110], 1⟩ 120 (by decide)
    (by decide +kernel) rfl rfl ⟨⟨0, rfl⟩, by decide +kernel, by decide +kernel⟩
  have htaken := (mem_taken rfl rfl _ 120 _ 0).mpr ⟨d, hd, hdel⟩
  exact absurd htaken (by decide +kernel)

end Server

end Piupiu
