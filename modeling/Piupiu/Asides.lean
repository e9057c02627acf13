import Piupiu.Runs

/-!
# Actions beside the store

What a handler does for the replicas, and what it only shows on the console, touches
neither the store nor the queue, and nothing that is said of a notification.
-/
namespace Piupiu

open Atomic Atomic.Prog

def Event.delivered? : Event → Option PendingNotification
  | .delivered n _ => some n
  | _ => none

/-- The notifications that the worker has handed out, in order. -/
def delivered (log : List Event) : List PendingNotification := log.filterMap Event.delivered?

@[simp] theorem delivered_append (log events : List Event) :
    delivered (log ++ events) = delivered log ++ delivered events := List.filterMap_append

/-- The packets with notifications that were sent. -/
def Event.notified? : Event → Option (SocketAddress × Packet)
  | .sent address message .notification => some (address, message)
  | _ => none

/-- An event that says nothing of a notification. -/
structure Event.Silent (e : Event) : Prop where
  issued : e.issued? = none
  delivered : e.delivered? = none
  notified : e.notified? = none

theorem issued_silent {events : List Event} (h : ∀ e ∈ events, e.Silent) : issued events = [] :=
  List.filterMap_eq_nil_iff.mpr fun e he => (h e he).issued

theorem delivered_silent {events : List Event} (h : ∀ e ∈ events, e.Silent) :
    delivered events = [] := List.filterMap_eq_nil_iff.mpr fun e he => (h e he).delivered

namespace Server

structure Aside (s s' : Server) : Prop where
  store : s'.store = s.store
  queue : s'.notificationQueue = s.notificationQueue
  log : ∃ events, s'.log = s.log ++ events ∧ ∀ e ∈ events, e.Silent

theorem Aside.refl (s : Server) : Aside s s :=
  ⟨rfl, rfl, [], (List.append_nil _).symm, fun _ h => by cases h⟩

theorem aside_record (s : Server) {e : Event} (h : e.Silent) : Aside s (s.record e) :=
  ⟨rfl, rfl, [e], rfl, fun _ he => List.mem_singleton.mp he ▸ h⟩

theorem aside_getConnectedUsers (s : Server) (p : ProfileRef) : Aside s (s.getConnectedUsers p) := by
  unfold getConnectedUsers
  split
  · exact .refl s
  · exact aside_record s ⟨rfl, rfl, rfl⟩

theorem aside_confirmBuffer (now : UInt64) (s : Server) (seqn : UInt64) :
    Aside s (s.confirmBuffer now seqn) := by
  refine ⟨confirmBuffer_store now s seqn, ?_,
    confirmEvents now s.replicaManager.confirmationBuffer seqn, ?_, ?_⟩
  · rw [confirmBuffer_eq]
  · rw [confirmBuffer_eq]
  · intro e he
    obtain rfl | ⟨k, c, -, -, -, rfl⟩ := mem_confirmEvents he <;> exact ⟨rfl, rfl, rfl⟩

theorem aside_confirmToPrimary (now : UInt64) (s : Server) (seqn : UInt64) :
    Aside s (s.confirmToPrimary now seqn) := by
  unfold confirmToPrimary
  split <;> exact aside_record s ⟨rfl, rfl, rfl⟩

theorem aside_sendToPeers (message : Packet) (lastSeqnTemp : UInt64) (container i : Nat)
    (peers : List Peer) : (sendToPeers message lastSeqnTemp container i peers).Always Aside := by
  induction peers generalizing i with
  | nil => exact always_pure _
  | cons peer peers ih =>
    exact always_act (fun s => aside_record s ⟨rfl, rfl, rfl⟩) fun _ => ih (i + 1)

theorem aside_confirmMessage (now seqn : UInt64) : (confirmMessage now seqn).Always Aside := by
  refine always_act Aside.refl fun isPrimary => ?_
  cases isPrimary with
  | true => exact always_update fun s => aside_confirmBuffer now s seqn
  | false => exact always_update fun s => aside_confirmToPrimary now s seqn

theorem aside_replicate (now : UInt64) (message : Packet) (address : SocketAddress) :
    (replicate now message address).Always Aside := by
  have hincrement : ∀ s : Server, Aside s s.incrementSeqn := fun s =>
    ⟨rfl, rfl, [], (List.append_nil _).symm, fun _ h => by cases h⟩
  refine always_act Aside.refl fun isPrimary => ?_
  cases isPrimary with
  | true =>
    refine always_act Aside.refl fun peers => always_act Aside.refl fun lastSeqn =>
      always_act Aside.refl fun lastSeqnTemp => always_act hincrement fun _ =>
      always_act hincrement fun _ => always_act hincrement fun _ =>
      always_act (fun s => ⟨rfl, rfl, _, rfl, fun e he => ?_⟩) fun container => ?_
    · rw [List.mem_singleton.mp he]
      exact ⟨rfl, rfl, rfl⟩
    · exact aside_sendToPeers message lastSeqnTemp container 0 peers
  | false => exact aside_confirmMessage now message.seqn

theorem aside_requestUserInfo (address : SocketAddress) : (requestUserInfo address).Always Aside := by
  refine always_act Aside.refl fun name => ?_
  cases name with
  | none => exact always_pure _
  | some username =>
    refine always_act Aside.refl fun profile => ?_
    cases profile with
    | none => exact always_pure _
    | some p => exact always_update fun s => aside_getConnectedUsers s p

theorem aside_otherCmd (type : UInt16) : (otherCmd type).Always Aside := by
  unfold otherCmd
  split
  · exact always_pure _
  · exact always_update fun s => aside_record s ⟨rfl, rfl, rfl⟩

end Server

end Piupiu
