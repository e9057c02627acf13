import Piupiu.Notifications

/-!
# The follow graph

Handles are found by name in the profiles, hosts by address in the sessions, and a
follower is a pointer to a profile. What holds of the three together after any
packets, and what a packet can do to profiles and followers that are there.
-/
namespace Piupiu

namespace ProfileManager

/-- Profiles and followers are only ever added, and only at the end. -/
structure Grows (m m' : ProfileManager) : Prop where
  handles : m.handles <+: m'.handles
  followers : ∀ p, (m.deref p).followers <+: (m'.deref p).followers

end ProfileManager

namespace Store

/-- The conjunction over both stores that the packets keep. -/
structure FollowGraph (st : Store) : Prop where
  distinct : st.profiles.handles.Nodup
  users : ∀ (k : Str) (r : SessionRef), st.sessions.sessions[k]? = some r →
    ∃ p, st.profiles.getProfileByName (st.sessions.deref r).userHandle = some p
  known : ∀ p, p < st.profiles.profiles.length →
    ∀ f ∈ (st.profiles.deref p).followers, f < st.profiles.profiles.length
  once : ∀ p, p < st.profiles.profiles.length → (st.profiles.deref p).followers.Nodup
  others : ∀ p, p ∉ (st.profiles.deref p).followers

variable {st : Store}

/-- The two ends of an edge that FOLLOW adds are found under different names. -/
theorem followEdge_ne {target : Str} {address : SocketAddress} {p follower : ProfileRef}
    (h : st.followEdge target address = some (p, follower)) : p ≠ follower := by
  obtain ⟨username, -, hne, hp, hf⟩ := followEdge_some h
  intro he
  subst he
  have htarget := (ProfileManager.getProfileByName_some _ hp).2
  have hname := (ProfileManager.getProfileByName_some _ hf).2
  exact hne (htarget.symm.trans hname)

theorem handle_others (message : Packet) (address : SocketAddress)
    (h : ∀ p, p ∉ (st.profiles.deref p).followers) (p : ProfileRef) :
    p ∉ ((st.handle message address).profiles.deref p).followers := by
  obtain he | ⟨follower, -, hedge, he⟩ := st.handle_followers message address p
  · rw [he]
    exact h p
  · rw [he, List.mem_append, List.mem_singleton]
    exact fun hm => hm.elim (h p) (followEdge_ne hedge)

theorem handle_grows (message : Packet) (address : SocketAddress) :
    st.profiles.Grows (st.handle message address).profiles := by
  constructor
  · rw [handle_handles]
    split
    · exact List.prefix_append _ _
    · exact List.prefix_rfl
  · intro p
    obtain he | ⟨follower, -, -, he⟩ := st.handle_followers message address p
    · rw [he]
    · rw [he]
      exact List.prefix_append _ _

theorem Linked.followGraph (h : st.Linked) (hothers : ∀ p, p ∉ (st.profiles.deref p).followers) :
    st.FollowGraph where
  distinct := h.graph.distinct
  users k r hr := by
    have hmem := h.known k r hr
    rw [← st.sessions.deref_userHandle hr] at hmem
    exact Option.isSome_iff_exists.mp ((ProfileManager.getProfileByName_isSome _ _).mpr hmem)
  known := h.graph.known
  once := h.graph.once
  others := hothers

end Store

namespace Server

/-- A packet handled in a linked store meets no undefined behaviour, when its type is
defined. -/
theorem handle_fault {s : Server} (h : s.store.Linked) (now : UInt64) (message : Packet)
    (address : SocketAddress) {f : Fault} (hf : .fault f ∈ (s.handle now message address).log) :
    .fault f ∈ s.log ∨ f = .noPrimaryPeer ∨ f = .unknownType := by
  refine handle_preserves (P := fun s' => .fault f ∈ s'.log →
    .fault f ∈ s.log ∨ f = .noPrimaryPeer ∨ f = .unknownType) (fun a b hab ih hf => ?_) .inl hf
  obtain hf | he | ⟨he, -⟩ := step_fault (ready_of_linked h message address) hab hf
  · exact ih hf
  · exact .inr (.inl he)
  · exact .inr (.inr he)

/-- What holds after any packets handled one at a time from an empty store. -/
structure Regular (s : Server) : Prop where
  linked : s.store.Linked
  others : ∀ p, p ∉ (s.store.profiles.deref p).followers
  faults : ∀ f, .fault f ∈ s.log → f = .noPrimaryPeer ∨ f = .unknownType

theorem serve_regular (thisPeer : Peer) (peers : List Peer) (disk : Disk)
    (arrivals : List Arrival) : ((new thisPeer peers disk ⟨[]⟩).serve arrivals).Regular := by
  induction arrivals using List.reverseRecOn with
  | nil =>
    refine ⟨Store.linked_empty disk, fun p hp => ?_, fun f hf => ?_⟩
    · exact List.not_mem_nil hp
    · simp [serve, new] at hf
  | append_singleton arrivals a ih =>
    rw [serve_concat]
    have hstore := (handle_ended ((new thisPeer peers disk ⟨[]⟩).serve arrivals) a.now a.message
      a.address).store
    refine ⟨?_, fun p => ?_, fun f hf => ?_⟩
    · rw [hstore]
      exact Store.handle_linked ih.linked a.message a.address
    · rw [hstore]
      exact Store.handle_others a.message a.address ih.others p
    · obtain hf | he := handle_fault ih.linked a.now a.message a.address hf
      · exact ih.faults f hf
      · exact he

/-- After any packets the follow graph is sound, the next packet neither removes
nor reorders anything in it, and `AddFollower` has found every user it was given. -/
theorem follow_graph (thisPeer : Peer) (peers : List Peer) (disk : Disk)
    (arrivals : List Arrival) :
    ((new thisPeer peers disk ⟨[]⟩).serve arrivals).store.FollowGraph ∧
    (∀ a : Arrival, ((new thisPeer peers disk ⟨[]⟩).serve arrivals).profileManager.Grows
      ((new thisPeer peers disk ⟨[]⟩).serve (arrivals ++ [a])).profileManager) ∧
    .fault .noReturnValue ∉ ((new thisPeer peers disk ⟨[]⟩).serve arrivals).log := by
  have h := serve_regular thisPeer peers disk arrivals
  refine ⟨h.linked.followGraph h.others, fun a => ?_, fun hf => ?_⟩
  · rw [serve_concat]
    generalize (new thisPeer peers disk ⟨[]⟩).serve arrivals = s
    have hstore := (handle_ended s a.now a.message a.address).store
    have hgrows : s.store.profiles.Grows (s.store.handle a.message a.address).profiles :=
      Store.handle_grows a.message a.address
    rw [← hstore] at hgrows
    exact hgrows
  · obtain he | he := h.faults _ hf <;> cases he

end Server

end Piupiu
