import Piupiu.Runs
import Piupiu.Lib.History

/-!
# CONNECT handlers side by side

`Listen` starts a thread for every packet. Here any number of CONNECT handlers run
on one server, one atomic action of any of them at a time. The search for a
profile and the push of a new one are two actions, so two handlers may both search
before either of them pushes.
-/
namespace Piupiu

open Atomic Atomic.Prog Server

/-- How far a CONNECT handler has come: before its search, after a search that
found nothing, or anywhere behind. -/
inductive Stage where
  | lookup
  | push
  | rest (p : Prog Server Unit)

structure Handler where
  now : UInt64
  message : Packet
  address : SocketAddress
  stage : Stage

namespace Handler

/-- What a handler does once it has its profile. -/
def connected (h : Handler) (profile : ProfileRef) : Prog Server Unit := do
  admitUser profile h.address
  replicate h.now h.message h.address

/-- What is left of the program of the handler. -/
def prog (h : Handler) : Prog Server Unit :=
  match h.stage with
  | .lookup => connectCmd h.now h.message h.address
  | .push => do
    let profile ← newProfile h.message.text
    h.connected profile
  | .rest p => p

/-- The next action of the handler. -/
def next (h : Handler) (s : Server) : Server × Handler :=
  match h.stage with
  | .lookup =>
    match s.profileManager.getProfileByName h.message.text with
    | some profile => (s, { h with stage := .rest (h.connected profile) })
    | none => (s, { h with stage := .push })
  | .push =>
    let (s', profile) := s.pushProfile h.message.text
    (s', { h with stage := .rest do
      update sync
      h.connected profile })
  | .rest p =>
    match p with
    | .done _ => (s, h)
    | .act f k => ((f s).1, { h with stage := .rest (k (f s).2) })

/-- The stages are those of the handler's program. -/
theorem next_prog (h : Handler) (s : Server) :
    Config.advance ⟨s, h.prog⟩ = ⟨(h.next s).1, (h.next s).2.prog⟩ := by
  obtain ⟨now, message, address, stage⟩ := h
  cases stage with
  | lookup =>
    have hstart : connectCmd now message address =
        .act (fun s => (s, s.profileManager.getProfileByName message.text)) fun found =>
          (match found with
            | some p => pure p
            | none => newProfile message.text : Prog Server ProfileRef).bind
            (Handler.connected ⟨now, message, address, .lookup⟩) := rfl
    simp only [prog, next, hstart, Config.advance]
    cases s.profileManager.getProfileByName message.text <;> rfl
  | push => rfl
  | rest p => cases p <;> rfl

/-- The handle that is searched, not found, and not pushed yet. -/
def pending? (h : Handler) : Option Str :=
  match h.stage with
  | .push => some h.message.text
  | _ => none

/-- Behind the push a handler leaves the handles alone, whatever the others do. -/
def Quiet (p : Prog Server Unit) : Prop := ∀ s,
  p.Safe (fun _ _ => True) (fun a b => b.profileManager.handles = a.profileManager.handles)
    (fun _ _ => True) s

theorem quiet_pure : Quiet (pure ()) := fun _ _ _ => trivial

theorem quiet_update {f : Server → Server}
    (h : ∀ s, (f s).profileManager.handles = s.profileManager.handles) : Quiet (update f) :=
  fun _ _ _ => ⟨h _, fun _ _ => trivial⟩

theorem quiet_act {β : Type} {f : Server → Server × β} {k : β → Prog Server Unit}
    (h : ∀ s, (f s).1.profileManager.handles = s.profileManager.handles) (hk : ∀ b, Quiet (k b)) :
    Quiet (.act f k) := fun _ _ _ => ⟨h _, hk _ _⟩

theorem quiet_bind {p : Prog Server Unit} {k : Unit → Prog Server Unit} (hp : Quiet p)
    (hk : ∀ b, Quiet (k b)) : Quiet (p.bind k) := fun s =>
  Safe.bind (fun _ => trivial) ((hp s).mono (fun _ _ hg => hg) fun b t _ => hk b t)

theorem quiet_sendToPeers (message : Packet) (lastSeqnTemp : UInt64) (container i : Nat)
    (peers : List Peer) : Quiet (sendToPeers message lastSeqnTemp container i peers) := by
  induction peers generalizing i with
  | nil => exact quiet_pure
  | cons peer peers ih => exact quiet_act (fun _ => rfl) fun _ => ih (i + 1)

theorem confirmBuffer_profiles (now : UInt64) (s : Server) (seqn : UInt64) :
    (s.confirmBuffer now seqn).profileManager = s.profileManager := by
  have hcallbacks : ∀ (called : List Nat) (s : Server),
      (called.foldl (callback now) s).profileManager = s.profileManager := by
    intro called
    induction called with
    | nil => exact fun _ => rfl
    | cons k called ih =>
      intro s
      rw [List.foldl_cons, ih]
      unfold callback
      split
      · split <;> rfl
      · rfl
  exact hcallbacks _ _

theorem quiet_replicate (now : UInt64) (message : Packet) (address : SocketAddress) :
    Quiet (replicate now message address) := by
  refine quiet_act (fun _ => rfl) fun isPrimary => ?_
  cases isPrimary with
  | true =>
    refine quiet_act (fun _ => rfl) fun peers => quiet_act (fun _ => rfl) fun _ =>
      quiet_act (fun _ => rfl) fun _ => quiet_act (fun _ => rfl) fun _ =>
      quiet_act (fun _ => rfl) fun _ => quiet_act (fun _ => rfl) fun _ =>
      quiet_act (fun _ => rfl) fun container => ?_
    exact quiet_sendToPeers _ _ _ _ peers
  | false =>
    refine quiet_act (fun _ => rfl) fun isPrimary => ?_
    cases isPrimary with
    | true => exact quiet_update fun s => by rw [confirmBuffer_profiles]
    | false =>
      refine quiet_update fun s => ?_
      unfold confirmToPrimary
      split <;> rfl

theorem quiet_connected (h : Handler) (profile : ProfileRef) : Quiet (h.connected profile) := by
  refine quiet_bind ?_ fun _ => quiet_replicate h.now h.message h.address
  refine quiet_act (fun _ => rfl) fun session => ?_
  cases session with
  | none => exact quiet_pure
  | some r =>
    refine quiet_act (fun s => ?_) fun _ => quiet_update fun s => ?_
    · exact ProfileManager.setSession_handles _ _ _
    · unfold getConnectedUsers
      split <;> rfl

theorem sync_handles (s : Server) : s.sync.profileManager.handles = s.profileManager.handles := by
  unfold Server.sync
  split <;> rfl

/-- All that is left to do once the profile is there is quiet. -/
def Settled (h : Handler) : Prop := ∀ p, h.stage = .rest p → Quiet p

/-- What an action of a handler can do to the handles: nothing, or it finds its own
one missing, or it pushes it. -/
theorem next_cases {h : Handler} (hs : h.Settled) (s : Server) : (h.next s).2.Settled ∧
    (((h.next s).1.profileManager.handles = s.profileManager.handles ∧
        (h.next s).2.pending? = h.pending?) ∨
      (h.stage = .lookup ∧ h.message.text ∉ s.profileManager.handles ∧
        (h.next s).1.profileManager.handles = s.profileManager.handles ∧
        h.pending? = none ∧ (h.next s).2.pending? = some h.message.text) ∨
      ((h.next s).1.profileManager.handles = s.profileManager.handles ++ [h.message.text] ∧
        h.pending? = some h.message.text ∧ (h.next s).2.pending? = none)) := by
  obtain ⟨now, message, address, stage⟩ := h
  cases stage with
  | lookup =>
    simp only [next]
    cases hp : s.profileManager.getProfileByName message.text with
    | some profile =>
      refine ⟨fun p hp => ?_, .inl ⟨rfl, rfl⟩⟩
      cases hp
      exact quiet_connected _ _
    | none =>
      have hmissing : message.text ∉ s.profileManager.handles := by
        rw [← ProfileManager.getProfileByName_isSome, hp]
        decide
      exact ⟨fun p hp => (by cases hp), .inr (.inl ⟨trivial, hmissing, rfl, rfl, rfl⟩)⟩
  | push =>
    refine ⟨fun p hp => ?_, .inr (.inr ⟨?_, rfl, rfl⟩)⟩
    · cases hp
      exact quiet_act sync_handles fun _ => quiet_connected _ _
    · exact ProfileManager.newProfile_handles _ _
  | rest p =>
    cases p with
    | done a => exact ⟨hs, .inl ⟨rfl, rfl⟩⟩
    | act f k =>
      obtain ⟨hsame, -⟩ := hs _ rfl s s trivial
      refine ⟨fun p hp => ?_, .inl ⟨hsame, rfl⟩⟩
      cases hp
      exact fun t => (hs _ rfl t s trivial).2.rely (fun _ _ _ _ _ => trivial) trivial

end Handler

/-- The server and all handlers that were started on it. -/
structure Pool where
  shared : Server
  handlers : List Handler

namespace Pool

/-- A CONNECT comes and its handler starts, or the handler at `i` performs an action. -/
inductive Move where
  | connect (now : UInt64) (message : Packet) (address : SocketAddress)
  | step (i : Nat)

def move (c : Pool) : Move → Pool
  | .connect now message address =>
    { c with handlers := c.handlers ++ [⟨now, message, address, .lookup⟩] }
  | .step i =>
    match c.handlers[i]? with
    | some h => ⟨(h.next c.shared).1, c.handlers.set i (h.next c.shared).2⟩
    | none => c

def run (s : Server) (moves : List Move) : Pool := moves.foldl move ⟨s, []⟩

def handles (c : Pool) : List Str := c.shared.profileManager.handles

/-- The handles that some handler has found missing and is about to push. -/
def pending (c : Pool) : List Str := c.handlers.filterMap Handler.pending?

/-- A handler that finds its handle missing is the only one that is about to push it. -/
def Uncontended (c : Pool) : Move → Prop
  | .connect _ _ _ => True
  | .step i => ∀ h, c.handlers[i]? = some h → h.stage = .lookup →
      h.message.text ∉ c.handles → h.message.text ∉ c.pending

/-- Every handle is there once, or will be pushed by one handler. -/
structure Reserved (c : Pool) : Prop where
  distinct : (c.handles ++ c.pending).Nodup
  settled : ∀ h ∈ c.handlers, h.Settled

/-- An action changes at most the handler's own entry of the pending handles. -/
theorem pending_set {c : Pool} {i : Nat} {h : Handler} (hi : c.handlers[i]? = some h) :
    ∃ before after, c.pending = before ++ h.pending?.toList ++ after ∧ ∀ s h',
      (⟨s, c.handlers.set i h'⟩ : Pool).pending = before ++ h'.pending?.toList ++ after := by
  obtain ⟨hlt, rfl⟩ := List.getElem?_eq_some_iff.mp hi
  have hmid : ∀ (x : Handler) (l : List Handler), (x :: l).filterMap Handler.pending? =
      x.pending?.toList ++ l.filterMap Handler.pending? := by
    intro x l
    cases hx : x.pending? <;> simp [hx]
  refine ⟨(c.handlers.take i).filterMap Handler.pending?,
    (c.handlers.drop (i + 1)).filterMap Handler.pending?, ?_, fun s h' => ?_⟩
  · unfold pending
    conv_lhs => rw [← List.take_append_drop i c.handlers, List.drop_eq_getElem_cons hlt]
    rw [List.filterMap_append, hmid, List.append_assoc]
  · unfold pending
    rw [List.set_eq_take_append_cons_drop, if_pos hlt, List.filterMap_append, hmid,
      List.append_assoc]

theorem move_step {c : Pool} {i : Nat} {h : Handler} (hi : c.handlers[i]? = some h) :
    c.move (.step i) = ⟨(h.next c.shared).1, c.handlers.set i (h.next c.shared).2⟩ := by
  simp only [move, hi]

/-- One handle among the pending ones, put in front of all. -/
theorem reserved_perm (handles before after : List Str) (x : Str) :
    (handles ++ (before ++ [x] ++ after)).Perm (x :: (handles ++ (before ++ after))) := by
  have hmiddle : handles ++ (before ++ [x] ++ after) = (handles ++ before) ++ x :: after := by simp
  rw [hmiddle, ← List.append_assoc]
  exact List.perm_middle

theorem step_reserved {c : Pool} (hc : c.Reserved) {i : Nat} (hu : c.Uncontended (.step i)) :
    (c.move (.step i)).Reserved := by
  cases hi : c.handlers[i]? with
  | none =>
    have hsame : c.move (.step i) = c := by simp only [move, hi]
    rwa [hsame]
  | some h =>
    obtain ⟨before, after, hpending, hset⟩ := pending_set hi
    obtain ⟨hsettled, hnext⟩ := Handler.next_cases (hc.settled h (List.mem_of_getElem? hi)) c.shared
    have hdistinct := hc.distinct
    have hfree := hu h hi
    rw [move_step hi]
    constructor
    · rw [hset]
      rw [hpending] at hdistinct hfree
      unfold handles at hdistinct hfree ⊢
      obtain ⟨hsame, hp⟩ | ⟨hlookup, hmissing, hsame, hp, hp'⟩ | ⟨hpushed, hp, hp'⟩ := hnext
      · rwa [hsame, hp]
      · have hfree := hfree hlookup hmissing
        rw [hp] at hdistinct hfree
        rw [hsame, hp']
        simp only [Option.toList_none, List.append_nil, Option.toList_some] at hdistinct hfree ⊢
        rw [(reserved_perm _ _ _ _).nodup_iff, List.nodup_cons, List.mem_append, not_or]
        exact ⟨⟨hmissing, hfree⟩, hdistinct⟩
      · rw [hp] at hdistinct
        rw [hpushed, hp']
        simp only [Option.toList_none, List.append_nil, Option.toList_some] at hdistinct ⊢
        rw [(reserved_perm _ _ _ _).nodup_iff] at hdistinct
        rw [List.append_assoc, List.singleton_append, List.perm_middle.nodup_iff]
        exact hdistinct
    · intro g hg
      obtain hg | rfl := List.mem_or_eq_of_mem_set hg
      · exact hc.settled g hg
      · exact hsettled

theorem move_reserved {c : Pool} (hc : c.Reserved) {m : Move} (hu : c.Uncontended m) :
    (c.move m).Reserved := by
  cases m with
  | step i => exact step_reserved hc hu
  | connect now message address =>
    constructor
    · have hpending : (c.move (.connect now message address)).pending = c.pending := by
        simp [move, pending, Handler.pending?]
      rw [hpending]
      exact hc.distinct
    · intro h hm
      obtain hm | hm := List.mem_append.mp hm
      · exact hc.settled h hm
      · rw [List.mem_singleton.mp hm]
        intro p hp
        cases hp

theorem run_concat (s : Server) (moves : List Move) (m : Move) :
    run s (moves ++ [m]) = (run s moves).move m := by
  simp [run]

/-- When no handler searches for a handle that another one is about to push, no
state of the run holds two profiles with the same handle. -/
theorem connects_distinct (s : Server) (hs : s.profileManager.handles.Nodup) {moves : List Move}
    (hu : ∀ k m, moves[k]? = some m → (run s (moves.take k)).Uncontended m) :
    (run s moves).shared.profileManager.handles.Nodup := by
  replace hu : History.EachStep (fun before m => (run s before).Uncontended m) moves := hu
  have hreserved : (run s moves).Reserved := by
    induction moves using List.reverseRecOn with
    | nil =>
      refine ⟨?_, fun h hm => by cases hm⟩
      exact hs.append List.nodup_nil (List.disjoint_nil_right _)
    | append_singleton moves m ih =>
      obtain ⟨hbefore, hlast⟩ := (History.eachStep_concat moves m).mp hu
      rw [run_concat]
      exact move_reserved (ih hbefore) hlast
  exact (List.nodup_append.mp hreserved.distinct).1

/-- Two handlers for one handle, started before either of them searches. -/
def twoConnects : List Move :=
  [.connect 0 (clientPacket packetConnectCmd 0 [97]) ⟨[], 1⟩,
    .connect 0 (clientPacket packetConnectCmd 0 [97]) ⟨[], 2⟩]

/-- The second handler searches when the first one is done with its push. -/
theorem connects_distinct_one_by_one : (run alone
    (twoConnects ++ [.step 0, .step 0, .step 1])).shared.profileManager.handles.Nodup := by
  refine connects_distinct alone (by decide) fun k m hk => ?_
  have hlt := (List.getElem?_eq_some_iff.mp hk).1
  have hlength : (twoConnects ++ [Move.step 0, .step 0, .step 1]).length = 5 := rfl
  rw [hlength] at hlt
  interval_cases k
  all_goals cases hk
  · trivial
  · trivial
  · intro h hi hs hm
    have hpending : (run alone twoConnects).pending = [] := by decide +kernel
    exact hpending ▸ List.not_mem_nil
  · intro h hi hs hm
    cases hi
    cases hs
  · intro h hi hs hm
    have hpending : (run alone (twoConnects ++ [.step 0, .step 0])).pending = [] := by decide +kernel
    exact hpending ▸ List.not_mem_nil

/-- Both handlers search, and then both push. -/
theorem not_distinct_side_by_side : alone.profileManager.handles.Nodup ∧ ¬(run alone
    (twoConnects ++ [.step 0, .step 1, .step 0, .step 1])).shared.profileManager.handles.Nodup := by
  decide +kernel

/-- A handler that searches for a handle that another one is about to push can
always bring two profiles with this handle about. -/
theorem contended_duplicates {c : Pool} {i : Nat} {h : Handler} (hi : c.handlers[i]? = some h)
    (hlookup : h.stage = .lookup) (hmissing : h.message.text ∉ c.handles)
    (hpending : h.message.text ∈ c.pending) :
    ∃ j, ¬(((c.move (.step i)).move (.step j)).move (.step i)).handles.Nodup := by
  obtain ⟨g, hg, htext⟩ := List.mem_filterMap.mp hpending
  obtain ⟨j, hj⟩ := List.getElem?_of_mem hg
  obtain ⟨now, message, address, stage⟩ := h
  obtain ⟨now', message', address', stage'⟩ := g
  cases hlookup
  cases stage' with
  | lookup => cases htext
  | rest p => cases htext
  | push =>
    have hne : i ≠ j := by
      rintro rfl
      cases hi.symm.trans hj
    have hnone : c.shared.profileManager.getProfileByName message.text = none := by
      rw [← Option.not_isSome_iff_eq_none, ProfileManager.getProfileByName_isSome]
      exact hmissing
    refine ⟨j, ?_⟩
    rw [move_step hi]
    simp only [Handler.next, hnone]
    have hltj := (List.getElem?_eq_some_iff.mp hj).1
    have hlti := (List.getElem?_eq_some_iff.mp hi).1
    rw [move_step (i := j) (by rw [List.getElem?_set_ne hne, hj])]
    simp only [Handler.next]
    rw [move_step (i := i) (by rw [List.getElem?_set_ne hne.symm, List.getElem?_set_self hlti])]
    simp only [Handler.next, handles, Server.pushProfile, ProfileManager.newProfile_handles]
    have hsame : message'.text = message.text := Option.some.inj htext
    rw [hsame]
    intro hnodup
    have hlast := (List.nodup_append.mp hnodup).2.2 message.text (by simp) message.text (by simp)
    exact hlast rfl

end Pool

end Piupiu
