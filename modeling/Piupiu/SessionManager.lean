import Piupiu.Packet

/-!
# Sessions

`SessionManager` keeps one `Session` per user handle in a `std::map`. A session is
allocated once and never freed, so a `Session*` is its position on the heap, and
the map leads from a handle to that position.
-/
namespace Piupiu

structure SocketAddress where
  address : Str
  port : Int
  deriving DecidableEq, Inhabited, Repr

abbrev SessionRef := Nat

structure Session where
  sessionId : Int
  userHandle : Str
  sockets : List SocketAddress
  deriving DecidableEq, Inhabited, Repr

def maxSessionsPerUser : Nat := 2

/-- The session a handle leads to carries that handle. -/
def Keyed (heap : List Session) (sessions : Std.TreeMap Str SessionRef) : Prop :=
  ∀ k r, sessions[k]? = some r → ∃ s : Session, heap[r]? = some s ∧ s.userHandle = k

structure SessionManager where
  heap : List Session
  sessions : Std.TreeMap Str SessionRef
  keyed : Keyed heap sessions

theorem keyed_empty : Keyed [] ∅ := by
  intro k r h
  simp at h

theorem keyed_insert {heap : List Session} {sessions : Std.TreeMap Str SessionRef}
    (h : Keyed heap sessions) (s : Session) :
    Keyed (heap ++ [s]) (sessions.insertIfNew s.userHandle heap.length) := by
  intro k r hr
  rw [Std.TreeMap.getElem?_insertIfNew] at hr
  split at hr
  · next hk =>
    cases hr
    exact ⟨s, by simp, Std.LawfulEqOrd.compare_eq_iff_eq.mp hk.1⟩
  · obtain ⟨s', hs', he⟩ := h k r hr
    obtain ⟨hlt, -⟩ := List.getElem?_eq_some_iff.mp hs'
    exact ⟨s', by rw [List.getElem?_append_left hlt, hs'], he⟩

theorem keyed_modify {heap : List Session} {sessions : Std.TreeMap Str SessionRef}
    (h : Keyed heap sessions) (r : SessionRef) (sockets : List SocketAddress) :
    Keyed (heap.modify r fun s => { s with sockets := sockets }) sessions := by
  intro k r' hr'
  obtain ⟨s, hs, he⟩ := h k r' hr'
  refine ⟨if r = r' then { s with sockets := sockets } else s, ?_, ?_⟩
  · simp [List.getElem?_modify, hs]
  · split <;> exact he

namespace SessionManager

def empty : SessionManager := ⟨[], ∅, keyed_empty⟩

/-- The object behind a `Session*`. -/
def deref (m : SessionManager) (r : SessionRef) : Session := m.heap.getD r default

/-- `new Session()`, its two assignments, its first socket, and `sessions.insert`. -/
def newSession (m : SessionManager) (userHandle : Str) (sender : SocketAddress) : SessionManager :=
  ⟨m.heap ++ [⟨1, userHandle, [sender]⟩], m.sessions.insertIfNew userHandle m.heap.length,
    keyed_insert m.keyed ⟨1, userHandle, [sender]⟩⟩

def setSockets (m : SessionManager) (r : SessionRef) (sockets : List SocketAddress) :
    SessionManager :=
  ⟨m.heap.modify r fun s => { s with sockets := sockets }, m.sessions, keyed_modify m.keyed r sockets⟩

/-- `StartSession` for a profile with the handle `userHandle`. -/
def startSession (m : SessionManager) (userHandle : Str) (sender : SocketAddress) :
    SessionManager × Option SessionRef :=
  match m.sessions[userHandle]? with
  | none => (m.newSession userHandle sender, some m.heap.length)
  | some r =>
    if maxSessionsPerUser ≤ (m.deref r).sockets.length then (m, none)
    else (m.setSockets r ((m.deref r).sockets ++ [sender]), some r)

/-- `EndSession` for a profile with the handle `userHandle`. -/
def endSession (m : SessionManager) (userHandle : Str) (sender : SocketAddress) :
    SessionManager × Int :=
  match m.sessions[userHandle]? with
  | none => (m, 0)
  | some r =>
    if sender ∈ (m.deref r).sockets then (m.setSockets r ((m.deref r).sockets.erase sender), 1)
    else (m, 0)

/-- The scan of all sessions in map order; `none` is the return value 0. -/
def getUserNameByAddressAndIP (m : SessionManager) (address : SocketAddress) : Option Str :=
  m.sessions.toList.findSome? fun it =>
    if address ∈ (m.deref it.2).sockets then some (m.deref it.2).userHandle else none

def getUserAddresses (m : SessionManager) (handle : Str) : List SocketAddress :=
  match m.sessions[handle]? with
  | none => []
  | some r => (m.deref r).sockets

variable (m : SessionManager) (u v : Str) (a : SocketAddress)

theorem deref_userHandle {k : Str} {r : SessionRef} (h : m.sessions[k]? = some r) :
    (m.deref r).userHandle = k := by
  obtain ⟨s, hs, he⟩ := m.keyed k r h
  simp [deref, List.getD, hs, he]

theorem ref_lt {k : Str} {r : SessionRef} (h : m.sessions[k]? = some r) : r < m.heap.length := by
  obtain ⟨s, hs, -⟩ := m.keyed k r h
  exact (List.getElem?_eq_some_iff.mp hs).1

theorem ref_injective {k k' : Str} {r : SessionRef} (h : m.sessions[k]? = some r)
    (h' : m.sessions[k']? = some r) : k = k' := by
  rw [← m.deref_userHandle h, m.deref_userHandle h']

theorem getUserAddresses_of_ref {k : Str} {r : SessionRef} (h : m.sessions[k]? = some r) :
    m.getUserAddresses k = (m.deref r).sockets := by
  simp [getUserAddresses, h]

@[simp] theorem getUserAddresses_empty : empty.getUserAddresses u = [] := by
  simp [getUserAddresses, empty]

@[simp] theorem setSockets_sessions (r : SessionRef) (sockets : List SocketAddress) :
    (m.setSockets r sockets).sessions = m.sessions := rfl

theorem newSession_ref (k : Str) :
    (m.newSession u a).sessions[k]? =
      if k = u ∧ m.sessions[u]? = none then some m.heap.length else m.sessions[k]? := by
  simp only [newSession, Std.TreeMap.getElem?_insertIfNew]
  by_cases hk : k = u
  · subst k
    cases hu : m.sessions[u]? <;> simp [Std.TreeMap.mem_iff_isSome_getElem?, hu]
  · have hne : ¬compare u k = .eq := fun h => hk (Std.LawfulEqOrd.compare_eq_iff_eq.mp h).symm
    simp [hne, hk]

theorem newSession_deref (r : SessionRef) :
    (m.newSession u a).deref r = if r = m.heap.length then ⟨1, u, [a]⟩ else m.deref r := by
  simp only [newSession, deref, List.getD]
  rcases Nat.lt_trichotomy r m.heap.length with h | h | h
  · simp [List.getElem?_append_left h, Nat.ne_of_lt h]
  · simp [h]
  · have hn : (m.heap ++ [⟨1, u, [a]⟩])[r]? = none := by
      rw [List.getElem?_eq_none_iff]
      simp only [List.length_append, List.length_singleton]
      omega
    have hn' : m.heap[r]? = none := List.getElem?_eq_none_iff.mpr (by omega)
    simp [hn, hn', Nat.ne_of_gt h]

theorem setSockets_deref {r : SessionRef} (h : r < m.heap.length) (sockets : List SocketAddress)
    (r' : SessionRef) :
    (m.setSockets r sockets).deref r' =
      if r' = r then { m.deref r with sockets := sockets } else m.deref r' := by
  simp only [setSockets, deref, List.getD, List.getElem?_modify]
  by_cases hr : r' = r
  · subst r'
    simp [List.getElem?_eq_getElem h]
  · cases m.heap[r']? <;> simp [hr, Ne.symm hr]

theorem getUserAddresses_newSession (h : m.sessions[u]? = none) :
    (m.newSession u a).getUserAddresses v = if v = u then [a] else m.getUserAddresses v := by
  simp only [getUserAddresses, newSession_ref, h, and_true]
  by_cases hv : v = u
  · simp [hv, newSession_deref]
  · cases hr : m.sessions[v]? with
    | none => simp [hv]
    | some r => simp [hv, newSession_deref, Nat.ne_of_lt (m.ref_lt hr)]

theorem getUserAddresses_setSockets {r : SessionRef} (h : m.sessions[u]? = some r)
    (sockets : List SocketAddress) :
    (m.setSockets r sockets).getUserAddresses v =
      if v = u then sockets else m.getUserAddresses v := by
  simp only [getUserAddresses, setSockets_sessions]
  by_cases hv : v = u
  · simp [hv, h, setSockets_deref m (m.ref_lt h)]
  · cases hr : m.sessions[v]? with
    | none => simp [hv]
    | some r' =>
      have hne : r' ≠ r := by
        intro he
        subst he
        exact hv (m.ref_injective hr h)
      simp [hv, setSockets_deref m (m.ref_lt h), hne]

/-- A session is refused exactly when the user has no room for another socket. -/
theorem startSession_isSome :
    (m.startSession u a).2.isSome ↔ (m.getUserAddresses u).length < maxSessionsPerUser := by
  simp only [startSession, getUserAddresses]
  cases m.sessions[u]? with
  | none => simp [maxSessionsPerUser]
  | some r => by_cases h : maxSessionsPerUser ≤ (m.deref r).sockets.length <;> simp [h]; omega

/-- A refused call changes nothing at all. -/
theorem startSession_refused (h : (m.startSession u a).2 = none) : (m.startSession u a).1 = m := by
  simp only [startSession] at h ⊢
  cases hu : m.sessions[u]? with
  | none => simp [hu] at h
  | some r => by_cases hr : maxSessionsPerUser ≤ (m.deref r).sockets.length <;> simp_all

/-- A granted call adds the sender to the end of the user's own list only. -/
theorem startSession_addresses :
    (m.startSession u a).1.getUserAddresses v =
      if v = u ∧ (m.startSession u a).2.isSome then m.getUserAddresses u ++ [a]
      else m.getUserAddresses v := by
  cases hu : m.sessions[u]? with
  | none =>
    have hnil : m.getUserAddresses u = [] := by simp [getUserAddresses, hu]
    simp [startSession, hu, getUserAddresses_newSession m u v a hu, hnil]
  | some r =>
    by_cases hr : maxSessionsPerUser ≤ (m.deref r).sockets.length
    · simp [startSession, hu, hr]
    · simp [startSession, hu, hr, getUserAddresses_setSockets m u v hu,
        getUserAddresses_of_ref m hu]

/-- The pointer a granted call returns is the one the map holds for the user. -/
theorem startSession_ref {r : SessionRef} (h : (m.startSession u a).2 = some r) :
    (m.startSession u a).1.sessions[u]? = some r := by
  cases hu : m.sessions[u]? with
  | none =>
    simp only [startSession, hu, Option.some.injEq] at h ⊢
    subst h
    simp [newSession_ref, hu]
  | some r' =>
    by_cases hr : maxSessionsPerUser ≤ (m.deref r').sockets.length
    · simp [startSession, hu, hr] at h
    · simp only [startSession, hu, hr, if_false, Option.some.injEq] at h ⊢
      rw [setSockets_sessions, hu, h]

/-- No call moves a session that is already in the map. -/
theorem startSession_keeps {k : Str} {r : SessionRef} (h : m.sessions[k]? = some r) :
    (m.startSession u a).1.sessions[k]? = some r := by
  simp only [startSession]
  cases hu : m.sessions[u]? with
  | none =>
    have hne : k ≠ u := by
      intro hk
      subst hk
      simp [h] at hu
    simp [newSession_ref, hne, h]
  | some r' => by_cases hr : maxSessionsPerUser ≤ (m.deref r').sockets.length <;> simp [hr, h]

/-- Only the user of the call can get a new entry in the map. -/
theorem startSession_keys {k : Str} (hk : k ≠ u) :
    (m.startSession u a).1.sessions[k]? = m.sessions[k]? := by
  simp only [startSession]
  cases hu : m.sessions[u]? with
  | none => simp [newSession_ref, hk]
  | some r => by_cases hr : maxSessionsPerUser ≤ (m.deref r).sockets.length <;> simp [hr]

@[simp] theorem endSession_sessions : (m.endSession u a).1.sessions = m.sessions := by
  simp only [endSession]
  cases m.sessions[u]? with
  | none => rfl
  | some r => by_cases h : a ∈ (m.deref r).sockets <;> simp [h]

theorem endSession_result :
    (m.endSession u a).2 = if a ∈ m.getUserAddresses u then 1 else 0 := by
  cases hu : m.sessions[u]? with
  | none => simp [endSession, getUserAddresses, hu]
  | some r => by_cases h : a ∈ (m.deref r).sockets <;> simp [endSession, getUserAddresses, hu, h]

/-- A call removes one occurrence of the sender from the user's own list only. -/
theorem endSession_addresses :
    (m.endSession u a).1.getUserAddresses v =
      if v = u then (m.getUserAddresses u).erase a else m.getUserAddresses v := by
  cases hu : m.sessions[u]? with
  | none =>
    have hnil : m.getUserAddresses u = [] := by simp [getUserAddresses, hu]
    by_cases hv : v = u <;> simp [endSession, hu, hv, hnil]
  | some r =>
    by_cases h : a ∈ (m.deref r).sockets
    · simp [endSession, hu, h, getUserAddresses_setSockets m u v hu, getUserAddresses_of_ref m hu]
    · by_cases hv : v = u
      · simp [endSession, hu, h, hv, getUserAddresses_of_ref m hu, List.erase_of_not_mem h]
      · simp [endSession, hu, h, hv]

/-- The lookup answers with the first user, in map order, that holds the address. -/
theorem getUserName_eq_some :
    m.getUserNameByAddressAndIP a = some u ↔
      a ∈ m.getUserAddresses u ∧ ∀ v, compare v u = .lt → a ∉ m.getUserAddresses v := by
  have hentry : ∀ it ∈ m.sessions.toList, m.sessions[it.1]? = some it.2 := fun it h =>
    Std.TreeMap.mem_toList_iff_getElem?_eq_some.mp h
  rw [getUserNameByAddressAndIP, List.findSome?_eq_some_iff]
  constructor
  · rintro ⟨before, it, after, hl, hit, hbefore⟩
    have href := hentry it (by simp [hl])
    split at hit
    · next ha =>
      cases hit
      rw [m.deref_userHandle href]
      refine ⟨by rwa [getUserAddresses_of_ref m href], fun v hv hav => ?_⟩
      cases hr : m.sessions[v]? with
      | none => simp [getUserAddresses, hr] at hav
      | some r =>
        have hmem : (v, r) ∈ m.sessions.toList := Std.TreeMap.mem_toList_iff_getElem?_eq_some.mpr hr
        have hord := Std.TreeMap.ordered_keys_toList (t := m.sessions)
        rw [hl] at hmem hord
        rcases List.mem_append.mp hmem with hb | hb
        · have := hbefore _ hb
          simp only [ite_eq_right_iff, reduceCtorEq, imp_false] at this
          exact this (by rwa [← getUserAddresses_of_ref m hr])
        · rcases List.mem_cons.mp hb with he | ht
          · rw [← he] at hv
            simp at hv
          · have hlt := (List.pairwise_cons.mp (List.pairwise_append.mp hord).2.1).1 _ ht
            simp only at hlt
            rw [Std.OrientedCmp.gt_of_lt hv] at hlt
            cases hlt
    · cases hit
  · rintro ⟨ha, hmin⟩
    cases hr : m.sessions[u]? with
    | none => simp [getUserAddresses, hr] at ha
    | some r =>
      have hmem : (u, r) ∈ m.sessions.toList := Std.TreeMap.mem_toList_iff_getElem?_eq_some.mpr hr
      obtain ⟨before, after, hl⟩ := List.mem_iff_append.mp hmem
      refine ⟨before, (u, r), after, hl, ?_, fun it hit => ?_⟩
      · rw [getUserAddresses_of_ref m hr] at ha
        simp [ha, m.deref_userHandle hr]
      · have href := hentry it (by simp [hl, hit])
        have hord := Std.TreeMap.ordered_keys_toList (t := m.sessions)
        rw [hl] at hord
        have hlt := (List.pairwise_append.mp hord).2.2 it hit (u, r) (by simp)
        have := hmin it.1 hlt
        rw [getUserAddresses_of_ref m href] at this
        simp [this]

/-- A call of one of the two operations that change sessions. -/
inductive Call where
  | start (userHandle : Str) (sender : SocketAddress)
  | finish (userHandle : Str) (sender : SocketAddress)
  deriving DecidableEq, Repr

def apply (m : SessionManager) : Call → SessionManager
  | .start u a => (m.startSession u a).1
  | .finish u a => (m.endSession u a).1

def run (m : SessionManager) (calls : List Call) : SessionManager := calls.foldl apply m

/-- The address a call adds to the session of `u`: only a granted start adds one. -/
def credit (m : SessionManager) (u : Str) : Call → Multiset SocketAddress
  | .start v a => if v = u ∧ (m.startSession v a).2.isSome then {a} else 0
  | .finish _ _ => 0

/-- The address a call takes from the session of `u`: only an end that returns 1 does. -/
def debit (m : SessionManager) (u : Str) : Call → Multiset SocketAddress
  | .start _ _ => 0
  | .finish v a => if v = u ∧ (m.endSession v a).2 = 1 then {a} else 0

/-- The addresses of the granted starts of `u` in a history. -/
def granted (u : Str) : SessionManager → List Call → Multiset SocketAddress
  | _, [] => 0
  | m, c :: calls => m.credit u c + granted u (m.apply c) calls

/-- The addresses of the ends of `u` that returned 1 in a history. -/
def ended (u : Str) : SessionManager → List Call → Multiset SocketAddress
  | _, [] => 0
  | m, c :: calls => m.debit u c + ended u (m.apply c) calls

theorem apply_balance (c : Call) :
    (m.getUserAddresses u : Multiset SocketAddress) + m.credit u c =
      (m.apply c).getUserAddresses u + m.debit u c := by
  cases c with
  | start v a =>
    simp only [apply, credit, debit, startSession_addresses, add_zero]
    by_cases hv : v = u
    · subst v
      by_cases hg : (m.startSession u a).2.isSome <;> simp [hg, ← Multiset.coe_add]
    · simp [hv, Ne.symm hv]
  | finish v a =>
    simp only [apply, credit, debit, endSession_addresses, endSession_result, add_zero]
    by_cases hv : v = u
    · subst v
      by_cases ha : a ∈ m.getUserAddresses u
      · have herase := (List.perm_cons_erase ha).symm
        simp only [if_true, ha, and_self]
        rw [← Multiset.coe_singleton, Multiset.coe_add, Multiset.coe_eq_coe]
        exact herase.symm.trans (List.perm_append_singleton a _).symm
      · simp [ha, List.erase_of_not_mem ha]
    · simp [hv, Ne.symm hv]

/-- Every address of a session was granted and has not been ended. -/
theorem run_balance (calls : List Call) :
    (m.getUserAddresses u : Multiset SocketAddress) + granted u m calls =
      (m.run calls).getUserAddresses u + ended u m calls := by
  induction calls generalizing m with
  | nil => rfl
  | cons c calls ih =>
    calc (m.getUserAddresses u : Multiset SocketAddress) + granted u m (c :: calls)
        = (m.getUserAddresses u + m.credit u c) + granted u (m.apply c) calls := by
          rw [granted, add_assoc]
      _ = ((m.apply c).getUserAddresses u + granted u (m.apply c) calls) + m.debit u c := by
          rw [apply_balance, add_right_comm]
      _ = (m.run (c :: calls)).getUserAddresses u + ended u m (c :: calls) := by
          rw [ih, ended, add_assoc, add_comm (ended u (m.apply c) calls)]
          rfl

theorem apply_capacity (h : (m.getUserAddresses u).length ≤ maxSessionsPerUser) (c : Call) :
    ((m.apply c).getUserAddresses u).length ≤ maxSessionsPerUser := by
  cases c with
  | start v a =>
    rw [apply, startSession_addresses]
    split
    · next hg =>
      obtain ⟨rfl, hg⟩ := hg
      have := (m.startSession_isSome u a).mp hg
      simp only [List.length_append, List.length_singleton]
      omega
    · exact h
  | finish v a =>
    rw [apply, endSession_addresses]
    split
    · next hv =>
      subst hv
      exact (List.length_erase_le).trans h
    · exact h

theorem run_capacity (h : (m.getUserAddresses u).length ≤ maxSessionsPerUser) (calls : List Call) :
    ((m.run calls).getUserAddresses u).length ≤ maxSessionsPerUser := by
  induction calls generalizing m with
  | nil => exact h
  | cons c calls ih => exact ih _ (m.apply_capacity u h c)

/-- What the sessions after a history of calls say about that history, and what
the next call of either kind does to them. -/
structure Accounts (calls : List Call) (m : SessionManager) : Prop where
  balance : ∀ u, (m.getUserAddresses u : Multiset SocketAddress) =
    granted u empty calls - ended u empty calls
  capacity : ∀ u, (m.getUserAddresses u).length ≤ maxSessionsPerUser
  refusal : ∀ u a, (m.startSession u a).2 = none ↔
    (m.getUserAddresses u).length = maxSessionsPerUser
  refused_unchanged : ∀ u a, (m.startSession u a).2 = none → (m.startSession u a).1 = m
  end_result : ∀ u a, (m.endSession u a).2 = 1 ↔ a ∈ m.getUserAddresses u
  end_removes : ∀ u a, (m.endSession u a).1.getUserAddresses u = (m.getUserAddresses u).erase a
  keyed : ∀ k r, m.sessions[k]? = some r → (m.deref r).userHandle = k
  others : ∀ u a v, v ≠ u →
    (m.startSession u a).1.getUserAddresses v = m.getUserAddresses v ∧
      (m.endSession u a).1.getUserAddresses v = m.getUserAddresses v

/-- The sessions of a manager that started empty account for every call made on it. -/
theorem session_accounting (calls : List Call) : Accounts calls (empty.run calls) := by
  have hcap : ∀ u, ((empty.run calls).getUserAddresses u).length ≤ maxSessionsPerUser := fun u =>
    run_capacity empty u (by simp) calls
  refine ⟨fun u => ?_, hcap, fun u a => ?_, fun u a => startSession_refused _ u a, fun u a => ?_,
    fun u a => ?_, fun k r => deref_userHandle _, fun u a v hv => ⟨?_, ?_⟩⟩
  · have h := run_balance empty u calls
    rw [getUserAddresses_empty, Multiset.coe_nil, zero_add] at h
    rw [h, Multiset.add_sub_cancel_right]
  · rw [← Option.not_isSome_iff_eq_none, startSession_isSome]
    have := hcap u
    omega
  · rw [endSession_result]
    split <;> simp_all
  · simp [endSession_addresses]
  · simp [startSession_addresses, hv]
  · simp [endSession_addresses, hv]

end SessionManager

end Piupiu
