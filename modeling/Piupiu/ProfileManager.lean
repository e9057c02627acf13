import Piupiu.SessionManager

/-!
# Profiles

`ProfileManager` keeps a vector of `Profile*`. Profiles are never freed and each
pointer is pushed once, so a `Profile*` is its position in the vector.
-/
namespace Piupiu

abbrev ProfileRef := Nat

/-- The field `Session* session` of a profile: the constructor that the handlers
use does not initialise it. -/
inductive SessionPtr where
  | unset
  | null
  | ref (r : SessionRef)
  deriving DecidableEq, Inhabited, Repr

structure Profile where
  handle : Str
  followers : List ProfileRef
  session : SessionPtr
  deriving DecidableEq, Inhabited, Repr

structure ProfileManager where
  profiles : List Profile
  deriving DecidableEq, Inhabited, Repr

/-- What lies behind a session pointer; nothing can be said of one never set. -/
def SessionManager.behind (m : SessionManager) : SessionPtr → Option (List SocketAddress)
  | .unset => none
  | .null => some []
  | .ref r => some (m.deref r).sockets

namespace ProfileManager

/-- The object behind a `Profile*`. -/
def deref (m : ProfileManager) (p : ProfileRef) : Profile := m.profiles.getD p default

def handles (m : ProfileManager) : List Str := m.profiles.map Profile.handle

/-- `GetProfileByName`; `none` is the null pointer. -/
def getProfileByName (m : ProfileManager) (userHandle : Str) : Option ProfileRef :=
  m.profiles.findIdx? fun p => p.handle = userHandle

/-- The locked push of `NewProfile`. -/
def newProfile (m : ProfileManager) (handle : Str) : ProfileManager :=
  ⟨m.profiles ++ [⟨handle, [], .unset⟩]⟩

/-- `Profile::SetSession`. -/
def setSession (m : ProfileManager) (p : ProfileRef) (session : SessionPtr) : ProfileManager :=
  ⟨m.profiles.modify p fun profile => { profile with session := session }⟩

/-- The search of `Profile::AddFollower`, once the profile of the follower is found. -/
def isFollower (m : ProfileManager) (p follower : ProfileRef) : Bool :=
  follower ∈ (m.deref p).followers

/-- Its push, for a follower that the search has not found. -/
def appendFollower (m : ProfileManager) (p follower : ProfileRef) : ProfileManager :=
  ⟨m.profiles.modify p fun profile => { profile with followers := profile.followers ++ [follower] }⟩

/-- The search and the push with nothing in between. -/
def pushFollower (m : ProfileManager) (p follower : ProfileRef) : ProfileManager × Bool :=
  if follower ∈ (m.deref p).followers then (m, false) else (m.appendFollower p follower, true)

/-- `Profile::AddFollower` without the save: 1 for a new follower, 0 for a known
one, and no value at all for an unknown user. -/
def addFollower (m : ProfileManager) (p : ProfileRef) (userHandle : Str) :
    ProfileManager × Option Int :=
  match m.getProfileByName userHandle with
  | none => (m, none)
  | some follower =>
    let (m', added) := m.pushFollower p follower
    (m', some (if added then 1 else 0))

/-- The reads of one scan over the profiles from position `k` on: `none` when the
scan looks at a session that was never set. -/
def connectedFrom (sessions : SessionManager) (exclude : Option ProfileRef) :
    Nat → List Profile → Option (List (Str × List SocketAddress))
  | _, [] => some []
  | k, user :: rest =>
    if exclude ≠ none ∧ some k ≠ exclude then
      match sessions.behind user.session with
      | none => none
      | some [] => connectedFrom sessions exclude (k + 1) rest
      | some sockets =>
        (connectedFrom sessions exclude (k + 1) rest).map fun l => (user.handle, sockets) :: l
    else connectedFrom sessions exclude (k + 1) rest

/-- `GetConnectedUsers`. -/
def getConnectedUsers (m : ProfileManager) (sessions : SessionManager)
    (exclude : Option ProfileRef) : Option (List Str) :=
  (connectedFrom sessions exclude 0 m.profiles).map fun l => l.map Prod.fst

/-- `GetConnectedSockets`. -/
def getConnectedSockets (m : ProfileManager) (sessions : SessionManager)
    (exclude : Option ProfileRef) : Option (List SocketAddress) :=
  (connectedFrom sessions exclude 0 m.profiles).map fun l => l.flatMap Prod.snd

variable (m : ProfileManager) (h : Str) (p : ProfileRef)

theorem deref_eq (hp : p < m.profiles.length) : m.profiles[p]? = some (m.deref p) := by
  simp [deref, List.getElem?_eq_getElem hp]

theorem deref_mem (hp : p < m.profiles.length) : m.deref p ∈ m.profiles :=
  List.mem_of_getElem? (m.deref_eq p hp)

theorem exists_deref {profile : Profile} (hm : profile ∈ m.profiles) :
    ∃ p, p < m.profiles.length ∧ m.deref p = profile := by
  obtain ⟨p, hp, he⟩ := List.getElem_of_mem hm
  exact ⟨p, hp, by simp [deref, hp, he]⟩

@[simp] theorem handles_length : m.handles.length = m.profiles.length := by
  simp [handles]

theorem getProfileByName_handles : m.getProfileByName h = m.handles.findIdx? (· = h) := by
  rw [handles, List.findIdx?_map]
  rfl

theorem getProfileByName_congr {m' : ProfileManager} (hm : m'.handles = m.handles) :
    m'.getProfileByName h = m.getProfileByName h := by
  rw [getProfileByName_handles, hm, ← getProfileByName_handles]

theorem getProfileByName_isSome : (m.getProfileByName h).isSome ↔ h ∈ m.handles := by
  simp [getProfileByName_handles, List.findIdx?_isSome]

theorem deref_handle (f : ProfileRef) : (m.deref f).handle = m.handles.getD f [] := by
  simp only [deref, handles, List.getD, List.getElem?_map]
  cases m.profiles[f]? <;> rfl

/-- The answer of a lookup is a profile with that handle. -/
theorem getProfileByName_some {h : Str} {p : ProfileRef} (hf : m.getProfileByName h = some p) :
    p < m.profiles.length ∧ (m.deref p).handle = h := by
  obtain ⟨hp, he, -⟩ := List.findIdx?_eq_some_iff_getElem.mp hf
  exact ⟨hp, by simpa [deref, hp] using he⟩

/-- With distinct handles a lookup finds the one profile that has the handle. -/
theorem getProfileByName_deref (hnd : m.handles.Nodup)
    (hp : p < m.profiles.length) : m.getProfileByName (m.deref p).handle = some p := by
  rw [getProfileByName, List.findIdx?_eq_some_iff_getElem]
  refine ⟨hp, by simp [deref, hp], fun j hj => ?_⟩
  have hne := (List.nodup_iff_getElem?_ne_getElem?.mp hnd) j p hj (by simpa using hp)
  have hj' : j < m.profiles.length := hj.trans hp
  simpa [deref, hp, hj', handles, List.getElem?_map] using hne

/-- A new profile is found only when no older one has its handle. -/
theorem getProfileByName_newProfile (u : Str) : (m.newProfile h).getProfileByName u =
    (m.getProfileByName u).or (if h = u then some m.profiles.length else none) := by
  simp only [getProfileByName, newProfile, List.findIdx?_append, List.findIdx?_singleton]
  congr 1
  by_cases hu : h = u <;> simp [hu]

@[simp] theorem newProfile_length : (m.newProfile h).profiles.length = m.profiles.length + 1 := by
  simp [newProfile]

theorem newProfile_deref : (m.newProfile h).deref p =
    if p = m.profiles.length then ⟨h, [], .unset⟩ else m.deref p := by
  simp only [newProfile, deref, List.getD]
  rcases Nat.lt_trichotomy p m.profiles.length with hp | hp | hp
  · simp [List.getElem?_append_left hp, Nat.ne_of_lt hp]
  · simp [hp]
  · have hn : (m.profiles ++ [⟨h, [], .unset⟩])[p]? = none := by
      rw [List.getElem?_eq_none_iff]
      simp only [List.length_append, List.length_singleton]
      omega
    have hn' : m.profiles[p]? = none := List.getElem?_eq_none_iff.mpr (by omega)
    simp [hn, hn', Nat.ne_of_gt hp]

@[simp] theorem setSession_length (session : SessionPtr) :
    (m.setSession p session).profiles.length = m.profiles.length := by
  simp [setSession]

theorem setSession_deref (hp : p < m.profiles.length) (session : SessionPtr) (q : ProfileRef) :
    (m.setSession p session).deref q =
      if q = p then { m.deref p with session := session } else m.deref q := by
  simp only [setSession, deref, List.getD, List.getElem?_modify]
  by_cases hq : q = p
  · subst q
    simp [List.getElem?_eq_getElem hp]
  · cases m.profiles[q]? <;> simp [hq, Ne.symm hq]

@[simp] theorem setSession_handles (session : SessionPtr) :
    (m.setSession p session).handles = m.handles := by
  apply List.ext_getElem?
  intro i
  simp only [handles, setSession, List.getElem?_map, List.getElem?_modify]
  cases m.profiles[i]? <;> simp
  split <;> rfl

@[simp] theorem appendFollower_length (f : ProfileRef) :
    (m.appendFollower p f).profiles.length = m.profiles.length := by
  simp [appendFollower]

theorem appendFollower_deref (hp : p < m.profiles.length) (f q : ProfileRef) :
    (m.appendFollower p f).deref q =
      if q = p then { m.deref p with followers := (m.deref p).followers ++ [f] }
      else m.deref q := by
  simp only [appendFollower, deref, List.getD, List.getElem?_modify]
  by_cases hq : q = p
  · subst q
    simp [List.getElem?_eq_getElem hp]
  · cases m.profiles[q]? <;> simp [hq, Ne.symm hq]

@[simp] theorem appendFollower_handles (f : ProfileRef) :
    (m.appendFollower p f).handles = m.handles := by
  apply List.ext_getElem?
  intro i
  simp only [handles, appendFollower, List.getElem?_map, List.getElem?_modify]
  cases m.profiles[i]? <;> simp
  split <;> rfl

theorem appendFollower_handle (f q : ProfileRef) :
    ((m.appendFollower p f).deref q).handle = (m.deref q).handle := by
  rw [deref_handle, appendFollower_handles, ← deref_handle]

theorem appendFollower_session (hp : p < m.profiles.length) (f q : ProfileRef) :
    ((m.appendFollower p f).deref q).session = (m.deref q).session := by
  rw [appendFollower_deref m p hp]
  split
  · next hq => rw [hq]
  · rfl

variable {p} in
theorem appendFollower_of_new {f : ProfileRef} (hnew : f ∉ (m.deref p).followers) :
    m.appendFollower p f = (m.pushFollower p f).1 := by
  rw [pushFollower, if_neg hnew]

@[simp] theorem pushFollower_length (f : ProfileRef) :
    (m.pushFollower p f).1.profiles.length = m.profiles.length := by
  simp only [pushFollower]
  split <;> simp

theorem pushFollower_deref (hp : p < m.profiles.length) (f q : ProfileRef) :
    (m.pushFollower p f).1.deref q =
      if q = p ∧ f ∉ (m.deref p).followers then
        { m.deref p with followers := (m.deref p).followers ++ [f] }
      else m.deref q := by
  by_cases hf : f ∈ (m.deref p).followers
  · simp [pushFollower, hf]
  · simp [pushFollower, hf, appendFollower_deref m p hp]

@[simp] theorem pushFollower_handles (f : ProfileRef) :
    (m.pushFollower p f).1.handles = m.handles := by
  simp only [pushFollower]
  split
  · rfl
  · exact appendFollower_handles m p f

theorem pushFollower_handle (f q : ProfileRef) :
    ((m.pushFollower p f).1.deref q).handle = (m.deref q).handle := by
  rw [deref_handle, pushFollower_handles, ← deref_handle]

theorem pushFollower_session (hp : p < m.profiles.length) (f q : ProfileRef) :
    ((m.pushFollower p f).1.deref q).session = (m.deref q).session := by
  rw [pushFollower_deref m p hp]
  split
  · next hq => rw [hq.1]
  · rfl

@[simp] theorem newProfile_handles : (m.newProfile h).handles = m.handles ++ [h] := by
  simp [handles, newProfile]

/-- The follow graph: handles are distinct, followers are profiles, each once. -/
structure Graph : Prop where
  distinct : m.handles.Nodup
  known : ∀ p, p < m.profiles.length → ∀ f ∈ (m.deref p).followers, f < m.profiles.length
  once : ∀ p, p < m.profiles.length → (m.deref p).followers.Nodup

theorem graph_empty : (⟨[]⟩ : ProfileManager).Graph :=
  ⟨by simp [handles], fun p hp => by simp at hp, fun p hp => by simp at hp⟩

/-- The part of it that does not look at the handles. -/
structure KnownFollowers : Prop where
  known : ∀ p, p < m.profiles.length → ∀ f ∈ (m.deref p).followers, f < m.profiles.length
  once : ∀ p, p < m.profiles.length → (m.deref p).followers.Nodup

variable {m h p}

theorem Graph.knownFollowers (hg : m.Graph) : m.KnownFollowers := ⟨hg.known, hg.once⟩

theorem knownFollowers_newProfile (hk : m.KnownFollowers) : (m.newProfile h).KnownFollowers := by
  constructor
  · intro q hq f hf
    rw [newProfile_length] at hq ⊢
    rw [newProfile_deref] at hf
    split at hf
    · cases hf
    · next hold =>
      have hlt := hk.known q (Nat.lt_of_le_of_ne (Nat.le_of_lt_succ hq) hold) f hf
      exact Nat.lt_succ_of_lt hlt
  · intro q hq
    rw [newProfile_length] at hq
    rw [newProfile_deref]
    split
    · exact List.nodup_nil
    · next hold => exact hk.once q (Nat.lt_of_le_of_ne (Nat.le_of_lt_succ hq) hold)

theorem knownFollowers_pushFollower (hk : m.KnownFollowers) (hp : p < m.profiles.length)
    {f : ProfileRef} (hf : f < m.profiles.length) : (m.pushFollower p f).1.KnownFollowers := by
  constructor
  · intro q hq g hg
    rw [pushFollower_length] at hq ⊢
    rw [pushFollower_deref m p hp] at hg
    split at hg
    · obtain hg | hg := List.mem_append.mp hg
      · exact hk.known p hp g hg
      · rwa [List.mem_singleton.mp hg]
    · exact hk.known q hq g hg
  · intro q hq
    rw [pushFollower_length] at hq
    rw [pushFollower_deref m p hp]
    split
    · next hnew =>
      rw [List.nodup_append]
      exact ⟨hk.once p hp, List.nodup_singleton _, fun a ha b hb he => hnew.2 (by
        rwa [← List.mem_singleton.mp hb, ← he])⟩
    · exact hk.once q hq

theorem graph_newProfile (hg : m.Graph) (hfresh : m.getProfileByName h = none) :
    (m.newProfile h).Graph := by
  have hk := knownFollowers_newProfile (h := h) hg.knownFollowers
  refine ⟨?_, hk.known, hk.once⟩
  have hnot : h ∉ m.handles := by
    rw [← getProfileByName_isSome, hfresh]
    simp
  rw [newProfile_handles, List.nodup_append]
  exact ⟨hg.distinct, List.nodup_singleton _, fun a ha b hb he => hnot (by
    rwa [← List.mem_singleton.mp hb, ← he])⟩

theorem setSession_followers (hp : p < m.profiles.length) (session : SessionPtr)
    (q : ProfileRef) : ((m.setSession p session).deref q).followers = (m.deref q).followers := by
  rw [setSession_deref m p hp]
  split
  · next he => rw [he]
  · rfl

theorem graph_setSession (hg : m.Graph) (hp : p < m.profiles.length) (session : SessionPtr) :
    (m.setSession p session).Graph := by
  refine ⟨by rw [setSession_handles]; exact hg.distinct, fun q hq => ?_, fun q hq => ?_⟩ <;>
    rw [setSession_length] at hq <;> rw [setSession_followers hp]
  · rw [setSession_length]
    exact hg.known q hq
  · exact hg.once q hq

theorem graph_pushFollower (hg : m.Graph) (hp : p < m.profiles.length) {f : ProfileRef}
    (hf : f < m.profiles.length) : (m.pushFollower p f).1.Graph := by
  have hk := knownFollowers_pushFollower hg.knownFollowers hp hf
  refine ⟨?_, hk.known, hk.once⟩
  rw [pushFollower_handles]
  exact hg.distinct

/-- A scan over profiles whose sessions are all set looks at nothing unset. -/
theorem connectedFrom_isSome (sessions : SessionManager) (exclude : Option ProfileRef) (k : Nat)
    (profiles : List Profile) (hset : ∀ profile ∈ profiles, profile.session ≠ .unset) :
    (connectedFrom sessions exclude k profiles).isSome := by
  induction profiles generalizing k with
  | nil => rfl
  | cons user rest ih =>
    have ih := ih (k + 1) fun profile hp => hset profile (List.mem_cons_of_mem _ hp)
    have huser := hset user List.mem_cons_self
    simp only [connectedFrom]
    split
    · cases hs : user.session with
      | unset => exact absurd hs huser
      | null => exact ih
      | ref r =>
        simp only [SessionManager.behind]
        cases (sessions.deref r).sockets with
        | nil => exact ih
        | cons a l => simpa using ih
    · exact ih

/-- A scan that comes to a profile whose session was never set looks at it. -/
theorem connectedFrom_unset (sessions : SessionManager) (exclude : ProfileRef) {k i : Nat}
    {profiles : List Profile} {user : Profile} (hi : profiles[i]? = some user)
    (hunset : user.session = .unset) (hne : k + i ≠ exclude) :
    connectedFrom sessions (some exclude) k profiles = none := by
  induction profiles generalizing k i with
  | nil => cases hi
  | cons first rest ih =>
    cases i with
    | zero =>
      cases hi
      have hother : some k ≠ some exclude := by simpa using hne
      simp [connectedFrom, hother, hunset, SessionManager.behind]
    | succ i =>
      have hrest := ih (k := k + 1) hi (by omega)
      simp only [connectedFrom, hrest]
      split
      · cases sessions.behind first.session with
        | none => rfl
        | some sockets => cases sockets <;> rfl
      · rfl

end ProfileManager

end Piupiu
