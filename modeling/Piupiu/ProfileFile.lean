import Piupiu.ProfileManager
import Piupiu.Lib.IStream

/-!
# The profiles file

`Sync` writes the number of profiles, then one line for each handle, then one
line `handle,follower` for each follower. `ReadProfilesFromFile` reads it back
word by word: it looks at no line structure, at no failure of the stream, and
leaves its loop over the edges only at `eof` or for an empty word.
-/
namespace Piupiu

open IStream

def endl : UInt8 := 10
def comma : UInt8 := 44

/-- The lines a stream gets, each ended by `std::endl`. -/
def lines (ls : List Str) : Str := ls.flatMap fun l => l ++ [endl]

namespace ProfileManager

/-- The lines of `Sync` for the followers, profile by profile. -/
def edgeLines (m : ProfileManager) : List Str :=
  m.profiles.flatMap fun profile => profile.followers.map fun follower =>
    profile.handle ++ comma :: (m.deref follower).handle

/-- What `Sync` writes. -/
def sync (m : ProfileManager) : Str :=
  decimal m.profiles.length ++ endl :: (lines m.handles ++ lines m.edgeLines)

/-- How reading stops before its end: an index past the pieces of a line, a
failing `map::at`, or a loop that does not end. -/
inductive ReadError where
  | splitIndex
  | mapAt
  | endless
  deriving DecidableEq, Repr

/-- The profiles and the local map that are there while a file is read: the map
leads from a handle to the first profile that has it. -/
structure Loading where
  manager : ProfileManager
  profilesMap : Std.TreeMap Str ProfileRef
  indexed : ∀ u, profilesMap[u]? = manager.getProfileByName u

theorem indexed_newProfile {m : ProfileManager} {profilesMap : Std.TreeMap Str ProfileRef}
    (h : ∀ u, profilesMap[u]? = m.getProfileByName u) (name u : Str) :
    (profilesMap.insertIfNew name m.profiles.length)[u]? = (m.newProfile name).getProfileByName u := by
  rw [Std.TreeMap.getElem?_insertIfNew, getProfileByName_newProfile, ← h u]
  by_cases hu : name = u
  · subst hu
    cases hm : profilesMap[name]? <;> simp [Std.TreeMap.mem_iff_isSome_getElem?, hm]
  · have hne : ¬compare name u = .eq := fun hc => hu (Std.LawfulEqOrd.compare_eq_iff_eq.mp hc)
    simp [hne, hu]

theorem addFollower_getProfileByName (m : ProfileManager) (p : ProfileRef) (f u : Str) :
    (m.addFollower p f).1.getProfileByName u = m.getProfileByName u := by
  rw [getProfileByName_handles, getProfileByName_handles, addFollower]
  cases m.getProfileByName f with
  | none => rfl
  | some follower => rw [pushFollower_handles]

namespace Loading

def empty : Loading := ⟨⟨[]⟩, ∅, fun u => by simp [getProfileByName]⟩

/-- One pass of the loop over the names, once the name is read. -/
def addName (l : Loading) (profileName : Str) : Loading :=
  ⟨l.manager.newProfile profileName,
    l.profilesMap.insertIfNew profileName l.manager.profiles.length,
    indexed_newProfile l.indexed profileName⟩

/-- One pass of the loop over the edges, once the line is read. -/
def addEdge (l : Loading) (line : Str) : Except ReadError Loading :=
  match split line comma with
  | user :: toFollow :: _ =>
    match l.profilesMap[user]? with
    | none => .error .mapAt
    | some userPtr => .ok ⟨(l.manager.addFollower userPtr toFollow).1, l.profilesMap, fun u => by
        rw [l.indexed, addFollower_getProfileByName]⟩
  | _ => .error .splitIndex

end Loading

/-- The loop over the names; `profileName` keeps its value when a read fails. -/
def readNames : Nat → Stream → Loading → Str → Stream × Loading
  | 0, s, l, _ => (s, l)
  | n + 1, s, l, profileName =>
    let (s, profileName) := readWord s profileName
    readNames n s (l.addName profileName) profileName

/-- The loop over the edges; `line` keeps its value when a read fails. -/
def readEdges : Nat → Stream → Loading → Str → Except ReadError Loading
  | 0, _, _, _ => .error .endless
  | fuel + 1, s, l, line =>
    if s.eof then .ok l
    else
      let (s, line) := readWord s line
      if line = [] then .ok l else (l.addEdge line).bind fun l => readEdges fuel s l line

/-- The profiles of a file and the returned count. The count `numProfiles` of the
source is not initialised: the argument is what it holds before it is read. -/
def readProfilesFromFile (file : Option Str) (numProfiles : Int) :
    Except ReadError (ProfileManager × Int) :=
  match file with
  | none => .ok (⟨[]⟩, 0)
  | some text =>
    let (s, numProfiles) := readInt (ofBytes text) numProfiles
    let (s, l) := readNames numProfiles.toNat s .empty []
    (readEdges (text.length + 2) s l []).map fun l => (l.manager, numProfiles)

theorem readNames_length (n : Nat) (s : Stream) (l : Loading) (name : Str) :
    (readNames n s l name).2.manager.profiles.length = l.manager.profiles.length + n := by
  induction n generalizing s l name with
  | zero => rfl
  | succ n ih =>
    rw [readNames, ih]
    simp only [Loading.addName, newProfile_length]
    omega

theorem readNames_eof (n : Nat) {s : Stream} (hs : s.eof = true) (l : Loading) (name : Str) :
    (readNames n s l name).1.eof = true := by
  induction n generalizing s l name with
  | zero => exact hs
  | succ n ih =>
    rw [readNames, readWord_bad (by simp [Stream.good, hs])]
    exact ih (s := { s with fail := true }) hs _ _

/-- With too few words in the file the names run to the end of it. -/
theorem readNames_short {n : Nat} {s : Stream} (hg : s.good = true)
    (hn : (words s.rest).length < n) (l : Loading) (name : Str) :
    (readNames n s l name).1.eof = true := by
  induction n generalizing s l name with
  | zero => omega
  | succ n ih =>
    rw [readNames]
    cases hw : words s.rest with
    | nil =>
      rw [readWord_nil hg hw]
      exact readNames_eof n rfl _ _
    | cons w ws =>
      obtain ⟨rest, hr, hrest, -, -⟩ := readWord_cons hg hw name
      rw [hr]
      cases hempty : rest.isEmpty with
      | true => exact readNames_eof n rfl _ _
      | false =>
        refine ih (by simp [Stream.good]) ?_ _ _
        rw [hw, List.length_cons] at hn
        rw [hrest]
        omega

/-- With enough words in the file the names are its first words. -/
theorem readNames_words {n : Nat} {s : Stream} (hg : s.good = true) (hc : Closed s.rest)
    (hn : n ≤ (words s.rest).length) (l : Loading) (name : Str) :
    ∃ s', readNames n s l name = (s', ((words s.rest).take n).foldl Loading.addName l) ∧
      s'.good = true ∧ Closed s'.rest ∧ words s'.rest = (words s.rest).drop n ∧
      s'.rest.length ≤ s.rest.length := by
  induction n generalizing s l name with
  | zero => exact ⟨s, rfl, hg, hc, by simp, Nat.le_refl _⟩
  | succ n ih =>
    cases hw : words s.rest with
    | nil => simp [hw] at hn
    | cons w ws =>
      obtain ⟨rest, hr, hrest, hlt, hclosed⟩ := readWord_cons hg hw name
      have hc' := hclosed hc
      have hgood : (⟨rest, rest.isEmpty, false⟩ : Stream).good = true := by
        simpa [Stream.good] using hc'.ne_nil
      have hn' : n ≤ (words rest).length := by
        rw [hw, List.length_cons] at hn
        rw [hrest]
        omega
      obtain ⟨s', he, hg', hcl, hws, hle⟩ := ih hgood hc' hn' (l.addName w) w
      refine ⟨s', ?_, hg', hcl, ?_, hle.trans hlt.le⟩
      · rw [readNames, hr]
        simp only [he, hrest, List.take_succ_cons, List.foldl_cons]
      · rw [hws, hrest, List.drop_succ_cons]

/-- The lines the loop over the edges passes through: each word, and then the
last one again, because the read that meets the end leaves it in place. -/
def passes (line : Str) : List Str → List Str
  | [] => if line = [] then [] else [line]
  | w :: ws => w :: passes w ws

theorem mem_passes {line w : Str} {ws : List Str} :
    w ∈ passes line ws ↔ w ∈ ws ∨ (ws = [] ∧ line ≠ [] ∧ w = line) := by
  induction ws generalizing line with
  | nil => by_cases h : line = [] <;> simp [passes, h]
  | cons v ws ih =>
    rw [passes, List.mem_cons, ih, List.mem_cons]
    constructor
    · rintro (h | h | ⟨-, -, h⟩)
      · exact .inl (.inl h)
      · exact .inl (.inr h)
      · exact .inl (.inl h)
    · rintro ((h | h) | ⟨h, -⟩)
      · exact .inl h
      · exact .inr (.inl h)
      · cases h

theorem readEdges_eof {fuel : Nat} (hfuel : 0 < fuel) {s : Stream} (hs : s.eof = true)
    (l : Loading) (line : Str) : readEdges fuel s l line = .ok l := by
  obtain ⟨fuel, rfl⟩ := Nat.exists_eq_succ_of_ne_zero (Nat.ne_of_gt hfuel)
  rw [readEdges, if_pos hs]

/-- The loop over the edges handles the words that are left and the last twice. -/
theorem readEdges_words {fuel : Nat} {s : Stream} (hg : s.good = true) (hc : Closed s.rest)
    (hfuel : s.rest.length + 1 < fuel) (l : Loading) (line : Str) :
    readEdges fuel s l line = (passes line (words s.rest)).foldlM Loading.addEdge l := by
  induction fuel generalizing s l line with
  | zero => omega
  | succ fuel ih =>
    have heof : s.eof = false := by
      simp only [Stream.good, Bool.and_eq_true, Bool.not_eq_true'] at hg
      exact hg.1
    rw [readEdges, heof, if_neg (by simp)]
    cases hw : words s.rest with
    | nil =>
      rw [readWord_nil hg hw]
      by_cases hline : line = []
      · simp only [passes, hline, if_true]
        rfl
      · simp only [passes, hline, if_false, List.foldlM_cons, List.foldlM_nil]
        congr 1
        funext l
        exact readEdges_eof (by omega) rfl _ _
    | cons w ws =>
      obtain ⟨rest, hr, hrest, hlt, hclosed⟩ := readWord_cons hg hw line
      have hc' := hclosed hc
      have hmem : w ∈ words s.rest := by simp [hw]
      have hne : w ≠ [] := ne_nil_of_mem_words hmem
      rw [hr]
      simp only [hne, if_false, passes, List.foldlM_cons]
      congr 1
      funext l
      rw [← hrest]
      exact ih (by simpa [Stream.good] using hc'.ne_nil) hc' (by simp only; omega) l w

end ProfileManager

end Piupiu
