import Piupiu.ProfileFile

/-!
# Reloading what was saved

Which stores can be read back from the text that `Sync` writes for them, and that
a store with clean handles comes back as it was, its sessions apart.
-/
namespace Piupiu

open IStream

namespace ProfileManager

/-- The words behind the count. -/
def body (m : ProfileManager) : List Str := words (lines m.handles ++ lines m.edgeLines)

theorem words_lines (ls : List Str) (rest : Str) :
    words (lines ls ++ rest) = ls.flatMap words ++ words rest := by
  induction ls with
  | nil => simp [lines]
  | cons l ls ih =>
    have hcons : lines (l :: ls) ++ rest = l ++ endl :: (lines ls ++ rest) := by
      simp [lines]
    rw [hcons, words_append_space _ _ (by decide), ih, List.flatMap_cons, List.append_assoc]

theorem closed_lines {ls : List Str} (h : ls ≠ []) : Closed (lines ls) := by
  obtain ⟨front, l, rfl⟩ := (List.eq_nil_or_concat' ls).resolve_left h
  exact ⟨lines front ++ l, endl, by simp [lines], by decide⟩

/-- A line that the loop over the edges accepts when these names are loaded. -/
def IsEdge (names : List Str) (line : Str) : Prop :=
  ∃ user toFollow more, pieces comma line = user :: toFollow :: more ∧ user ∈ names

theorem addFollower_handles (m : ProfileManager) (p : ProfileRef) (u : Str) :
    (m.addFollower p u).1.handles = m.handles := by
  rw [addFollower]
  cases m.getProfileByName u with
  | none => rfl
  | some f => exact pushFollower_handles m p f

theorem map_eq_ok {ε α β : Type} (f : α → β) (x : Except ε α) (b : β) :
    x.map f = .ok b ↔ ∃ a, x = .ok a ∧ f a = b := by
  cases x <;> simp [Except.map]

theorem addEdge_ok {l : Loading} {line : Str} {user toFollow : Str} {more : List Str}
    {p : ProfileRef} (hline : pieces comma line = user :: toFollow :: more)
    (hp : l.manager.getProfileByName user = some p) :
    ∃ l', l.addEdge line = .ok l' ∧ l'.manager = (l.manager.addFollower p toFollow).1 := by
  refine ⟨⟨(l.manager.addFollower p toFollow).1, l.profilesMap, fun u => by
    rw [l.indexed, addFollower_getProfileByName]⟩, ?_, rfl⟩
  simp only [Loading.addEdge, split_eq_pieces, hline, l.indexed, hp]

theorem addEdge_isOk (l : Loading) (line : Str) :
    (∃ l', l.addEdge line = .ok l') ↔ IsEdge l.manager.handles line := by
  constructor
  · rintro ⟨l', h⟩
    rw [Loading.addEdge, split_eq_pieces] at h
    split at h
    · next user toFollow more hline =>
      refine ⟨user, toFollow, more, hline, ?_⟩
      rw [← getProfileByName_isSome, ← l.indexed]
      split at h
      · cases h
      · next p hp => simp [hp]
    · cases h
  · rintro ⟨user, toFollow, more, hline, hu⟩
    obtain ⟨p, hp⟩ := Option.isSome_iff_exists.mp ((getProfileByName_isSome _ _).mpr hu)
    obtain ⟨l', h, -⟩ := addEdge_ok hline hp
    exact ⟨l', h⟩

/-- What every new follower keeps is kept by a line that is accepted. -/
theorem addEdge_keeps {P : ProfileManager → Prop}
    (hedge : ∀ m p f, p < m.profiles.length → P m → P (m.addFollower p f).1) {l l' : Loading}
    {line : Str} (h : l.addEdge line = .ok l') (hl : P l.manager) : P l'.manager := by
  rw [Loading.addEdge] at h
  split at h
  · split at h
    · cases h
    · next user toFollow more _ p hp =>
      rw [l.indexed] at hp
      cases h
      exact hedge _ _ _ (getProfileByName_some _ hp).1 hl
  · cases h

theorem addEdge_handles {l l' : Loading} {line : Str} (h : l.addEdge line = .ok l') :
    l'.manager.handles = l.manager.handles :=
  addEdge_keeps (P := fun m => m.handles = l.manager.handles)
    (fun m p f _ hm => (addFollower_handles m p f).trans hm) h rfl

theorem addEdges_isOk (lines : List Str) (l : Loading) :
    (∃ l', lines.foldlM Loading.addEdge l = .ok l') ↔
      ∀ line ∈ lines, IsEdge l.manager.handles line := by
  induction lines generalizing l with
  | nil => exact ⟨fun _ _ h => by simp at h, fun _ => ⟨l, rfl⟩⟩
  | cons line lines ih =>
    rw [List.foldlM_cons, List.forall_mem_cons, ← addEdge_isOk]
    cases h : l.addEdge line with
    | error e => simp [bind, Except.bind]
    | ok l' =>
      rw [← addEdge_handles h, ← ih l']
      simp [bind, Except.bind]

/-- The first line is accepted, and then the others are. -/
theorem addEdges_cons {line : Str} {lines : List Str} {l l' : Loading}
    (h : (line :: lines).foldlM Loading.addEdge l = .ok l') :
    ∃ l₁, l.addEdge line = .ok l₁ ∧ lines.foldlM Loading.addEdge l₁ = .ok l' := by
  rw [List.foldlM_cons] at h
  cases hl : l.addEdge line with
  | error e => simp [hl, bind, Except.bind] at h
  | ok l₁ =>
    rw [hl] at h
    exact ⟨l₁, rfl, h⟩

theorem addEdges_handles {lines : List Str} {l l' : Loading}
    (h : lines.foldlM Loading.addEdge l = .ok l') : l'.manager.handles = l.manager.handles := by
  induction lines generalizing l with
  | nil =>
    cases h
    rfl
  | cons line lines ih =>
    obtain ⟨l₁, hl, h⟩ := addEdges_cons h
    rw [ih h, addEdge_handles hl]

theorem addNames_profiles (names : List Str) (l : Loading) :
    (names.foldl Loading.addName l).manager.profiles =
      l.manager.profiles ++ names.map fun name => ⟨name, [], .unset⟩ := by
  induction names generalizing l with
  | nil => simp
  | cons name names ih =>
    rw [List.foldl_cons, ih]
    simp [Loading.addName, newProfile]

theorem addNames_handles (names : List Str) :
    (names.foldl Loading.addName .empty).manager.handles = names := by
  rw [handles, addNames_profiles, List.map_append, List.map_map]
  simp [Loading.empty, Function.comp_def]

/-- Behind the first `n` words, where the names are read from a file of `n`
profiles, every word is an edge from one of the names. -/
structure Reloadable (m : ProfileManager) : Prop where
  count : m.profiles.length < 2 ^ 31
  edges : ∀ w ∈ m.body.drop m.profiles.length, IsEdge (m.body.take m.profiles.length) w

/-- Reading the saved store comes to its end with as many profiles. -/
def Reloads (m : ProfileManager) (numProfiles : Int) : Prop :=
  ∃ m' r, readProfilesFromFile (some m.sync) numProfiles = .ok (m', r) ∧
    m'.profiles.length = m.profiles.length

theorem closed_body (m : ProfileManager) :
    Closed (endl :: (lines m.handles ++ lines m.edgeLines)) := by
  by_cases he : m.edgeLines = []
  · by_cases hh : m.handles = []
    · exact ⟨[], endl, by simp [he, hh, lines], by decide⟩
    · have hc := closed_append [endl] (closed_lines hh)
      simpa [he, lines] using hc
  · exact closed_append (endl :: lines m.handles) (closed_lines he)

/-- The stream behind the count; it has failed when the count is too large. -/
def afterCount (m : ProfileManager) : Stream :=
  ⟨endl :: (lines m.handles ++ lines m.edgeLines), false, decide (intMax < m.profiles.length)⟩

theorem words_afterCount (m : ProfileManager) : words m.afterCount.rest = m.body :=
  words_space_cons (by decide) _

/-- The count that is read: as many as there are profiles, or the largest `int`. -/
def readCount (m : ProfileManager) : Int :=
  if intMax < m.profiles.length then intMax else m.profiles.length

theorem read_sync (m : ProfileManager) (numProfiles : Int) :
    readProfilesFromFile (some m.sync) numProfiles =
      (readEdges (m.sync.length + 2) (readNames m.readCount.toNat m.afterCount .empty []).1
        (readNames m.readCount.toNat m.afterCount .empty []).2 []).map
          fun l => (l.manager, m.readCount) := by
  rw [readProfilesFromFile, sync, readInt_decimal _ (by decide)]
  rfl

section small

variable {m : ProfileManager} (hcount : m.profiles.length < 2 ^ 31)

include hcount

theorem readCount_small : m.readCount = m.profiles.length := by
  rw [readCount, if_neg]
  simp only [intMax]
  omega

theorem afterCount_good : m.afterCount.good = true := by
  have hfit : ¬intMax < (m.profiles.length : Int) := by
    simp only [intMax]
    omega
  simp only [afterCount, hfit, decide_false]
  rfl

/-- Reading a saved store, in terms of the words behind the count. -/
theorem read_sync_enough (hbody : m.profiles.length ≤ m.body.length) (numProfiles : Int) :
    readProfilesFromFile (some m.sync) numProfiles =
      ((passes [] (m.body.drop m.profiles.length)).foldlM Loading.addEdge
        ((m.body.take m.profiles.length).foldl Loading.addName .empty)).map
          fun l => (l.manager, (m.profiles.length : Int)) := by
  rw [← words_afterCount] at hbody
  obtain ⟨s', hs', hg', hc', hw', hle⟩ := readNames_words (afterCount_good hcount) m.closed_body
    hbody .empty []
  have hlen : m.afterCount.rest.length ≤ m.sync.length := by
    simp [afterCount, sync]
  rw [read_sync, readCount_small hcount, Int.toNat_natCast, hs', readEdges_words hg' hc' (by omega),
    hw', words_afterCount]

/-- With too few words for the names the loop over the edges is not entered. -/
theorem read_sync_short (hbody : m.body.length < m.profiles.length) (numProfiles : Int) :
    m.Reloads numProfiles := by
  rw [← words_afterCount] at hbody
  have heof := readNames_short (afterCount_good hcount) hbody .empty []
  refine ⟨(readNames m.profiles.length m.afterCount .empty []).2.manager, m.profiles.length, ?_, ?_⟩
  · rw [read_sync, readCount_small hcount, Int.toNat_natCast, readEdges_eof (by omega) heof]
    rfl
  · rw [readNames_length]
    simp [Loading.empty]

end small

theorem readEdges_keeps {P : ProfileManager → Prop}
    (hedge : ∀ m p f, p < m.profiles.length → P m → P (m.addFollower p f).1) {fuel : Nat}
    {s : Stream} {l l' : Loading} {line : Str} (h : readEdges fuel s l line = .ok l')
    (hl : P l.manager) : P l'.manager := by
  induction fuel generalizing s l line with
  | zero => cases h
  | succ fuel ih =>
    rw [readEdges] at h
    split at h
    · cases h
      exact hl
    · dsimp only at h
      split at h
      · cases h
        exact hl
      · cases hline : l.addEdge (readWord s line).2 with
        | error e => simp [hline, Except.bind] at h
        | ok l₁ =>
          rw [hline] at h
          exact ih h (addEdge_keeps hedge hline hl)

theorem readEdges_handles {fuel : Nat} {s : Stream} {l l' : Loading} {line : Str}
    (h : readEdges fuel s l line = .ok l') : l'.manager.handles = l.manager.handles :=
  readEdges_keeps (P := fun m => m.handles = l.manager.handles)
    (fun m p f _ hm => (addFollower_handles m p f).trans hm) h rfl

theorem readNames_keeps {P : ProfileManager → Prop}
    (hname : ∀ m name, P m → P (m.newProfile name)) (n : Nat) (s : Stream) (l : Loading)
    (name : Str) (hl : P l.manager) : P (readNames n s l name).2.manager := by
  induction n generalizing s l name with
  | zero => exact hl
  | succ n ih => exact ih _ _ _ (hname _ _ hl)

/-- What new profiles and new followers keep holds of all that is ever read. -/
theorem read_keeps {P : ProfileManager → Prop} (hempty : P ⟨[]⟩)
    (hname : ∀ m name, P m → P (m.newProfile name))
    (hedge : ∀ m p f, p < m.profiles.length → P m → P (m.addFollower p f).1) {file : Option Str}
    {numProfiles r : Int} {m : ProfileManager}
    (h : readProfilesFromFile file numProfiles = .ok (m, r)) : P m := by
  cases file with
  | none =>
    cases h
    exact hempty
  | some text =>
    obtain ⟨l, hl, he⟩ := (map_eq_ok _ _ _).mp h
    cases he
    exact readEdges_keeps hedge hl (readNames_keeps hname _ _ _ _ hempty)

/-- A store with more profiles than an `int` counts is not read back whole. -/
theorem not_reloads_of_large {m : ProfileManager} (hcount : 2 ^ 31 ≤ m.profiles.length)
    (numProfiles : Int) : ¬m.Reloads numProfiles := by
  rintro ⟨m', r, hread, hlen⟩
  have hfit : intMax < (m.profiles.length : Int) := by
    simp only [intMax]
    omega
  rw [read_sync, readCount, if_pos hfit] at hread
  obtain ⟨l, hl, he⟩ := (map_eq_ok _ _ _).mp hread
  have hh := congrArg List.length (readEdges_handles hl)
  rw [handles_length, handles_length, readNames_length] at hh
  simp only [Prod.mk.injEq] at he
  rw [he.1] at hh
  simp only [Loading.empty, List.length_nil, intMax, Int.reducePow, Int.reduceSub,
    Int.reduceToNat] at hh
  omega

/-- The saved text of a store can be read back exactly when it is reloadable. -/
theorem reloads_iff (m : ProfileManager) (numProfiles : Int) :
    m.Reloads numProfiles ↔ m.Reloadable := by
  by_cases hcount : m.profiles.length < 2 ^ 31
  swap
  · exact iff_of_false (not_reloads_of_large (Nat.le_of_not_lt hcount) numProfiles)
      fun h => hcount h.count
  by_cases hbody : m.body.length < m.profiles.length
  · refine iff_of_true (read_sync_short hcount hbody numProfiles) ⟨hcount, ?_⟩
    simp [List.drop_eq_nil_of_le hbody.le]
  have hbody := Nat.le_of_not_lt hbody
  have hiff : (∀ w ∈ m.body.drop m.profiles.length, IsEdge (m.body.take m.profiles.length) w) ↔
      ∃ l, (passes [] (m.body.drop m.profiles.length)).foldlM Loading.addEdge
        ((m.body.take m.profiles.length).foldl Loading.addName .empty) = .ok l := by
    rw [addEdges_isOk, addNames_handles]
    simp [mem_passes]
  have hread := read_sync_enough hcount hbody numProfiles
  constructor
  · rintro ⟨m', r, h, -⟩
    rw [hread] at h
    obtain ⟨l, hl, -⟩ := (map_eq_ok _ _ _).mp h
    exact ⟨hcount, hiff.mpr ⟨l, hl⟩⟩
  · rintro ⟨-, h⟩
    obtain ⟨l, hl⟩ := hiff.mp h
    refine ⟨l.manager, m.profiles.length, by rw [hread, hl]; rfl, ?_⟩
    rw [← handles_length l.manager, addEdges_handles hl, addNames_handles, List.length_take]
    omega

theorem passes_concat (line w : Str) (ws : List Str) :
    passes line (ws ++ [w]) = ws ++ [w] ++ if w = [] then [] else [w] := by
  induction ws generalizing line with
  | nil => rfl
  | cons v ws ih => rw [List.cons_append, passes, ih, List.cons_append]

/-- A handle that stays in one piece in the file. -/
def CleanHandle (handle : Str) : Prop :=
  handle ≠ [] ∧ ∀ b ∈ handle, isSpace b = false ∧ b ≠ comma

structure Clean (m : ProfileManager) : Prop extends m.Graph where
  clean : ∀ h ∈ m.handles, CleanHandle h

/-- The store without its sessions, which are not saved. -/
def forgetSessions (m : ProfileManager) : ProfileManager :=
  ⟨m.profiles.map fun profile => { profile with session := .unset }⟩

/-- The edges of the follow graph in the order in which they are saved. -/
def edgeRefs (m : ProfileManager) : List (ProfileRef × ProfileRef) :=
  (List.range m.profiles.length).flatMap fun p => (m.deref p).followers.map fun f => (p, f)

def edgeLine (m : ProfileManager) (e : ProfileRef × ProfileRef) : Str :=
  (m.deref e.1).handle ++ comma :: (m.deref e.2).handle

theorem profiles_eq_range (m : ProfileManager) :
    m.profiles = (List.range m.profiles.length).map m.deref := by
  apply List.ext_getElem (by simp)
  intro p hp _
  simp [deref, hp]

theorem edgeLines_eq (m : ProfileManager) : m.edgeLines = m.edgeRefs.map m.edgeLine := by
  rw [edgeLines, edgeRefs, List.map_flatMap]
  conv_lhs => rw [profiles_eq_range m, List.flatMap_map]
  simp [edgeLine, Function.comp_def]

theorem filter_flatMap_range (g : Nat → List Nat) (n q : Nat) :
    (((List.range n).flatMap fun p => (g p).map fun f => (p, f)).filter fun e => e.1 = q).map
      Prod.snd = if q < n then g q else [] := by
  induction n with
  | zero => simp
  | succ n ih =>
    rw [List.range_succ, List.flatMap_append, List.filter_append, List.map_append, ih]
    rcases Nat.lt_trichotomy q n with h | h | h
    · have hne : n ≠ q := by omega
      simp [h, Nat.lt_succ_of_lt h, List.filter_map, Function.comp_def, hne]
    · subst h
      simp [List.filter_map, Function.comp_def]
    · have hne : n ≠ q := by omega
      simp [Nat.not_lt_of_gt h, List.filter_map, Function.comp_def, hne]
      omega

theorem passes_map (m : ProfileManager) : passes [] (m.edgeRefs.map m.edgeLine) =
    (m.edgeRefs ++ m.edgeRefs.getLast?.toList).map m.edgeLine := by
  rcases List.eq_nil_or_concat' m.edgeRefs with h | ⟨es, e, h⟩
  · simp [h, passes]
  · have hne : m.edgeLine e ≠ [] := by simp [edgeLine]
    simp [h, passes_concat, hne]

def pushEdge (m : ProfileManager) (e : ProfileRef × ProfileRef) : ProfileManager :=
  (m.pushFollower e.1 e.2).1

/-- Pushing distinct new edges adds to each profile its own ones, in order. -/
theorem pushEdges_deref (es : List (ProfileRef × ProfileRef)) (m : ProfileManager)
    (hes : es.Nodup) (hlt : ∀ e ∈ es, e.1 < m.profiles.length)
    (hnew : ∀ e ∈ es, e.2 ∉ (m.deref e.1).followers) (q : ProfileRef) :
    (es.foldl pushEdge m).deref q =
      { m.deref q with
        followers := (m.deref q).followers ++ (es.filter fun e => e.1 = q).map Prod.snd } := by
  induction es generalizing m with
  | nil => simp
  | cons e es ih =>
    obtain ⟨hne, hes⟩ := List.nodup_cons.mp hes
    have hp := hlt e List.mem_cons_self
    have hpush : ∀ r, (m.pushEdge e).deref r =
        if r = e.1 then { m.deref e.1 with followers := (m.deref e.1).followers ++ [e.2] }
        else m.deref r := fun r => by
      simp [pushEdge, pushFollower_deref m e.1 hp, hnew e List.mem_cons_self]
    rw [List.foldl_cons, ih _ hes ?_ ?_, hpush, List.filter_cons]
    · by_cases hq : q = e.1
      · simp [hq]
      · simp [hq, Ne.symm hq]
    · intro e' he'
      rw [pushEdge, pushFollower_length]
      exact hlt e' (List.mem_cons_of_mem _ he')
    · intro e' he'
      have hold := hnew e' (List.mem_cons_of_mem _ he')
      rw [hpush]
      by_cases hq : e'.1 = e.1
      · rw [if_pos hq]
        simp only [List.mem_append, List.mem_singleton, not_or]
        refine ⟨hq ▸ hold, fun h => hne ?_⟩
        rwa [← Prod.ext hq h]
      · rwa [if_neg hq]

theorem pushEdges_length (es : List (ProfileRef × ProfileRef)) (m : ProfileManager) :
    (es.foldl pushEdge m).profiles.length = m.profiles.length := by
  induction es generalizing m with
  | nil => rfl
  | cons e es ih => rw [List.foldl_cons, ih, pushEdge, pushFollower_length]

theorem edgeRefs_follower {m : ProfileManager} {e : ProfileRef × ProfileRef}
    (he : e ∈ m.edgeRefs) : e.2 ∈ (m.deref e.1).followers := by
  obtain ⟨p, -, hmap⟩ := List.mem_flatMap.mp he
  obtain ⟨f, hf, rfl⟩ := List.mem_map.mp hmap
  exact hf

theorem forgetSessions_followers (m : ProfileManager) (p : ProfileRef) :
    (m.forgetSessions.deref p).followers = (m.deref p).followers := by
  simp only [deref, forgetSessions, List.getD, List.getElem?_map]
  cases m.profiles[p]? <;> rfl

theorem CleanHandle.words {h : Str} (hc : CleanHandle h) : words h = [h] :=
  words_of_no_space (fun b hb => (hc.2 b hb).1) hc.1

theorem CleanHandle.comma_not_mem {h : Str} (hc : CleanHandle h) : comma ∉ h :=
  fun hm => (hc.2 comma hm).2 rfl

section clean

variable {m : ProfileManager} (hm : m.Clean)

include hm

theorem deref_clean {p : ProfileRef} (hp : p < m.profiles.length) :
    CleanHandle (m.deref p).handle :=
  hm.clean _ (List.mem_map.mpr ⟨_, m.deref_mem p hp, rfl⟩)

theorem edgeRefs_lt {e : ProfileRef × ProfileRef} (he : e ∈ m.edgeRefs) :
    e.1 < m.profiles.length ∧ e.2 < m.profiles.length := by
  obtain ⟨p, hp, hmap⟩ := List.mem_flatMap.mp he
  obtain ⟨f, hf, rfl⟩ := List.mem_map.mp hmap
  rw [List.mem_range] at hp
  exact ⟨hp, hm.known p hp f hf⟩

theorem edgeRefs_nodup : m.edgeRefs.Nodup := by
  rw [edgeRefs, List.nodup_flatMap]
  refine ⟨fun p hp => ?_, ?_⟩
  · rw [List.mem_range] at hp
    exact (hm.once p hp).map fun _ _ h => (Prod.mk.inj h).2
  · refine List.nodup_range.imp fun hne => ?_
    rw [Function.onFun, List.disjoint_left]
    rintro e he he'
    obtain ⟨f, -, rfl⟩ := List.mem_map.mp he
    obtain ⟨f', -, h⟩ := List.mem_map.mp he'
    exact hne (Prod.mk.inj h).1.symm

theorem edgeLine_words {e : ProfileRef × ProfileRef} (he : e ∈ m.edgeRefs) :
    words (m.edgeLine e) = [m.edgeLine e] := by
  obtain ⟨h₁, h₂⟩ := edgeRefs_lt hm he
  refine words_of_no_space (fun b hb => ?_) (by simp [edgeLine])
  rcases List.mem_append.mp hb with hb | hb
  · exact ((deref_clean hm h₁).2 b hb).1
  · rcases List.mem_cons.mp hb with rfl | hb
    · decide
    · exact ((deref_clean hm h₂).2 b hb).1

/-- The words of a clean file are its lines. -/
theorem body_clean : m.body = m.handles ++ m.edgeLines := by
  have hh : m.handles.flatMap words = m.handles := by
    rw [List.flatMap_congr fun h hh => (hm.clean h hh).words, List.flatMap_singleton']
  have he : m.edgeLines.flatMap words = m.edgeLines := by
    rw [edgeLines_eq, List.flatMap_map, List.flatMap_congr fun e he => edgeLine_words hm he,
      List.map_eq_flatMap]
  have hlines := words_lines m.edgeLines []
  rw [List.append_nil, words_nil, List.append_nil, he] at hlines
  rw [body, words_lines, hh, hlines]

/-- Reading the line of an edge pushes that edge. -/
theorem addEdge_edgeLine {l : Loading} (hl : l.manager.handles = m.handles)
    {e : ProfileRef × ProfileRef} (he : e ∈ m.edgeRefs) :
    ∃ l', l.addEdge (m.edgeLine e) = .ok l' ∧ l'.manager = l.manager.pushEdge e := by
  obtain ⟨h₁, h₂⟩ := edgeRefs_lt hm he
  have hfind : ∀ p, p < m.profiles.length →
      l.manager.getProfileByName (m.deref p).handle = some p := fun p hp => by
    rw [getProfileByName_congr _ _ hl]
    exact m.getProfileByName_deref p hm.distinct hp
  have hpieces : pieces comma (m.edgeLine e) = [(m.deref e.1).handle, (m.deref e.2).handle] :=
    pieces_append (deref_clean hm h₁).comma_not_mem (deref_clean hm h₂).1
      (deref_clean hm h₂).comma_not_mem
  obtain ⟨l', h, he⟩ := addEdge_ok hpieces (hfind _ h₁)
  refine ⟨l', h, ?_⟩
  rw [he, addFollower, hfind _ h₂]
  rfl

theorem addEdges_edgeLines {l : Loading} (hl : l.manager.handles = m.handles)
    {es : List (ProfileRef × ProfileRef)} (hes : ∀ e ∈ es, e ∈ m.edgeRefs) :
    ∃ l', (es.map m.edgeLine).foldlM Loading.addEdge l = .ok l' ∧
      l'.manager = es.foldl pushEdge l.manager := by
  induction es generalizing l with
  | nil => exact ⟨l, rfl, rfl⟩
  | cons e es ih =>
    obtain ⟨l₁, h₁, hm₁⟩ := addEdge_edgeLine hm hl (hes e List.mem_cons_self)
    obtain ⟨l', h', hm'⟩ := ih ((addEdge_handles h₁).trans hl)
      fun e' he' => hes e' (List.mem_cons_of_mem _ he')
    refine ⟨l', ?_, by rw [hm', hm₁]; rfl⟩
    rw [List.map_cons, List.foldlM_cons, h₁]
    exact h'

/-- After all edges are pushed onto bare profiles the followers are those of the store. -/
theorem pushEdges_edgeRefs {m₀ : ProfileManager}
    (h₀ : m₀.profiles = m.handles.map fun h => ⟨h, [], .unset⟩) :
    m.edgeRefs.foldl pushEdge m₀ = m.forgetSessions := by
  have hlen : m₀.profiles.length = m.profiles.length := by simp [h₀]
  have hbare : ∀ q, q < m.profiles.length → m₀.deref q = ⟨(m.deref q).handle, [], .unset⟩ := by
    intro q hq
    simp [deref, h₀, handles, hq]
  have hderef : ∀ q, q < m.profiles.length → (m.edgeRefs.foldl pushEdge m₀).deref q =
      { m.deref q with session := .unset } := by
    intro q hq
    rw [pushEdges_deref _ _ (edgeRefs_nodup hm) (fun e he => hlen ▸ (edgeRefs_lt hm he).1)
      (fun e he => by simp [hbare _ (edgeRefs_lt hm he).1]), hbare q hq, edgeRefs,
      filter_flatMap_range, if_pos hq]
    simp
  have hlen' := (pushEdges_length m.edgeRefs m₀).trans hlen
  suffices h : (m.edgeRefs.foldl pushEdge m₀).profiles = m.forgetSessions.profiles by
    cases hf : m.edgeRefs.foldl pushEdge m₀
    rw [hf] at h
    exact congrArg _ h
  rw [profiles_eq_range (m.edgeRefs.foldl pushEdge m₀), hlen', forgetSessions]
  conv_rhs => rw [profiles_eq_range m, List.map_map]
  exact List.map_congr_left fun q hq => hderef q (List.mem_range.mp hq)

/-- Reading the saved text of a clean store gives the store back: the pass that
handles the last edge again finds it already there. -/
theorem read_sync_clean (hcount : m.profiles.length < 2 ^ 31) (numProfiles : Int) :
    readProfilesFromFile (some m.sync) numProfiles = .ok (m.forgetSessions, m.profiles.length) := by
  have hbody := body_clean hm
  have htake : m.body.take m.profiles.length = m.handles := by
    rw [hbody, List.take_left' (handles_length m)]
  have hdrop : m.body.drop m.profiles.length = m.edgeLines := by
    rw [hbody, List.drop_left' (handles_length m)]
  have hle : m.profiles.length ≤ m.body.length := by simp [hbody]
  have hnames := addNames_profiles m.handles .empty
  rw [read_sync_enough hcount hle, htake, hdrop, edgeLines_eq, passes_map]
  have hmem : ∀ e ∈ m.edgeRefs ++ m.edgeRefs.getLast?.toList, e ∈ m.edgeRefs := by
    intro e he
    rcases List.mem_append.mp he with he | he
    · exact he
    · exact List.mem_of_getLast? (by simpa using he)
  obtain ⟨l', hl', hm'⟩ := addEdges_edgeLines hm (addNames_handles m.handles) hmem
  rw [hl', map_eq_ok]
  refine ⟨l', rfl, ?_⟩
  rw [hm', List.foldl_append, pushEdges_edgeRefs hm (by simpa [Loading.empty] using hnames)]
  cases hlast : m.edgeRefs.getLast? with
  | none => rfl
  | some e =>
    have hf := edgeRefs_follower (List.mem_of_getLast? hlast)
    rw [Option.toList_some, List.foldl_cons, List.foldl_nil, pushEdge, pushFollower,
      if_pos (by rwa [forgetSessions_followers])]

end clean

end ProfileManager

end Piupiu
