import Piupiu.Reload

/-!
# A file that was cut

`Sync` writes over the old file, so a server that is killed while it writes leaves
some of the first bytes of the new one. Which of these the reader gets through with
nothing but profiles and followers of the store depends on where the text ends: behind
the handles it does, unless an edge is cut in the wrong place, and before that never.
-/
namespace Piupiu

open IStream

namespace ProfileManager

/-- What the loop over the names takes: the words, and then the last one again. -/
def taken (name : Str) : List Str → Nat → List Str
  | _, 0 => []
  | [], n + 1 => name :: taken name [] n
  | w :: ws, n + 1 => w :: taken w ws n

@[simp] theorem taken_zero (name : Str) (ws : List Str) : taken name ws 0 = [] := by
  cases ws <;> rfl

theorem taken_enough {n : Nat} {ws : List Str} (h : n ≤ ws.length) (name : Str) :
    taken name ws n = ws.take n := by
  induction n generalizing ws name with
  | zero => simp
  | succ n ih =>
    cases ws with
    | nil => simp at h
    | cons w ws => rw [taken, List.take_succ_cons, ih (by simpa using h)]

/-- With too few words some name is taken twice, or the name that was there before. -/
theorem taken_short {n : Nat} {ws : List Str} (h : ws.length < n) (name : Str) :
    ¬(name :: taken name ws n).Nodup := by
  induction ws generalizing n name with
  | nil =>
    obtain ⟨n, rfl⟩ := Nat.exists_eq_succ_of_ne_zero (Nat.ne_of_gt h)
    simp [taken]
  | cons w ws ih =>
    obtain ⟨n, rfl⟩ := Nat.exists_eq_succ_of_ne_zero (Nat.ne_of_gt (Nat.zero_lt_of_lt h))
    rw [taken, List.nodup_cons, not_and]
    exact fun _ => ih (by simpa using h) w

theorem readNames_taken (n : Nat) (s : Stream) (l : Loading) (name : Str) :
    (readNames n s l name).2 = (taken name s.unread n).foldl Loading.addName l := by
  induction n generalizing s l name with
  | zero =>
    rw [taken_zero]
    rfl
  | succ n ih =>
    rw [readNames]
    cases hu : s.unread with
    | nil =>
      obtain ⟨s', hr, hu', -⟩ := readWord_unread_nil hu name
      rw [hr, taken, List.foldl_cons, ← hu']
      exact ih s' _ _
    | cons w ws =>
      obtain ⟨rest, hr, hu', -⟩ := readWord_unread_cons hu name
      rw [hr, taken, List.foldl_cons, ← hu']
      exact ih _ _ _

/-- After enough names the other words are still there. -/
theorem readNames_unread {n : Nat} {s : Stream} (hf : s.fail = false) (hn : n ≤ s.unread.length)
    (l : Loading) (name : Str) : ∃ s', (readNames n s l name).1 = s' ∧ s'.fail = false ∧
      s'.unread = s.unread.drop n ∧ s'.rest.length ≤ s.rest.length := by
  induction n generalizing s l name with
  | zero => exact ⟨s, rfl, hf, rfl, Nat.le_refl _⟩
  | succ n ih =>
    cases hu : s.unread with
    | nil => simp [hu] at hn
    | cons w ws =>
      obtain ⟨rest, hr, hu', hlt⟩ := readWord_unread_cons hu name
      rw [hu, List.length_cons, Nat.add_le_add_iff_right, ← hu'] at hn
      obtain ⟨s', hs', hf', hunread, hle⟩ := ih rfl hn (l.addName w) w
      refine ⟨s', ?_, hf', ?_, hle.trans hlt.le⟩
      · rw [readNames, hr]
        exact hs'
      · rw [hunread, hu', List.drop_succ_cons]

/-- The loop over the edges passes through the words that are left, and may come to
the last line a second time. -/
theorem readEdges_passes (fuel : Nat) {s : Stream} (hf : s.fail = false)
    (hfuel : s.rest.length + 1 < fuel) (line : Str) :
    ∃ ls : List Str, (∀ l, readEdges fuel s l line = ls.foldlM Loading.addEdge l) ∧
      (∀ w ∈ s.unread, w ∈ ls) ∧ ∀ w ∈ ls, w ∈ s.unread ∨ (w = line ∧ line ≠ []) := by
  induction fuel generalizing s line with
  | zero => omega
  | succ fuel ih =>
    by_cases heof : s.eof = true
    · refine ⟨[], fun l => readEdges_eof (Nat.succ_pos fuel) heof l line, ?_, by simp⟩
      simp [Stream.unread, Stream.good, heof]
    cases hu : s.unread with
    | nil =>
      obtain ⟨s', hr, -, hend⟩ := readWord_unread_nil hu line
      by_cases hline : line = []
      · refine ⟨[], fun l => ?_, by simp, by simp⟩
        rw [readEdges, if_neg heof, hr]
        simp only [hline, if_true]
        rfl
      · refine ⟨[line], fun l => ?_, by simp, fun w hw => .inr ⟨List.mem_singleton.mp hw, hline⟩⟩
        rw [readEdges, if_neg heof, hr]
        simp only [hline, if_false, List.foldlM_cons, List.foldlM_nil]
        congr 1
        funext l
        exact readEdges_eof (by omega) (hend hf) _ _
    | cons w ws =>
      obtain ⟨rest, hr, hu', hlt⟩ := readWord_unread_cons hu line
      obtain ⟨ls, he, hall, hmem⟩ := ih (s := ⟨rest, rest.isEmpty, false⟩) rfl
        (by simp only; omega) w
      rw [hu'] at hall hmem
      have hw : w ≠ [] := by
        have hword : w ∈ s.unread := by simp [hu]
        unfold Stream.unread at hword
        split at hword
        · exact ne_nil_of_mem_words hword
        · cases hword
      refine ⟨w :: ls, fun l => ?_, ?_, ?_⟩
      · rw [readEdges, if_neg heof, hr]
        simp only [hw, if_false, List.foldlM_cons]
        congr 1
        funext l
        exact he l
      · exact List.forall_mem_cons.mpr
          ⟨List.mem_cons_self, fun v hv => List.mem_cons_of_mem _ (hall v hv)⟩
      · refine List.forall_mem_cons.mpr ⟨.inl List.mem_cons_self, fun v hv => .inl ?_⟩
        obtain hv | ⟨rfl, -⟩ := hmem v hv
        · exact List.mem_cons_of_mem _ hv
        · exact List.mem_cons_self

variable {text : Str} {numProfiles count : Int} {s : Stream}

/-- Reading a text, once its count is read. -/
theorem read_counted (hcount : readInt (ofBytes text) numProfiles = (s, count)) :
    readProfilesFromFile (some text) numProfiles =
      (readEdges (text.length + 2) (readNames count.toNat s .empty []).1
        ((taken [] s.unread count.toNat).foldl Loading.addName .empty) []).map
          fun l => (l.manager, count) := by
  rw [readProfilesFromFile, hcount, ← readNames_taken]

/-- The profiles that any text loads, if it is read to the end. -/
theorem read_handles (hcount : readInt (ofBytes text) numProfiles = (s, count))
    {m : ProfileManager} {r : Int}
    (h : readProfilesFromFile (some text) numProfiles = .ok (m, r)) :
    m.handles = taken [] s.unread count.toNat := by
  rw [read_counted hcount] at h
  obtain ⟨l, hl, he⟩ := (map_eq_ok _ _ _).mp h
  rw [← (Prod.mk.inj he).1, readEdges_handles hl, addNames_handles]

/-- `f` is a follower of `u`, by their handles. -/
def Follows (m : ProfileManager) (u f : Str) : Prop :=
  ∃ p, p < m.profiles.length ∧ (m.deref p).handle = u ∧
    ∃ q ∈ (m.deref p).followers, (m.deref q).handle = f

theorem follows_pushFollower {m : ProfileManager} {p : ProfileRef} (hp : p < m.profiles.length)
    (q : ProfileRef) (u f : Str) : (m.pushFollower p q).1.Follows u f ↔
      m.Follows u f ∨ ((m.deref p).handle = u ∧ (m.deref q).handle = f) := by
  by_cases hq : q ∈ (m.deref p).followers
  · rw [pushFollower, if_pos hq]
    exact ⟨.inl, fun h => h.elim id fun he => ⟨p, hp, he.1, q, hq, he.2⟩⟩
  have hfollowers : ∀ r, ((m.pushFollower p q).1.deref r).followers =
      if r = p then (m.deref p).followers ++ [q] else (m.deref r).followers := by
    intro r
    rw [pushFollower_deref m p hp]
    by_cases hr : r = p <;> simp [hr, hq]
  simp only [Follows, pushFollower_length, pushFollower_handle, hfollowers]
  constructor
  · rintro ⟨r, hr, hu, g, hg, hf⟩
    by_cases hrp : r = p
    · subst hrp
      rw [if_pos rfl, List.mem_append, List.mem_singleton] at hg
      obtain hg | rfl := hg
      · exact .inl ⟨r, hr, hu, g, hg, hf⟩
      · exact .inr ⟨hu, hf⟩
    · rw [if_neg hrp] at hg
      exact .inl ⟨r, hr, hu, g, hg, hf⟩
  · rintro (⟨r, hr, hu, g, hg, hf⟩ | ⟨hu, hf⟩)
    · refine ⟨r, hr, hu, g, ?_, hf⟩
      split
      · next hrp => exact List.mem_append_left _ (hrp ▸ hg)
      · exact hg
    · exact ⟨p, hp, hu, q, by simp, hf⟩

/-- A line adds the edge between its first two pieces, if the second is a handle. -/
theorem follows_addEdge {l l' : Loading} {line : Str} (h : l.addEdge line = .ok l') (u f : Str) :
    l'.manager.Follows u f ↔ l.manager.Follows u f ∨
      ((∃ more, pieces comma line = u :: f :: more) ∧ f ∈ l.manager.handles) := by
  obtain ⟨user, toFollow, more, hline, hu⟩ := (addEdge_isOk l line).mp ⟨l', h⟩
  obtain ⟨p, hp⟩ := Option.isSome_iff_exists.mp ((getProfileByName_isSome _ _).mpr hu)
  obtain ⟨l₁, h₁, hm⟩ := addEdge_ok hline hp
  rw [h] at h₁
  cases h₁
  obtain ⟨hlt, hhandle⟩ := getProfileByName_some _ hp
  have hpieces : (∃ more, pieces comma line = u :: f :: more) ↔ user = u ∧ toFollow = f := by
    rw [hline]
    constructor
    · rintro ⟨more', he⟩
      rw [List.cons.injEq, List.cons.injEq] at he
      exact ⟨he.1, he.2.1⟩
    · rintro ⟨rfl, rfl⟩
      exact ⟨more, rfl⟩
  rw [hm, hpieces, addFollower]
  cases hf : l.manager.getProfileByName toFollow with
  | none =>
    refine ⟨.inl, fun hor => hor.elim id fun he => ?_⟩
    rw [← he.1.2, ← getProfileByName_isSome, hf] at he
    cases he.2
  | some q =>
    have hq := (getProfileByName_some _ hf).2
    have hmem : toFollow ∈ l.manager.handles := by
      rw [← getProfileByName_isSome, hf]
      rfl
    have hpush := follows_pushFollower hlt q u f
    rw [hhandle, hq] at hpush
    rw [hpush]
    refine or_congr_right ⟨fun he => ⟨he, he.2 ▸ hmem⟩, And.left⟩

theorem follows_addEdges {ls : List Str} {l l' : Loading}
    (h : ls.foldlM Loading.addEdge l = .ok l') (u f : Str) :
    l'.manager.Follows u f ↔ l.manager.Follows u f ∨
      ((∃ w ∈ ls, ∃ more, pieces comma w = u :: f :: more) ∧ f ∈ l.manager.handles) := by
  induction ls generalizing l with
  | nil =>
    cases h
    simp
  | cons line ls ih =>
    obtain ⟨l₁, hl, h⟩ := addEdges_cons h
    rw [ih h, follows_addEdge hl, addEdge_handles hl, or_assoc, ← or_and_right]
    simp only [List.mem_cons, exists_eq_or_imp]

theorem not_follows_bare {names : List Str} (u f : Str) :
    ¬(names.foldl Loading.addName .empty).manager.Follows u f := by
  rintro ⟨p, hp, -, q, hq, -⟩
  have hmem := deref_mem _ p hp
  have hprofiles := addNames_profiles names .empty
  rw [hprofiles] at hmem
  rw [show Loading.empty.manager.profiles = [] from rfl, List.nil_append] at hmem
  obtain ⟨name, -, he⟩ := List.mem_map.mp hmem
  rw [← he] at hq
  cases hq

/-- The text is read to its end, and all that is loaded is the store's, each handle
at most once. -/
def Recovers (m : ProfileManager) (text : Str) (numProfiles : Int) : Prop :=
  ∃ m' r, readProfilesFromFile (some text) numProfiles = .ok (m', r) ∧ m'.handles.Nodup ∧
    (∀ h ∈ m'.handles, h ∈ m.handles) ∧ ∀ u f, m'.Follows u f → m.Follows u f

/-- A line that is accepted and adds no edge but one of the store. -/
def AddsKnown (m : ProfileManager) (w : Str) : Prop :=
  IsEdge m.handles w ∧ ∀ u f more, pieces comma w = u :: f :: more → f ∈ m.handles → m.Follows u f

/-- A count and as many names that are read whole: the rest decides. -/
theorem recovers_of_names {m : ProfileManager} (hm : m.handles.Nodup)
    (hcount : readInt (ofBytes text) numProfiles = (s, (m.profiles.length : Int)))
    (hf : s.fail = false) (hle : s.rest.length ≤ text.length) {ws : List Str}
    (hunread : s.unread = m.handles ++ ws) :
    m.Recovers text numProfiles ↔ ∀ w ∈ ws, m.AddsKnown w := by
  have hlength : m.handles.length = m.profiles.length := handles_length m
  have henough : m.profiles.length ≤ s.unread.length := by
    rw [hunread, List.length_append]
    omega
  have hnames : taken [] s.unread m.profiles.length = m.handles := by
    rw [taken_enough henough, hunread, List.take_left' hlength]
  obtain ⟨s', hs', hf', hunread', hle'⟩ := readNames_unread hf henough .empty []
  rw [hunread, List.drop_left' hlength] at hunread'
  obtain ⟨ls, hls, hall, hmem⟩ := readEdges_passes (text.length + 2) hf' (by omega) []
  rw [hunread'] at hall hmem
  have hiff : ∀ w, w ∈ ls ↔ w ∈ ws := fun w =>
    ⟨fun hw => (hmem w hw).resolve_right fun he => he.2 rfl, hall w⟩
  have hread := read_counted hcount
  rw [Int.toNat_natCast, hs', hls, hnames] at hread
  have hhandles := addNames_handles m.handles
  have hok := addEdges_isOk ls (m.handles.foldl Loading.addName .empty)
  rw [hhandles] at hok
  constructor
  · rintro ⟨m', r, h, -, -, hedges⟩ w hw
    rw [hread] at h
    obtain ⟨l, hl, he⟩ := (map_eq_ok _ _ _).mp h
    obtain rfl := (Prod.mk.inj he).1
    refine ⟨hok.mp ⟨l, hl⟩ w ((hiff w).mpr hw), fun u f more hpieces hfm => hedges u f ?_⟩
    rw [follows_addEdges hl, hhandles]
    exact .inr ⟨⟨w, (hiff w).mpr hw, more, hpieces⟩, hfm⟩
  · intro h
    obtain ⟨l, hl⟩ := hok.mpr fun w hw => (h w ((hiff w).mp hw)).1
    have hsame : l.manager.handles = m.handles := (addEdges_handles hl).trans hhandles
    refine ⟨l.manager, m.profiles.length, by rw [hread, hl]; rfl, hsame ▸ hm, fun h hh => hsame ▸ hh,
      fun u f huf => ?_⟩
    rw [follows_addEdges hl, hhandles] at huf
    obtain huf | ⟨⟨w, hw, more, hpieces⟩, hfm⟩ := huf
    · exact absurd huf (not_follows_bare u f)
    · exact (h w ((hiff w).mp hw)).2 u f more hpieces hfm

/-- With too few words for the names some handle is loaded twice, or an empty one. -/
theorem not_recovers_short {m : ProfileManager} (hempty : [] ∉ m.handles)
    (hcount : readInt (ofBytes text) numProfiles = (s, count))
    (hshort : s.unread.length < count.toNat) : ¬m.Recovers text numProfiles := by
  rintro ⟨m', r, h, hnodup, hknown, -⟩
  rw [read_handles hcount h] at hnodup hknown
  refine taken_short hshort [] (List.nodup_cons.mpr ⟨fun hmem => hempty (hknown [] hmem), hnodup⟩)

theorem prefix_append_cases {text a b : Str} (h : text <+: a ++ b) :
    text <+: a ∨ ∃ t, text = a ++ t ∧ t <+: b := by
  obtain h' | ⟨t, ht⟩ := List.prefix_or_prefix_of_prefix h (List.prefix_append a b)
  · exact .inl h'
  · refine .inr ⟨t, ht.symm, ?_⟩
    rwa [← ht, List.prefix_append_right_inj] at h

theorem prefix_endl_cases {t b : Str} (h : t <+: endl :: b) :
    t = [] ∨ ∃ t', t = endl :: t' ∧ t' <+: b := by
  cases t with
  | nil => exact .inl rfl
  | cons x t' =>
    rw [List.cons_prefix_cons] at h
    exact .inr ⟨t', by rw [h.1], h.2⟩

/-- The words at the start of lines without white space: a word of each line at
most, and only a part of the last. -/
theorem words_prefix_lines {ls : List Str} (hls : ∀ l ∈ ls, ∀ b ∈ l, isSpace b = false) {t : Str}
    (h : t <+: lines ls) :
    (words t).length ≤ ls.length ∧ ∀ w ∈ words t, ∃ l ∈ ls, w <+: l := by
  induction ls generalizing t with
  | nil =>
    rw [List.prefix_nil.mp h]
    simp
  | cons l ls ih =>
    have hword : ∀ {w : Str}, w <+: l → words w = if w = [] then [] else [w] := by
      intro w hw
      split
      · next he => rw [he, words_nil]
      · next he =>
        exact words_of_no_space (fun b hb => hls l List.mem_cons_self b (hw.subset hb)) he
    have hlines : lines (l :: ls) = l ++ endl :: lines ls := by simp [lines]
    rw [hlines] at h
    obtain hin | ⟨t₁, rfl, ht₁⟩ := prefix_append_cases h
    · rw [hword hin]
      split
      · simp
      · simpa using .inl hin
    obtain rfl | ⟨t₂, rfl, ht₂⟩ := prefix_endl_cases ht₁
    · rw [List.append_nil, hword List.prefix_rfl]
      split
      · simp
      · simp
    · obtain ⟨hlength, hmem⟩ := ih (fun l' hl' => hls l' (List.mem_cons_of_mem _ hl')) ht₂
      rw [words_append_space _ _ (by decide), hword List.prefix_rfl]
      constructor
      · rw [List.length_append, List.length_cons]
        have hone : (if l = [] then [] else [l]).length ≤ 1 := by split <;> simp
        omega
      · intro w hw
        obtain hw | hw := List.mem_append.mp hw
        · refine ⟨l, List.mem_cons_self, ?_⟩
          split at hw
          · cases hw
          · rw [List.mem_singleton.mp hw]
        · obtain ⟨l', hl', hp⟩ := hmem w hw
          exact ⟨l', List.mem_cons_of_mem _ hl', hp⟩

/-- Distinct clean handles, and followers that are profiles. -/
structure Tidy (m : ProfileManager) : Prop where
  distinct : m.handles.Nodup
  clean : ∀ h ∈ m.handles, CleanHandle h
  known : ∀ profile ∈ m.profiles, ∀ f ∈ profile.followers, f < m.profiles.length

/-- The file up to the last byte of the last handle. -/
def namesPart (m : ProfileManager) : Str :=
  decimal m.profiles.length ++ (endl :: lines m.handles).dropLast

theorem lines_concat (front : List Str) (h : Str) : lines (front ++ [h]) = lines front ++ h ++ [endl] := by
  simp [lines]

theorem sync_eq (m : ProfileManager) : m.sync = m.namesPart ++ endl :: lines m.edgeLines := by
  have hlast : (endl :: lines m.handles).dropLast ++ [endl] = endl :: lines m.handles := by
    obtain he | ⟨front, h, he⟩ := List.eq_nil_or_concat' m.handles
    · rw [he]
      rfl
    · rw [he, lines_concat, ← List.cons_append, List.dropLast_concat]
  rw [sync, namesPart, List.append_assoc, ← List.singleton_append (l := lines m.edgeLines),
    ← List.append_assoc _ [endl], hlast, List.cons_append]

/-- What is left of an edge of the store: a user, and some bytes of a follower that
are no handle, or the handle of another follower of the user. -/
def EdgeLeft (m : ProfileManager) (w : Str) : Prop :=
  ∃ u f, w = u ++ comma :: f ∧ comma ∉ u ∧ f ≠ [] ∧ (f ∈ m.handles → m.Follows u f)

/-- The text is empty and the count holds nothing, or the text ends behind the last
handle, and the words behind it are edges or what is left of one. -/
def Intact (m : ProfileManager) (text : Str) (numProfiles : Int) : Prop :=
  (text = [] ∧ numProfiles ≤ 0) ∨
    (m.profiles.length < 2 ^ 31 ∧ ∃ t, text = m.namesPart ++ t ∧ ∀ w ∈ words t, m.EdgeLeft w)

theorem addsKnown_iff {m : ProfileManager} {u f w : Str} (hu : u ∈ m.handles) (huc : comma ∉ u)
    (hfc : comma ∉ f) (hw : w <+: u ++ comma :: f) : m.AddsKnown w ↔ m.EdgeLeft w := by
  have hparts : ∀ {a rest : Str}, comma ∉ a → w = a ++ comma :: rest → a = u ∧ comma ∉ rest := by
    rintro a rest ha rfl
    obtain ⟨more, he⟩ := hw
    rw [List.append_assoc, List.cons_append, eq_comm, List.append_cons_inj_of_notMem huc hfc] at he
    exact ⟨he.1.symm, fun hc => hfc (he.2.2 ▸ List.mem_append_left more hc)⟩
  constructor
  · rintro ⟨⟨user, toFollow, more, hpieces, -⟩, hedge⟩
    obtain ⟨-, he⟩ | ⟨a, rest, he, ha, hp⟩ := pieces_cases comma w
    · rw [he] at hpieces
      split at hpieces <;> cases hpieces
    · have hrest := (hparts ha he).2
      rw [hp, List.cons.injEq] at hpieces
      obtain ⟨-, hpieces⟩ := hpieces
      have hne : rest ≠ [] := by
        rintro rfl
        cases hpieces
      refine ⟨a, rest, he, ha, hne, hedge a rest [] ?_⟩
      rw [hp, pieces_of_not_mem hne hrest]
  · rintro ⟨a, rest, he, ha, hne, hedge⟩
    obtain ⟨rfl, hrest⟩ := hparts ha he
    have hpieces : pieces comma w = [a, rest] := by rw [he, pieces_append ha hne hrest]
    refine ⟨⟨a, rest, [], hpieces, hu⟩, fun u' f' more' hp => ?_⟩
    rw [hpieces] at hp
    cases hp
    exact hedge

theorem count_small {n : Nat} (hn : n < 2 ^ 31) {rest : Str}
    (hrest : rest = [] ∨ ∃ r, rest = endl :: r) (numProfiles : Int) :
    ∃ s, readInt (ofBytes (decimal n ++ rest)) numProfiles = (s, (n : Int)) ∧ s.fail = false ∧
      s.unread = words rest ∧ s.rest.length ≤ (decimal n ++ rest).length := by
  have hfit : ¬intMax < (n : Int) := by simp only [intMax]; omega
  obtain rfl | ⟨r, rfl⟩ := hrest
  · rw [List.append_nil, readInt_digits (decimal_ne_nil n) (decimal_isDigit n), digitsValue_decimal,
      if_neg hfit]
    exact ⟨_, rfl, by simp [hfit], rfl, by simp⟩
  · rw [readInt_decimal n (by decide), if_neg hfit]
    exact ⟨_, rfl, by simp [hfit], by simp [Stream.unread, Stream.good, hfit], by simp⟩

theorem count_large {n : Nat} (hn : 2 ^ 31 ≤ n) {rest : Str}
    (hrest : rest = [] ∨ ∃ r, rest = endl :: r) (numProfiles : Int) :
    ∃ s, readInt (ofBytes (decimal n ++ rest)) numProfiles = (s, intMax) ∧ s.unread = [] := by
  have hlarge : intMax < (n : Int) := by simp only [intMax]; omega
  obtain rfl | ⟨r, rfl⟩ := hrest
  · rw [List.append_nil, readInt_digits (decimal_ne_nil n) (decimal_isDigit n), digitsValue_decimal,
      if_pos hlarge]
    exact ⟨_, rfl, by simp [Stream.unread, Stream.good]⟩
  · rw [readInt_decimal n (by decide), if_pos hlarge]
    exact ⟨_, rfl, by simp [Stream.unread, Stream.good, hlarge]⟩

/-- A cut through the count leaves a count and no names. -/
theorem count_cut {n : Nat} (hn : 0 < n) (hne : text ≠ []) (h : text <+: decimal n)
    (numProfiles : Int) : ∃ s count, readInt (ofBytes text) numProfiles = (s, count) ∧
      s.unread = [] ∧ 0 < count.toNat := by
  have hdigits : ∀ b ∈ text, isDigit b = true := fun b hb => decimal_isDigit n b (h.subset hb)
  have hpos := digitsValue_pos hn hne h
  refine ⟨_, _, readInt_digits hne hdigits numProfiles, by simp [Stream.unread, Stream.good], ?_⟩
  split
  · simp [intMax]
  · rwa [Int.toNat_natCast]

theorem flatMap_words {ls : List Str} (hls : ∀ l ∈ ls, CleanHandle l) : ls.flatMap words = ls := by
  rw [List.flatMap_congr fun l hl => (hls l hl).words, List.flatMap_singleton']

section tidy

variable {m : ProfileManager} (hm : m.Tidy)

include hm

theorem words_names {t : Str} (ht : t = [] ∨ ∃ t', t = endl :: t') :
    words ((endl :: lines m.handles).dropLast ++ t) = m.handles ++ words t := by
  have hclean := hm.clean
  obtain he | ⟨front, h, he⟩ := List.eq_nil_or_concat' m.handles
  · rw [he]
    rfl
  rw [he] at hclean ⊢
  have hh := (hclean h (by simp)).words
  have htail : words (h ++ t) = h :: words t := by
    obtain rfl | ⟨t', rfl⟩ := ht
    · rw [List.append_nil, words_nil, hh]
    · rw [words_append_space _ _ (by decide), hh, words_space_cons (by decide)]
      rfl
  rw [lines_concat, ← List.cons_append, List.dropLast_concat, List.cons_append,
    words_space_cons (by decide), List.append_assoc, words_lines,
    flatMap_words fun l hl => hclean l (List.mem_append_left _ hl), htail]
  simp

theorem handle_noSpace {h : Str} (hh : h ∈ m.handles) : ∀ b ∈ h, isSpace b = false :=
  fun b hb => ((hm.clean h hh).2 b hb).1

theorem edgeLine_handles {l : Str} (hl : l ∈ m.edgeLines) :
    ∃ u ∈ m.handles, ∃ f ∈ m.handles, l = u ++ comma :: f := by
  obtain ⟨profile, hp, hl⟩ := List.mem_flatMap.mp hl
  obtain ⟨q, hq, rfl⟩ := List.mem_map.mp hl
  exact ⟨_, List.mem_map_of_mem hp, _, List.mem_map_of_mem (m.deref_mem q (hm.known profile hp q hq)),
    rfl⟩

theorem edgeLine_noSpace {l : Str} (hl : l ∈ m.edgeLines) : ∀ b ∈ l, isSpace b = false := by
  obtain ⟨u, hu, f, hf, rfl⟩ := edgeLine_handles hm hl
  intro b hb
  obtain hb | hb := List.mem_append.mp hb
  · exact handle_noSpace hm hu b hb
  · obtain rfl | hb := List.mem_cons.mp hb
    · decide
    · exact handle_noSpace hm hf b hb

/-- Behind the names every word is an edge of the store or the start of one. -/
theorem addsKnown_edges {t : Str} (ht : t <+: endl :: lines m.edgeLines) :
    (∀ w ∈ words t, m.AddsKnown w) ↔ ∀ w ∈ words t, m.EdgeLeft w := by
  refine forall₂_congr fun w hw => ?_
  obtain rfl | ⟨t', rfl, ht'⟩ := prefix_endl_cases ht
  · simp at hw
  rw [words_space_cons (by decide)] at hw
  obtain ⟨l, hl, hwl⟩ := (words_prefix_lines (fun l hl => edgeLine_noSpace hm hl) ht').2 w hw
  obtain ⟨u, hu, f, hf, rfl⟩ := edgeLine_handles hm hl
  exact addsKnown_iff hu (hm.clean u hu).comma_not_mem (hm.clean f hf).comma_not_mem hwl

theorem empty_not_mem : [] ∉ m.handles := fun h => (hm.clean [] h).1 rfl

/-- The text ends behind the last handle. -/
theorem recovers_behind {t : Str} (ht : t <+: endl :: lines m.edgeLines) (numProfiles : Int) :
    m.Recovers (m.namesPart ++ t) numProfiles ↔
      m.profiles.length < 2 ^ 31 ∧ ∀ w ∈ words t, m.EdgeLeft w := by
  have hshape : t = [] ∨ ∃ t', t = endl :: t' :=
    (prefix_endl_cases ht).imp_right fun ⟨t', he, _⟩ => ⟨t', he⟩
  have hrest : (endl :: lines m.handles).dropLast ++ t = [] ∨
      ∃ r, (endl :: lines m.handles).dropLast ++ t = endl :: r := by
    cases hlines : lines m.handles with
    | nil => exact hshape
    | cons b bs => exact .inr ⟨_, rfl⟩
  rw [namesPart, List.append_assoc]
  by_cases hn : m.profiles.length < 2 ^ 31
  · obtain ⟨s, hcount, hf, hunread, hle⟩ := count_small hn hrest numProfiles
    rw [words_names hm hshape] at hunread
    rw [recovers_of_names hm.distinct hcount hf hle hunread, addsKnown_edges hm ht,
      and_iff_right hn]
  · obtain ⟨s, hcount, hunread⟩ := count_large (Nat.le_of_not_lt hn) hrest numProfiles
    refine iff_of_false (not_recovers_short (empty_not_mem hm) hcount ?_) fun h => hn h.1
    rw [hunread]
    decide

/-- A cut inside of the count. -/
theorem not_recovers_count (hne : text ≠ []) (hcut : text ≠ m.namesPart)
    (hdigits : text <+: decimal m.profiles.length) (numProfiles : Int) :
    ¬m.Recovers text numProfiles := by
  have hpos : 0 < m.profiles.length := by
    refine Nat.pos_of_ne_zero fun hzero => hcut ?_
    have hhandles : m.handles = [] := by
      rw [← List.length_eq_zero_iff, handles_length, hzero]
    have hzero' : decimal m.profiles.length = [48] := by
      rw [hzero]
      rfl
    obtain ⟨b, bs, rfl⟩ := List.exists_cons_of_ne_nil hne
    rw [hzero', List.cons_prefix_cons, List.prefix_nil] at hdigits
    rw [namesPart, hhandles, hzero', hdigits.1, hdigits.2]
    rfl
  obtain ⟨s, count, hcount, hunread, hlt⟩ := count_cut hpos hne hdigits numProfiles
  refine not_recovers_short (empty_not_mem hm) hcount ?_
  rwa [hunread]

/-- The text ends before the last byte of the last handle, but is not empty. -/
theorem not_recovers_before (hne : text ≠ []) (h : text <+: m.namesPart)
    (hcut : text ≠ m.namesPart) (numProfiles : Int) : ¬m.Recovers text numProfiles := by
  have hempty := empty_not_mem hm
  have hcounted : text <+: decimal m.profiles.length → ¬m.Recovers text numProfiles :=
    fun hdigits => not_recovers_count hm hne hcut hdigits numProfiles
  obtain hdigits | ⟨t₁, rfl, ht₁⟩ := prefix_append_cases h
  · exact hcounted hdigits
  obtain he | ⟨front, last, he⟩ := List.eq_nil_or_concat' m.handles
  · rw [he] at ht₁
    obtain rfl := List.prefix_nil.mp ht₁
    exact hcounted (by simp)
  have hpart : (endl :: lines m.handles).dropLast = endl :: (lines front ++ last) := by
    rw [he, lines_concat, ← List.cons_append, List.dropLast_concat]
  rw [namesPart, hpart, ne_eq, List.append_right_inj] at hcut
  rw [hpart] at ht₁
  obtain rfl | ⟨t₂, rfl, ht₂⟩ := prefix_endl_cases ht₁
  · exact hcounted (by simp)
  by_cases hn : m.profiles.length < 2 ^ 31
  swap
  · obtain ⟨s, hcount, hunread⟩ := count_large (Nat.le_of_not_lt hn) (.inr ⟨t₂, rfl⟩) numProfiles
    refine not_recovers_short hempty hcount ?_
    rw [hunread]
    decide
  obtain ⟨s, hcount, -, hunread, -⟩ := count_small hn (.inr ⟨t₂, rfl⟩) numProfiles
  rw [words_space_cons (by decide)] at hunread
  have hlength : front.length + 1 = m.profiles.length := by
    rw [← handles_length, he, List.length_append, List.length_singleton]
  have hclean : ∀ l ∈ front, CleanHandle l := fun l hl => hm.clean l (by simp [he, hl])
  have hshort : (words t₂).length ≤ front.length →
      ¬m.Recovers (decimal m.profiles.length ++ endl :: t₂) numProfiles := by
    intro hle
    refine not_recovers_short hempty hcount ?_
    rw [hunread, Int.toNat_natCast]
    omega
  obtain hfront | ⟨t₃, rfl, ht₃⟩ := prefix_append_cases ht₂
  · exact hshort (words_prefix_lines (fun l hl b hb => ((hclean l hl).2 b hb).1) hfront).1
  have hwords : words (lines front ++ t₃) = front ++ words t₃ := by
    rw [words_lines, flatMap_words hclean]
  by_cases ht₃nil : t₃ = []
  · exact hshort (by rw [hwords, ht₃nil, words_nil, List.append_nil])
  have hlast : CleanHandle last := hm.clean last (by simp [he])
  have hword : words t₃ = [t₃] :=
    words_of_no_space (fun b hb => (hlast.2 b (ht₃.subset hb)).1) ht₃nil
  rintro ⟨m', r, hread, hnodup, hknown, -⟩
  have htaken := read_handles hcount hread
  rw [hunread, hwords, hword, Int.toNat_natCast, taken_enough (by simp [hlength]), ← hlength,
    List.take_of_length_le (by simp)] at htaken
  rw [htaken] at hnodup hknown
  have hmem := hknown t₃ (by simp)
  rw [he, List.mem_append, List.mem_singleton] at hmem
  obtain hmem | rfl := hmem
  · exact (List.nodup_append.mp hnodup).2.2 t₃ hmem t₃ (by simp) rfl
  · exact hcut rfl

/-- What is left of the saved text of a store is read back soundly exactly when it is
intact. -/
theorem recovers_iff (htext : text <+: m.sync) (numProfiles : Int) :
    m.Recovers text numProfiles ↔ m.Intact text numProfiles := by
  have hnames : ¬m.namesPart <+: [] := fun h => by
    have hnil := List.prefix_nil.mp h
    exact decimal_ne_nil _ (List.append_eq_nil_iff.mp hnil).1
  by_cases hne : text = []
  · subst hne
    have hcount : readInt (ofBytes []) numProfiles = (⟨[], true, true⟩, numProfiles) := rfl
    have hintact : m.Intact [] numProfiles ↔ numProfiles ≤ 0 := by
      refine ⟨fun h => h.elim And.right fun ⟨_, t, ht, _⟩ => ?_, fun h => .inl ⟨rfl, h⟩⟩
      exact absurd ⟨t, ht.symm⟩ hnames
    rw [hintact]
    by_cases hle : numProfiles ≤ 0
    · refine iff_of_true ⟨⟨[]⟩, numProfiles, ?_, List.nodup_nil, nofun, ?_⟩ hle
      · rw [read_counted hcount, Int.toNat_of_nonpos hle, taken_zero]
        rfl
      · rintro u f ⟨p, hp, -⟩
        cases hp
    · refine iff_of_false (not_recovers_short (empty_not_mem hm) hcount ?_) hle
      have hunread : (⟨[], true, true⟩ : Stream).unread = [] := rfl
      rw [hunread, List.length_nil]
      omega
  have hsync := m.sync_eq
  by_cases hbehind : m.namesPart <+: text
  · obtain ⟨t, rfl⟩ := hbehind
    rw [hsync, List.prefix_append_right_inj] at htext
    rw [recovers_behind hm htext numProfiles]
    constructor
    · exact fun h => .inr ⟨h.1, t, rfl, h.2⟩
    · rintro (⟨hnil, -⟩ | ⟨hn, t', he, hedges⟩)
      · exact absurd hnil hne
      · rw [List.append_cancel_left he]
        exact ⟨hn, hedges⟩
  · have hbefore : text <+: m.namesPart := by
      refine (List.prefix_or_prefix_of_prefix htext ?_).resolve_right hbehind
      exact hsync ▸ List.prefix_append _ _
    have hcut : text ≠ m.namesPart := fun he => hbehind (he ▸ List.prefix_rfl)
    refine iff_of_false (not_recovers_before hm hne hbefore hcut numProfiles) ?_
    rintro (⟨hnil, -⟩ | ⟨-, t, he, -⟩)
    · exact hne hnil
    · exact hbehind ⟨t, he.symm⟩

end tidy

/-- Two users, of whom the second follows the first. -/
def followed : ProfileManager := ⟨[⟨[97], [1], .unset⟩, ⟨[98], [], .unset⟩]⟩

theorem followed_tidy : followed.Tidy := by
  refine ⟨by decide, ?_, by decide⟩
  rintro h hh
  obtain rfl | rfl : h = [97] ∨ h = [98] := by simpa [followed, handles] using hh
  · exact ⟨by decide, List.forall_mem_singleton.mpr (by decide)⟩
  · exact ⟨by decide, List.forall_mem_singleton.mpr (by decide)⟩

/-- A cut between the names and the edge loses the edge only. -/
theorem recovers_of_names_only : followed.Recovers [50, 10, 97, 10, 98] 0 := by
  refine (recovers_iff followed_tidy ⟨[10, 97, 44, 98, 10], rfl⟩ 0).mpr
    (.inr ⟨by decide, [], rfl, ?_⟩)
  simp

/-- After a cut through the edge the reader looks for a piece that is not there. -/
theorem not_recovers_of_cut : followed.Tidy ∧ [50, 10, 97, 10, 98, 10, 97, 44] <+: followed.sync ∧
    ¬followed.Recovers [50, 10, 97, 10, 98, 10, 97, 44] 0 := by
  refine ⟨followed_tidy, ⟨[98, 10], rfl⟩, ?_⟩
  rintro ⟨m', r, h, -⟩
  have hread : readProfilesFromFile (some [50, 10, 97, 10, 98, 10, 97, 44]) 0 =
      .error .splitIndex := rfl
  rw [hread] at h
  cases h

end ProfileManager

end Piupiu
