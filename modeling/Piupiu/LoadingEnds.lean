import Piupiu.ProfileFile
import Piupiu.Lib.Words
import Piupiu.Lib.Loops

/-!
# The loops of the reader

`ReadProfilesFromFile` runs three loops: one over the names, one over the edges, and
one that splits a line. The loop over the edges tests `eof` alone. It ends all the
same, because a read that fails short of the end finds the line still empty.
-/
namespace Piupiu

open IStream Loops

namespace ProfileManager

/-- What a loop works on: the file, what was loaded, and the string that is read into. -/
structure Reading where
  stream : Stream
  loading : Loading
  target : Str

/-- `for (int i = 0; i < numProfiles; i++)`, which nothing leaves early. -/
def namesLoop (numProfiles : Int) : While (Int × Reading) Empty where
  test s := s.1 < numProfiles
  body s :=
    let (stream, profileName) := readWord s.2.stream s.2.target
    .inl (s.1 + 1, ⟨stream, s.2.loading.addName profileName, profileName⟩)

/-- `while (!profilesFile.eof())`, which the empty line and the errors leave. -/
def edgesLoop : While Reading (Except ReadError Loading) where
  test r := !r.stream.eof
  body r :=
    let (stream, line) := readWord r.stream r.target
    if line = [] then .inr (.ok r.loading)
    else
      match r.loading.addEdge line with
      | .ok loading => .inl ⟨stream, loading, line⟩
      | .error e => .inr (.error e)

/-- `while (std::getline(ss, split, delimiter))`: the last pass is the one that fails. -/
def splitLoop (delimiter : UInt8) : While (Stream × Str × List Str) (List Str) where
  test _ := true
  body s :=
    let (stream, piece) := getline s.1 s.2.1 delimiter
    if stream.fail then .inr s.2.2 else .inl (stream, piece, s.2.2 ++ [piece])

/-- Each pass takes a byte from the stream, or meets its end. -/
theorem getline_lt {s : Stream} {target : Str} {delimiter : UInt8}
    (h : (getline s target delimiter).1.fail = false) :
    (getline s target delimiter).1.rest.length < s.rest.length := by
  unfold getline at h ⊢
  split
  · next hg =>
    rw [if_pos hg] at h
    cases hd : s.rest.dropWhile (· ≠ delimiter) with
    | nil =>
      rw [hd] at h
      simpa [List.length_pos_iff] using h
    | cons b rest =>
      have hle := (List.dropWhile_suffix (· ≠ delimiter) (l := s.rest)).length_le
      rw [hd, List.length_cons] at hle
      exact hle
  · next hb =>
    rw [if_neg hb] at h
    cases h

theorem splitLoop_unrolled (delimiter : UInt8) (fuel : Nat) (s : Stream × Str × List Str) :
    splitFrom delimiter (fuel + 1) s.1 s.2.1 s.2.2 =
      if (splitLoop delimiter).test s then
        ((splitLoop delimiter).body s).elim
          (fun s => splitFrom delimiter fuel s.1 s.2.1 s.2.2) id
      else s.2.2 := by
  simp only [splitFrom, splitLoop, if_true]
  split <;> rfl

/-- Splitting a line ends, with the pieces that `split` gives. -/
theorem splitLoop_ends (line : Str) (delimiter : UInt8) :
    ∃ n, (splitLoop delimiter).Runs (ofBytes line, [], []) n (.inr (split line delimiter)) := by
  obtain ⟨n, e, hrun, hle⟩ : ∃ n e, (splitLoop delimiter).Runs (ofBytes line, [], []) n e ∧
      n ≤ line.length + 1 := by
    refine While.ends_of_variant (fun _ => True)
      (fun s : Stream × Str × List Str => s.1.rest.length + 1) (fun s _ _ => Nat.succ_pos _)
      (fun s s' _ _ hbody => ⟨trivial, ?_⟩) trivial
    simp only [splitLoop] at hbody
    split at hbody
    · cases hbody
    · next hfail =>
      cases hbody
      exact Nat.succ_lt_succ (getline_lt (by simpa using hfail))
  have hsplit := hrun.unrolled (fun fuel s => splitFrom delimiter fuel s.1 s.2.1 s.2.2)
    (fun s => s.2.2) id (splitLoop_unrolled delimiter) (Nat.lt_succ_of_le hle)
  rw [splitFrom_pieces delimiter _ _ _ _ (ofBytes_good line)
    (by rw [ofBytes_rest]; omega), List.nil_append, ofBytes_rest, ← split_eq_pieces] at hsplit
  cases e with
  | inl s => exact absurd hrun.test_false (by simp [splitLoop])
  | inr splits =>
    rw [hsplit]
    exact ⟨n, hrun⟩

/-- The loop makes one pass for each name that is still to be read. -/
theorem namesLoop_runs (numProfiles i : Int) (r : Reading) :
    ∃ r', (namesLoop numProfiles).Runs (i, r) (numProfiles - i).toNat
        (.inl (max i numProfiles, r')) ∧
      (r'.stream, r'.loading) =
        readNames (numProfiles - i).toNat r.stream r.loading r.target := by
  induction hn : (numProfiles - i).toNat generalizing i r with
  | zero =>
    have hmax : max i numProfiles = i := by omega
    have htest : (namesLoop numProfiles).test (i, r) = false := by
      simp only [namesLoop, decide_eq_false_iff_not]
      omega
    rw [hmax]
    exact ⟨r, .stop htest, rfl⟩
  | succ n ih =>
    have htest : (namesLoop numProfiles).test (i, r) = true := by
      simp only [namesLoop, decide_eq_true_eq]
      omega
    have hmax : max i numProfiles = max (i + 1) numProfiles := by omega
    obtain ⟨r', hrun, hread⟩ := ih (i + 1) ⟨(readWord r.stream r.target).1,
      r.loading.addName (readWord r.stream r.target).2, (readWord r.stream r.target).2⟩ (by omega)
    rw [hmax]
    exact ⟨r', .again htest rfl hrun, hread⟩

theorem readNames_suffix (n : Nat) (s : Stream) (l : Loading) (name : Str) :
    (readNames n s l name).1.rest <:+ s.rest := by
  induction n generalizing s l name with
  | zero => exact List.suffix_rfl
  | succ n ih => exact (ih _ _ _).trans (readWord_suffix s name)

/-- A failed stream that has not met its end has left the line empty. -/
def Reading.Fresh (r : Reading) : Prop := r.stream.fail = true → r.stream.eof = true ∨ r.target = []

/-- The passes that are left: one for each word, and one to meet the end. -/
def Reading.passesLeft (r : Reading) : Nat :=
  if r.stream.eof then 0 else r.stream.unread.length + 1

/-- A pass that goes on has read a line into which an edge was written. -/
theorem edgesLoop_again {r r' : Reading} (h : edgesLoop.body r = .inl r') :
    (r'.stream, r'.target) = readWord r.stream r.target ∧ r'.target ≠ [] ∧
      r.loading.addEdge r'.target = .ok r'.loading := by
  simp only [edgesLoop] at h
  split at h
  · cases h
  · next hline =>
    split at h
    · next loading hedge =>
      cases h
      exact ⟨rfl, hline, hedge⟩
    · cases h

/-- Such a pass keeps the invariant, and fewer of them are left. -/
theorem edgesLoop_pass {r r' : Reading} (hfresh : r.Fresh) (htest : edgesLoop.test r = true)
    (hbody : edgesLoop.body r = .inl r') : r'.Fresh ∧ r'.passesLeft < r.passesLeft := by
  obtain ⟨hread, hline, -⟩ := edgesLoop_again hbody
  have heof : r.stream.eof = false := by simpa [edgesLoop] using htest
  have hleft : r.passesLeft = r.stream.unread.length + 1 := by simp [Reading.passesLeft, heof]
  cases hu : r.stream.unread with
  | nil =>
    obtain ⟨s, hr, -, hend⟩ := readWord_unread_nil hu r.target
    rw [hr, Prod.mk.injEq] at hread
    have hfail : r.stream.fail = false := by
      refine Bool.eq_false_iff.mpr fun hfail => ?_
      obtain h | h := hfresh hfail
      · simp [heof] at h
      · exact hline (hread.2.trans h)
    have heof' : r'.stream.eof = true := by
      rw [hread.1]
      exact hend hfail
    refine ⟨fun _ => .inl heof', ?_⟩
    rw [hleft, Reading.passesLeft, if_pos heof']
    exact Nat.succ_pos _
  | cons w ws =>
    obtain ⟨rest, hr, hunread, -⟩ := readWord_unread_cons hu r.target
    rw [hr, Prod.mk.injEq] at hread
    refine ⟨fun hfail => ?_, ?_⟩
    · rw [hread.1] at hfail
      cases hfail
    · rw [hleft, Reading.passesLeft, hread.1, hunread, hu, List.length_cons]
      split <;> omega

theorem Reading.passesLeft_le (r : Reading) : r.passesLeft ≤ (words r.stream.rest).length + 1 := by
  unfold passesLeft Stream.unread
  split
  · exact Nat.zero_le _
  · split
    · exact Nat.le_refl _
    · simp

/-- The loop over the edges ends after one pass more than there are words, at most. -/
theorem edgesLoop_ends {r : Reading} (hfresh : r.Fresh) :
    ∃ n e, edgesLoop.Runs r n e ∧ n ≤ (words r.stream.rest).length + 1 := by
  have hpos : ∀ r : Reading, r.Fresh → edgesLoop.test r = true → 0 < r.passesLeft := by
    intro r _ htest
    have heof : r.stream.eof = false := by simpa [edgesLoop] using htest
    simp [Reading.passesLeft, heof]
  obtain ⟨n, e, hrun, hle⟩ := While.ends_of_variant Reading.Fresh Reading.passesLeft hpos
    (fun _ _ => edgesLoop_pass) hfresh
  exact ⟨n, e, hrun, hle.trans r.passesLeft_le⟩

/-- `readEdges` unrolls the loop up to a number of passes. -/
theorem edgesLoop_unrolled (fuel : Nat) (r : Reading) :
    readEdges (fuel + 1) r.stream r.loading r.target =
      if edgesLoop.test r then
        (edgesLoop.body r).elim (fun r => readEdges fuel r.stream r.loading r.target) id
      else .ok r.loading := by
  rw [readEdges]
  cases heof : r.stream.eof with
  | true => simp [edgesLoop, heof]
  | false =>
    simp only [edgesLoop, heof, Bool.not_false, if_true, Bool.false_eq_true, if_false]
    by_cases hline : (readWord r.stream r.target).2 = []
    · simp only [hline, if_true]
      rfl
    · simp only [hline, if_false]
      cases r.loading.addEdge (readWord r.stream r.target).2 <;> rfl

/-- What is loaded when the loop ends, or the error that ends it. -/
def loaded (e : Reading ⊕ Except ReadError Loading) : Except ReadError Loading :=
  e.elim (fun r => .ok r.loading) id

theorem addEdge_error {l : Loading} {line : Str} {err : ReadError}
    (h : l.addEdge line = .error err) : err = .splitIndex ∨ err = .mapAt := by
  unfold Loading.addEdge at h
  split at h
  · split at h
    · cases h
      exact .inr rfl
    · cases h
  · cases h
    exact .inl rfl

/-- The loop over the edges ends in a normal way, or with an index or a lookup that fails. -/
theorem loaded_cases {r : Reading} {n : Nat} {e : Reading ⊕ Except ReadError Loading}
    (h : edgesLoop.Runs r n e) :
    (∃ l, loaded e = .ok l) ∨ loaded e = .error .splitIndex ∨ loaded e = .error .mapAt := by
  cases e with
  | inl r => exact .inl ⟨r.loading, rfl⟩
  | inr left =>
    cases left with
    | ok l => exact .inl ⟨l, rfl⟩
    | error err =>
      obtain ⟨r', -, hbody⟩ := h.exists_pass
      simp only [edgesLoop] at hbody
      split at hbody
      · cases hbody
      · split at hbody
        · cases hbody
        · next err' hedge =>
          cases hbody
          obtain rfl | rfl := addEdge_error hedge
          · exact .inr (.inl rfl)
          · exact .inr (.inr rfl)

/-- What is left behind the names is the end of the text. -/
theorem names_suffix {text : Str} {numProfiles count : Int} {stream : Stream} {names : Reading}
    (hcount : readInt (ofBytes text) numProfiles = (stream, count))
    (hread : (names.stream, names.loading) = readNames count.toNat stream .empty []) :
    names.stream.rest <:+ text := by
  have hstream : names.stream = (readNames count.toNat stream .empty []).1 := congrArg Prod.fst hread
  have htext := readInt_suffix (ofBytes text) numProfiles
  rw [hcount] at htext
  rw [hstream]
  exact (readNames_suffix count.toNat stream .empty []).trans htext

/-- On every text the three loops end, the one over the edges after at most one pass more
than there are words behind the names; and reading returns, or stops where an index or a
lookup fails. -/
theorem loading_ends (text : Str) (numProfiles : Int) :
    (∀ line delimiter, ∃ n,
      (splitLoop delimiter).Runs (ofBytes line, [], []) n (.inr (split line delimiter))) ∧
    ∃ stream count names, readInt (ofBytes text) numProfiles = (stream, count) ∧
      (namesLoop count).Runs (0, ⟨stream, .empty, []⟩) count.toNat (.inl (max 0 count, names)) ∧
      ∃ n e, edgesLoop.Runs { names with target := [] } n e ∧
        n ≤ (words names.stream.rest).length + 1 ∧
        readProfilesFromFile (some text) numProfiles =
          (loaded e).map (fun l => (l.manager, count)) ∧
        ((∃ m, readProfilesFromFile (some text) numProfiles = .ok (m, count)) ∨
          readProfilesFromFile (some text) numProfiles = .error .splitIndex ∨
          readProfilesFromFile (some text) numProfiles = .error .mapAt) := by
  refine ⟨splitLoop_ends, ?_⟩
  cases hcount : readInt (ofBytes text) numProfiles with
  | mk stream count =>
    obtain ⟨names, hnames, hread⟩ := namesLoop_runs count 0 ⟨stream, .empty, []⟩
    rw [sub_zero] at hnames hread
    obtain ⟨n, e, hedges, hle⟩ := edgesLoop_ends (r := { names with target := [] }) fun _ => .inr rfl
    have hfuel : n < text.length + 2 := by
      have hwords := length_words_le names.stream.rest
      have hlength := (names_suffix hcount hread).length_le
      simp only at hle
      omega
    have hunrolled := hedges.unrolled (fun fuel r => readEdges fuel r.stream r.loading r.target)
      (fun r => .ok r.loading) id edgesLoop_unrolled hfuel
    have hresult : readProfilesFromFile (some text) numProfiles =
        (loaded e).map fun l => (l.manager, count) := by
      simp only [readProfilesFromFile, hcount, ← hread]
      exact congrArg (Except.map fun l => (l.manager, count)) hunrolled
    refine ⟨stream, count, names, rfl, hnames, n, e, hedges, hle, hresult, ?_⟩
    rw [hresult]
    obtain ⟨l, hl⟩ | hl | hl := loaded_cases hedges
    · rw [hl]
      exact .inl ⟨l.manager, rfl⟩
    · rw [hl]
      exact .inr (.inl rfl)
    · rw [hl]
      exact .inr (.inr rfl)

end ProfileManager

end Piupiu
