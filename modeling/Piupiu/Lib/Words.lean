import Piupiu.Lib.IStream

/-!
# Texts of words

What it is for a text to consist of certain words, whatever white space stands
around them, and that the words which are read from a text are the only ones it
consists of.
-/
namespace IStream

def Gap (text : Bytes) : Prop := ∀ b ∈ text, isSpace b = true

def Word (text : Bytes) : Prop := text ≠ [] ∧ ∀ b ∈ text, isSpace b = false

instance (text : Bytes) : Decidable (Gap text) :=
  decidable_of_iff (text.all isSpace = true) List.all_eq_true

instance (text : Bytes) : Decidable (Word text) :=
  decidable_of_iff (text ≠ [] ∧ text.all (fun b => !isSpace b) = true) (by simp [Word])

/-- A word cannot go on here: the text ends, or white space comes next. -/
def Boundary (text : Bytes) : Prop := ∀ b ∈ text.head?, isSpace b = true

/-- The text is these words, each as long as it can be. -/
inductive Spaced : List Bytes → Bytes → Prop
  | done {gap : Bytes} (hgap : Gap gap) : Spaced [] gap
  | word {gap w text : Bytes} {ws : List Bytes} (hgap : Gap gap) (hw : Word w)
      (hend : Boundary text) (hrest : Spaced ws text) : Spaced (w :: ws) (gap ++ (w ++ text))

theorem words_of_gap {gap : Bytes} (hgap : Gap gap) : words gap = [] := by
  simpa using words_lead hgap []

theorem Gap.boundary {gap : Bytes} (hgap : Gap gap) : Boundary gap := fun b hb =>
  hgap b (List.mem_of_mem_head? hb)

theorem Spaced.words_eq {ws : List Bytes} {text : Bytes} (h : Spaced ws text) : words text = ws := by
  induction h with
  | done hgap => exact words_of_gap hgap
  | @word gap w text ws hgap hw hend _ ih =>
    rw [words_lead hgap]
    cases text with
    | nil => rw [← ih, List.append_nil, words_of_no_space hw.2 hw.1, words_nil]
    | cons b text =>
      have hb : isSpace b = true := hend b rfl
      rw [words_append_space w text hb, words_of_no_space hw.2 hw.1, ← words_space_cons hb, ih]
      rfl

theorem boundary_dropWhile (text : Bytes) : Boundary (text.dropWhile fun b => !isSpace b) := by
  intro b hb
  have hnot := List.head?_dropWhile_not (fun b => !isSpace b) text
  rw [Option.mem_def] at hb
  simpa [hb] using hnot

theorem spaced_words (text : Bytes) : Spaced (words text) text := by
  induction hn : text.length using Nat.strong_induction_on generalizing text with
  | _ n ih =>
    have hsplit := (List.takeWhile_append_dropWhile (p := isSpace) (l := text)).symm
    have hgap : Gap (text.takeWhile isSpace) := fun b hb => List.mem_takeWhile_imp hb
    rw [← words_dropWhile]
    cases hd : text.dropWhile isSpace with
    | nil =>
      rw [hd, List.append_nil] at hsplit
      rw [words_nil, hsplit]
      exact .done hgap
    | cons b rest =>
      have hb := not_isSpace_of_dropWhile hd
      have hword : Word ((b :: rest).takeWhile fun b => !isSpace b) := by
        refine ⟨by simp [hb], fun x hx => ?_⟩
        simpa using List.mem_takeWhile_imp hx
      have hlt : ((b :: rest).dropWhile fun b => !isSpace b).length < n := by
        have h₁ := (List.dropWhile_suffix (l := text) isSpace).length_le
        have h₂ := (List.dropWhile_suffix (l := rest) fun b => !isSpace b).length_le
        rw [hd, List.length_cons] at h₁
        rw [List.dropWhile_cons_of_pos (by simp [hb])]
        omega
      have hrest := Spaced.word hgap hword (boundary_dropWhile _) (ih _ hlt _ rfl)
      rwa [List.takeWhile_append_dropWhile, ← hd, List.takeWhile_append_dropWhile, hd,
        ← words_cons hb] at hrest

theorem Spaced.length_le {ws : List Bytes} {text : Bytes} (h : Spaced ws text) :
    ws.length ≤ text.length := by
  induction h with
  | done hgap => exact Nat.zero_le _
  | word hgap hw hend _ ih =>
    have hpos := List.length_pos_iff.mpr hw.1
    rw [List.length_cons, List.length_append, List.length_append]
    omega

/-- Each word takes a byte. -/
theorem length_words_le (text : Bytes) : (words text).length ≤ text.length :=
  (spaced_words text).length_le

theorem words_eq_iff {text : Bytes} {ws : List Bytes} : words text = ws ↔ Spaced ws text :=
  ⟨fun h => h ▸ spaced_words text, Spaced.words_eq⟩

end IStream
