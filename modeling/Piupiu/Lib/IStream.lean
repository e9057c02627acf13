import Mathlib

/-!
# Input streams

Formatted extraction from a `std::istream` whose bytes are all there from the
start: the two state bits, the skip of white space that begins every extraction,
and what an extraction does to its target when it fails. The laws compare the
stateful reads with the list of words of the text and with the list of its
pieces between delimiters.
-/
namespace IStream

abbrev Bytes := List UInt8

structure Stream where
  rest : Bytes
  eof : Bool
  fail : Bool
  deriving DecidableEq, Repr

def ofBytes (bytes : Bytes) : Stream := ⟨bytes, false, false⟩

def Stream.good (s : Stream) : Bool := !s.eof && !s.fail

/-- White space of the C locale. -/
def isSpace (b : UInt8) : Bool := b = 32 || (9 ≤ b && b ≤ 13)

/-- The skip of white space; a stream that is bad or has nothing left fails. -/
def Stream.sentry (s : Stream) : Stream :=
  if s.good then
    match s.rest.dropWhile isSpace with
    | [] => ⟨[], true, true⟩
    | b :: rest => ⟨b :: rest, false, false⟩
  else { s with fail := true }

/-- Extraction of a string: the target is untouched when the skip fails. -/
def readWord (s : Stream) (target : Bytes) : Stream × Bytes :=
  if s.sentry.good then
    let rest := s.sentry.rest.dropWhile fun b => !isSpace b
    (⟨rest, rest.isEmpty, false⟩, s.sentry.rest.takeWhile fun b => !isSpace b)
  else (s.sentry, target)

def isDigit (b : UInt8) : Bool := 48 ≤ b && b ≤ 57

def digitsValue (digits : Bytes) : Nat := digits.foldl (fun n b => 10 * n + (b.toNat - 48)) 0

/-- The limits of a 32-bit `int`. -/
def intMax : Int := 2 ^ 31 - 1
def intMin : Int := -2 ^ 31

/-- What an extracted number becomes in an `int`, and whether it fits there. -/
def toInt32 (value : Int) : Int × Bool :=
  if value < intMin then (intMin, false) else if intMax < value then (intMax, false)
  else (value, true)

/-- Extraction of an `int`: zero without digits, the nearest limit out of range,
and an untouched target when the skip fails. -/
def readInt (s : Stream) (target : Int) : Stream × Int :=
  if s.sentry.good then
    let negative := s.sentry.rest.head? = some 45
    let unsigned :=
      if negative ∨ s.sentry.rest.head? = some 43 then s.sentry.rest.tail else s.sentry.rest
    let digits := unsigned.takeWhile isDigit
    let rest := unsigned.dropWhile isDigit
    if digits = [] then (⟨rest, rest.isEmpty, true⟩, 0)
    else
      let (value, fits) := toInt32 (if negative then -digitsValue digits else digitsValue digits)
      (⟨rest, rest.isEmpty, !fits⟩, value)
  else (s.sentry, target)

/-- `std::getline`: no skip, and the delimiter is taken out of the stream. -/
def getline (s : Stream) (target : Bytes) (delimiter : UInt8) : Stream × Bytes :=
  if s.good then
    match s.rest.dropWhile (· ≠ delimiter) with
    | [] => (⟨[], true, s.rest.isEmpty⟩, s.rest)
    | _ :: rest => (⟨rest, false, false⟩, s.rest.takeWhile (· ≠ delimiter))
  else ({ s with fail := true }, target)

/-- The maximal runs of bytes that are not white space. -/
def words (text : Bytes) : List Bytes := (text.splitOnP isSpace).filter (· ≠ [])

@[simp] theorem words_nil : words [] = [] := by simp [words]

theorem words_append_space (text more : Bytes) {b : UInt8} (hb : isSpace b = true) :
    words (text ++ b :: more) = words text ++ words more := by
  simp [words, List.splitOnP_append_cons text more hb]

theorem words_space_cons {b : UInt8} (hb : isSpace b = true) (text : Bytes) :
    words (b :: text) = words text := by
  simpa using words_append_space [] text hb

theorem words_of_no_space {w : Bytes} (hw : ∀ b ∈ w, isSpace b = false) (hne : w ≠ []) :
    words w = [w] := by
  simp [words, List.splitOnP_eq_singleton hw, hne]

theorem words_lead {lead : Bytes} (hlead : ∀ b ∈ lead, isSpace b = true) (text : Bytes) :
    words (lead ++ text) = words text := by
  induction lead with
  | nil => rfl
  | cons b lead ih =>
    rw [List.cons_append, words_space_cons (hlead b List.mem_cons_self)]
    exact ih fun b' hb' => hlead b' (List.mem_cons_of_mem _ hb')

/-- A word and the white space that ends it. -/
theorem words_gap {w gap : Bytes} (hw : ∀ b ∈ w, isSpace b = false) (hne : w ≠ [])
    (hgap : ∀ b ∈ gap, isSpace b = true) (hgap' : gap ≠ []) (text : Bytes) :
    words (w ++ (gap ++ text)) = w :: words text := by
  obtain ⟨b, more, rfl⟩ := List.exists_cons_of_ne_nil hgap'
  rw [List.cons_append, words_append_space w _ (hgap b List.mem_cons_self),
    words_of_no_space hw hne, words_lead fun b' hb' => hgap b' (List.mem_cons_of_mem _ hb')]
  rfl

theorem words_dropWhile (text : Bytes) : words (text.dropWhile isSpace) = words text := by
  induction text with
  | nil => rfl
  | cons b text ih =>
    cases hb : isSpace b with
    | true => rw [List.dropWhile_cons_of_pos hb, ih, words_space_cons hb]
    | false => rw [List.dropWhile_cons_of_neg (by simp [hb])]

/-- Behind the white space that was skipped no white space comes. -/
theorem not_isSpace_of_dropWhile {text rest : Bytes} {b : UInt8}
    (hd : text.dropWhile isSpace = b :: rest) : isSpace b = false := by
  have hnot := List.head_dropWhile_not isSpace (l := text) (by simp [hd])
  simpa [hd] using hnot

/-- The first word of a text that starts inside one, and the words behind it. -/
theorem words_cons {b : UInt8} (hb : isSpace b = false) (text : Bytes) :
    words (b :: text) = (b :: text).takeWhile (fun b => !isSpace b) ::
      words ((b :: text).dropWhile fun b => !isSpace b) := by
  have hsplit := (List.takeWhile_append_dropWhile (p := fun b => !isSpace b) (l := b :: text)).symm
  have hword : ∀ x ∈ (b :: text).takeWhile (fun b => !isSpace b), isSpace x = false := fun x hx => by
    simpa using List.mem_takeWhile_imp hx
  have hne : (b :: text).takeWhile (fun b => !isSpace b) ≠ [] := by simp [hb]
  cases hrest : (b :: text).dropWhile (fun b => !isSpace b) with
  | nil =>
    rw [hrest, List.append_nil] at hsplit
    rw [← hsplit] at hword
    rw [words_nil, ← hsplit, words_of_no_space hword (by simp)]
  | cons x rest =>
    have hx : isSpace x = true := by
      have := List.head_dropWhile_not (fun b => !isSpace b) (l := b :: text) (by simp [hrest])
      simpa [hrest] using this
    rw [hrest] at hsplit
    conv_lhs => rw [hsplit]
    rw [words_append_space _ _ hx, words_of_no_space hword hne, words_space_cons hx]
    rfl

theorem ne_nil_of_mem_words {text w : Bytes} (hw : w ∈ words text) : w ≠ [] := by
  simpa using (List.mem_filter.mp hw).2

/-- The text ends with white space, so that no word runs up to its end. -/
def Closed (text : Bytes) : Prop := ∃ front b, text = front ++ [b] ∧ isSpace b = true

theorem closed_append (text : Bytes) {more : Bytes} (h : Closed more) : Closed (text ++ more) := by
  obtain ⟨front, b, rfl, hb⟩ := h
  exact ⟨text ++ front, b, by simp, hb⟩

theorem Closed.ne_nil {text : Bytes} (h : Closed text) : text ≠ [] := by
  obtain ⟨front, b, rfl, -⟩ := h
  simp

theorem Closed.of_suffix {text rest : Bytes} (h : Closed text) (hs : rest <:+ text)
    (hne : rest ≠ []) : Closed rest := by
  obtain ⟨front, b, rfl, hb⟩ := h
  obtain ⟨before, he⟩ := hs
  obtain ⟨front', b', rfl⟩ := (List.eq_nil_or_concat' rest).resolve_left hne
  rw [← List.append_assoc] at he
  obtain ⟨-, hbb⟩ := List.append_inj' he rfl
  rw [List.singleton_inj] at hbb
  exact ⟨front', b', rfl, hbb ▸ hb⟩

@[simp] theorem ofBytes_good (text : Bytes) : (ofBytes text).good = true := rfl
@[simp] theorem ofBytes_rest (text : Bytes) : (ofBytes text).rest = text := rfl

theorem sentry_bad {s : Stream} (h : s.good = false) : s.sentry = { s with fail := true } := by
  simp [Stream.sentry, h]

theorem sentry_nil {s : Stream} (hg : s.good = true) (hw : words s.rest = []) :
    s.sentry = ⟨[], true, true⟩ := by
  rw [Stream.sentry, if_pos hg]
  split
  · rfl
  · next b rest hd =>
    rw [← words_dropWhile, hd, words_cons (not_isSpace_of_dropWhile hd)] at hw
    cases hw

theorem sentry_cons {s : Stream} {w : Bytes} {ws : List Bytes} (hg : s.good = true)
    (hw : words s.rest = w :: ws) :
    ∃ b rest, s.rest.dropWhile isSpace = b :: rest ∧ isSpace b = false ∧
      s.sentry = ⟨b :: rest, false, false⟩ := by
  cases hd : s.rest.dropWhile isSpace with
  | nil =>
    rw [← words_dropWhile, hd] at hw
    cases hw
  | cons b rest =>
    refine ⟨b, rest, rfl, not_isSpace_of_dropWhile hd, ?_⟩
    rw [Stream.sentry, if_pos hg, hd]

theorem sentry_start {b : UInt8} (hb : isSpace b = false) (rest : Bytes) :
    (ofBytes (b :: rest)).sentry = ⟨b :: rest, false, false⟩ := by
  rw [Stream.sentry, if_pos (ofBytes_good _), ofBytes_rest, List.dropWhile_cons_of_neg (by simp [hb])]

/-- The skip takes from the front. -/
theorem sentry_suffix (s : Stream) : s.sentry.rest <:+ s.rest := by
  unfold Stream.sentry
  split
  · split
    · exact List.nil_suffix
    · next hd => exact hd ▸ List.dropWhile_suffix isSpace
  · exact List.suffix_rfl

theorem readWord_suffix (s : Stream) (target : Bytes) : (readWord s target).1.rest <:+ s.rest := by
  unfold readWord
  split
  · exact (List.dropWhile_suffix _).trans (sentry_suffix s)
  · exact sentry_suffix s

/-- Without a word the extraction fails at the end and keeps the old target. -/
theorem readWord_nil {s : Stream} (hg : s.good = true) (hw : words s.rest = []) (target : Bytes) :
    readWord s target = (⟨[], true, true⟩, target) := by
  simp [readWord, sentry_nil hg hw, Stream.good]

theorem readWord_bad {s : Stream} (h : s.good = false) (target : Bytes) :
    readWord s target = ({ s with fail := true }, target) := by
  simp [readWord, sentry_bad h, Stream.good]

/-- With a word left the extraction returns it, and sets `eof` only when the
word ran up to the end of the text. -/
theorem readWord_cons {s : Stream} {w : Bytes} {ws : List Bytes} (hg : s.good = true)
    (hw : words s.rest = w :: ws) (target : Bytes) :
    ∃ rest, readWord s target = (⟨rest, rest.isEmpty, false⟩, w) ∧ words rest = ws ∧
      rest.length < s.rest.length ∧ (Closed s.rest → Closed rest) := by
  obtain ⟨b, tail, hd, hb, hs⟩ := sentry_cons hg hw
  rw [← words_dropWhile, hd, words_cons hb, List.cons.injEq] at hw
  have hsuffix : b :: tail <:+ s.rest := hd ▸ List.dropWhile_suffix isSpace
  have hdrop : (b :: tail).dropWhile (fun b => !isSpace b) <:+ tail := by
    rw [List.dropWhile_cons_of_pos (by simp [hb])]
    exact List.dropWhile_suffix _
  refine ⟨(b :: tail).dropWhile fun b => !isSpace b, ?_, hw.2, ?_, fun hc => ?_⟩
  · simp only [readWord, hs, Stream.good, Bool.not_false, Bool.and_self, if_true, hw.1]
  · have h₁ := hsuffix.length_le
    have h₂ := hdrop.length_le
    rw [List.length_cons] at h₁
    omega
  · refine hc.of_suffix (hdrop.trans ((List.suffix_cons b tail).trans hsuffix)) fun hnil => ?_
    obtain ⟨front, x, hx, hspace⟩ := hc.of_suffix hsuffix (by simp)
    have hall := List.dropWhile_eq_nil_iff.mp hnil x (by simp [hx])
    simp [hspace] at hall

/-- The words that can still be extracted. -/
def Stream.unread (s : Stream) : List Bytes := if s.good then words s.rest else []

/-- With nothing to extract the target stays, and the end is met if nothing failed before. -/
theorem readWord_unread_nil {s : Stream} (h : s.unread = []) (target : Bytes) :
    ∃ s', readWord s target = (s', target) ∧ s'.unread = [] ∧ (s.fail = false → s'.eof = true) := by
  cases hg : s.good with
  | true =>
    rw [Stream.unread, if_pos hg] at h
    exact ⟨_, readWord_nil hg h target, rfl, fun _ => rfl⟩
  | false =>
    refine ⟨_, readWord_bad hg target, by simp [Stream.unread, Stream.good], fun hf => ?_⟩
    simpa [Stream.good, hf] using hg

theorem readWord_unread_cons {s : Stream} {w : Bytes} {ws : List Bytes} (h : s.unread = w :: ws)
    (target : Bytes) : ∃ rest, readWord s target = (⟨rest, rest.isEmpty, false⟩, w) ∧
      (⟨rest, rest.isEmpty, false⟩ : Stream).unread = ws ∧ rest.length < s.rest.length := by
  cases hg : s.good with
  | true =>
    rw [Stream.unread, if_pos hg] at h
    obtain ⟨rest, hr, hrest, hlt, -⟩ := readWord_cons hg h target
    refine ⟨rest, hr, ?_, hlt⟩
    cases rest with
    | nil => simpa [Stream.unread, Stream.good] using hrest
    | cons b rest => simpa [Stream.unread, Stream.good] using hrest
  | false => simp [Stream.unread, hg] at h

/-- The loop of a `std::istream_iterator<std::string>`: a word at a time until a read fails. -/
def readWords : Nat → Stream → Bytes → List Bytes
  | 0, _, _ => []
  | fuel + 1, s, target =>
    let (s, word) := readWord s target
    if s.fail then [] else word :: readWords fuel s word

/-- The iterator goes over the words that can be extracted. -/
theorem readWords_eq {fuel : Nat} {s : Stream} (hfuel : s.rest.length < fuel) (target : Bytes) :
    readWords fuel s target = s.unread := by
  induction fuel generalizing s target with
  | zero => omega
  | succ fuel ih =>
    rw [readWords]
    cases hu : s.unread with
    | nil =>
      cases hg : s.good with
      | true =>
        rw [Stream.unread, if_pos hg] at hu
        rw [readWord_nil hg hu]
        rfl
      | false =>
        rw [readWord_bad hg]
        rfl
    | cons w ws =>
      obtain ⟨rest, hr, hrest, hlt⟩ := readWord_unread_cons hu target
      have ih := ih (s := ⟨rest, rest.isEmpty, false⟩) (by simp only; omega) w
      rw [hr]
      simp only [Bool.false_eq_true, if_false, ih, hrest]

/-- A number as `operator<<` writes it. -/
def decimal (n : Nat) : Bytes := (Nat.toDigits 10 n).map fun c => UInt8.ofNat c.toNat

theorem toNat_of_mem_toDigits {n : Nat} {c : Char} (hc : c ∈ Nat.toDigits 10 n) :
    48 ≤ c.toNat ∧ c.toNat ≤ 57 := by
  have hd := Nat.isDigit_of_mem_toDigits (by decide) (by decide) hc
  simp only [Char.isDigit, Bool.and_eq_true, decide_eq_true_eq, ge_iff_le,
    UInt32.le_iff_toNat_le] at hd
  exact hd

theorem decimal_isDigit (n : Nat) : ∀ b ∈ decimal n, isDigit b = true := by
  intro b hb
  obtain ⟨c, hc, rfl⟩ := List.mem_map.mp hb
  have hd := toNat_of_mem_toDigits hc
  have hn : (UInt8.ofNat c.toNat).toNat = c.toNat := UInt8.toNat_ofNat_of_lt' (by
    simp only [UInt8.size]
    omega)
  simp only [isDigit, Bool.and_eq_true, decide_eq_true_eq, UInt8.le_iff_toNat_le, hn]
  exact hd

theorem not_mem_decimal {b : UInt8} (hb : isDigit b = false) (n : Nat) : b ∉ decimal n := by
  intro hmem
  rw [decimal_isDigit n b hmem] at hb
  cases hb

theorem isSpace_of_isDigit {b : UInt8} (hb : isDigit b = true) : isSpace b = false := by
  simp only [isDigit, Bool.and_eq_true, decide_eq_true_eq, UInt8.le_iff_toNat_le] at hb
  simp only [isSpace, Bool.or_eq_false_iff, decide_eq_false_iff_not, Bool.and_eq_false_imp,
    decide_eq_true_eq, UInt8.le_iff_toNat_le, ← UInt8.toNat_inj]
  simp only [UInt8.reduceToNat] at hb ⊢
  omega

/-- A digit is no sign. -/
theorem ne_sign_of_isDigit {b : UInt8} (hb : isDigit b = true) : b ≠ 45 ∧ b ≠ 43 := by
  constructor
  · rintro rfl
    revert hb
    decide
  · rintro rfl
    revert hb
    decide

theorem decimal_ne_nil (n : Nat) : decimal n ≠ [] := by
  simp [decimal, Nat.toDigits_ne_nil]

/-- The digits that `operator<<` writes stand for the number they came from. -/
theorem digitsValue_decimal (n : Nat) : digitsValue (decimal n) = n := by
  have hfold : ∀ (cs : List Char) (k : Nat), (∀ c ∈ cs, 48 ≤ c.toNat ∧ c.toNat ≤ 57) →
      (cs.map fun c => UInt8.ofNat c.toNat).foldl (fun n b => 10 * n + (b.toNat - 48)) k =
        Nat.ofDigitChars 10 cs k := by
    intro cs
    induction cs with
    | nil => intro k _; rfl
    | cons c cs ih =>
      intro k hcs
      have hc := hcs c List.mem_cons_self
      have hn : (UInt8.ofNat c.toNat).toNat = c.toNat := UInt8.toNat_ofNat_of_lt' (by
        simp only [UInt8.size]
        omega)
      rw [List.map_cons, List.foldl_cons, hn, Nat.ofDigitChars_cons]
      exact ih _ fun c' hc' => hcs c' (List.mem_cons_of_mem _ hc')
  rw [digitsValue, decimal, hfold _ 0 fun c hc => toNat_of_mem_toDigits hc]
  exact Nat.ofDigitChars_ten_toDigits

/-- A number that is written at the start of a text is read back when it fits
into an `int`; otherwise the read fails with the largest one. -/
theorem readInt_decimal (n : Nat) {b : UInt8} (hb : isDigit b = false) (rest : Bytes)
    (target : Int) :
    readInt (ofBytes (decimal n ++ b :: rest)) target =
      (⟨b :: rest, false, decide (intMax < n)⟩, if intMax < n then intMax else n) := by
  have htake : (decimal n ++ b :: rest).takeWhile isDigit = decimal n := by
    rw [List.takeWhile_append_of_pos (decimal_isDigit n), List.takeWhile_cons_of_neg (by simp [hb]),
      List.append_nil]
  have hdrop : (decimal n ++ b :: rest).dropWhile isDigit = b :: rest := by
    rw [List.dropWhile_append_of_pos (decimal_isDigit n), List.dropWhile_cons_of_neg (by simp [hb])]
  obtain ⟨d, ds, hd⟩ := List.exists_cons_of_ne_nil (decimal_ne_nil n)
  have hdigit : isDigit d = true := decimal_isDigit n d (by simp [hd])
  have hs : (ofBytes (decimal n ++ b :: rest)).sentry = ⟨decimal n ++ b :: rest, false, false⟩ := by
    rw [hd]
    exact sentry_start (isSpace_of_isDigit hdigit) _
  have hhead : (decimal n ++ b :: rest).head? = some d := by simp [hd]
  have hsign := ne_sign_of_isDigit hdigit
  have hmin : ¬(n : Int) < intMin := by simp only [intMin]; omega
  simp only [readInt, hs, Stream.good, Bool.not_false, Bool.and_self, if_true, hhead,
    Option.some.injEq, hsign.1, hsign.2, or_self, if_false, htake, hdrop, decimal_ne_nil,
    digitsValue_decimal, toInt32, hmin]
  by_cases hmax : intMax < (n : Int) <;> simp [hmax]

/-- Digits up to the end of the text: the read meets the end. -/
theorem readInt_digits {digits : Bytes} (hne : digits ≠ []) (hd : ∀ b ∈ digits, isDigit b = true)
    (target : Int) : readInt (ofBytes digits) target =
      (⟨[], true, decide (intMax < digitsValue digits)⟩,
        if intMax < digitsValue digits then intMax else digitsValue digits) := by
  obtain ⟨d, ds, he⟩ := List.exists_cons_of_ne_nil hne
  have hdigit : isDigit d = true := hd d (by simp [he])
  have hs : (ofBytes digits).sentry = ⟨digits, false, false⟩ := by
    rw [he]
    exact sentry_start (isSpace_of_isDigit hdigit) _
  have hhead : digits.head? = some d := by simp [he]
  have hsign := ne_sign_of_isDigit hdigit
  have hmin : ¬(digitsValue digits : Int) < intMin := by simp only [intMin]; omega
  simp only [readInt, hs, Stream.good, Bool.not_false, Bool.and_self, if_true, hhead,
    Option.some.injEq, hsign.1, hsign.2, or_self, if_false, List.takeWhile_eq_self_iff.mpr hd,
    List.dropWhile_eq_nil_iff.mpr hd, hne, toInt32, hmin, List.isEmpty_nil]
  by_cases hmax : intMax < (digitsValue digits : Int) <;> simp [hmax]

/-- A number is taken from the front as well. -/
theorem readInt_suffix (s : Stream) (target : Int) : (readInt s target).1.rest <:+ s.rest := by
  have hunsigned : (if s.sentry.rest.head? = some 45 ∨ s.sentry.rest.head? = some 43 then
      s.sentry.rest.tail else s.sentry.rest) <:+ s.rest := by
    split
    · exact (List.tail_suffix _).trans (sentry_suffix s)
    · exact sentry_suffix s
  unfold readInt
  split
  · dsimp only
    generalize (if s.sentry.rest.head? = some 45 ∨ s.sentry.rest.head? = some 43 then
      s.sentry.rest.tail else s.sentry.rest) = unsigned at hunsigned ⊢
    split
    · exact (List.dropWhile_suffix _).trans hunsigned
    · exact (List.dropWhile_suffix _).trans hunsigned
  · exact sentry_suffix s

theorem digitsValue_lt (digits : Bytes) (hd : ∀ b ∈ digits, isDigit b = true) :
    digitsValue digits < 10 ^ digits.length := by
  induction digits using List.reverseRecOn with
  | nil => exact Nat.one_pos
  | append_singleton digits b ih =>
    have hlt := ih fun b' hb' => hd b' (List.mem_append_left _ hb')
    have hb := hd b (by simp)
    simp only [isDigit, Bool.and_eq_true, decide_eq_true_eq, UInt8.le_iff_toNat_le] at hb
    simp only [UInt8.reduceToNat] at hb
    rw [digitsValue, List.foldl_append, List.length_append, List.length_singleton, Nat.pow_succ]
    simp only [List.foldl_cons, List.foldl_nil]
    simp only [digitsValue] at hlt
    omega

/-- No number but zero is written with a zero in front. -/
theorem digitsValue_pos {n : Nat} (hn : 0 < n) {digits : Bytes} (hne : digits ≠ [])
    (hstart : digits <+: decimal n) : 0 < digitsValue digits := by
  obtain ⟨more, he⟩ := hstart
  refine Nat.pos_of_ne_zero fun hzero => ?_
  have hvalue : digitsValue more = n := by
    rw [← digitsValue_decimal n, ← he]
    unfold digitsValue at hzero ⊢
    rw [List.foldl_append, hzero]
  have hdigits : ∀ b ∈ more, isDigit b = true := fun b hb =>
    decimal_isDigit n b (he ▸ List.mem_append_right digits hb)
  have hlt := hvalue ▸ digitsValue_lt more hdigits
  have hlength := congrArg List.length he
  have hpos := List.length_pos_iff.mpr hne
  rw [List.length_append, decimal, List.length_map] at hlength
  by_cases hmore : more.length = 0
  · rw [hmore] at hlt
    omega
  · have hle := (Nat.length_toDigits_le_iff (b := 10) (by decide) (Nat.pos_of_ne_zero hmore)).mpr hlt
    omega

/-- What a `long` becomes when it is out of its range, and then when it is cut to an `int`. -/
def longToInt (value : Int) : Int := (max (-2 ^ 63) (min (2 ^ 63 - 1) value)).bmod (2 ^ 32)

/-- `atoi`, by way of `strtol`: zero without digits, and no word about what follows them. -/
def atoi (text : Bytes) : Int :=
  let rest := text.dropWhile isSpace
  let negative := rest.head? = some 45
  let unsigned := if negative ∨ rest.head? = some 43 then rest.tail else rest
  let value : Int := digitsValue (unsigned.takeWhile isDigit)
  longToInt (if negative then -value else value)

theorem longToInt_of_lt {n : Nat} (h : n < 2 ^ 31) : longToInt n = n := by
  unfold longToInt
  have hmin : min (2 ^ 63 - 1) (n : Int) = n := by omega
  have hmax : max (-2 ^ 63) (n : Int) = n := by omega
  rw [hmin, hmax]
  exact Int.bmod_eq_of_le (by omega) (by omega)

/-- A number that was written comes back from `atoi` when it fits. -/
theorem atoi_decimal {n : Nat} (h : n < 2 ^ 31) : atoi (decimal n) = n := by
  obtain ⟨d, ds, he⟩ := List.exists_cons_of_ne_nil (decimal_ne_nil n)
  have hdigit : isDigit d = true := decimal_isDigit n d (by simp [he])
  have hsign := ne_sign_of_isDigit hdigit
  have hdrop : (decimal n).dropWhile isSpace = decimal n := by
    rw [he, List.dropWhile_cons_of_neg (by simp [isSpace_of_isDigit hdigit])]
  have hhead : (decimal n).head? = some d := by simp [he]
  simp only [atoi, hdrop, hhead, Option.some.injEq, hsign.1, hsign.2, or_self, if_false,
    List.takeWhile_eq_self_iff.mpr (decimal_isDigit n), digitsValue_decimal]
  exact longToInt_of_lt h

/-- The pieces between delimiters; a last piece without bytes does not count. -/
def pieces (delimiter : UInt8) : Bytes → List Bytes
  | [] => []
  | b :: rest =>
    if b = delimiter then [] :: pieces delimiter rest
    else
      match pieces delimiter rest with
      | [] => [[b]]
      | p :: ps => (b :: p) :: ps

/-- The loop that reads pieces until `getline` fails. -/
def splitFrom (delimiter : UInt8) : Nat → Stream → Bytes → List Bytes → List Bytes
  | 0, _, _, splits => splits
  | fuel + 1, s, target, splits =>
    let (s', piece) := getline s target delimiter
    if s'.fail then splits else splitFrom delimiter fuel s' piece (splits ++ [piece])

def split (text : Bytes) (delimiter : UInt8) : List Bytes :=
  splitFrom delimiter (text.length + 1) (ofBytes text) [] []

theorem pieces_cons (delimiter : UInt8) {text : Bytes} (hne : text ≠ []) :
    pieces delimiter text = text.takeWhile (· ≠ delimiter) ::
      match text.dropWhile (· ≠ delimiter) with
      | [] => []
      | _ :: rest => pieces delimiter rest := by
  induction text with
  | nil => exact absurd rfl hne
  | cons b text ih =>
    rw [pieces]
    split
    · next hb => simp [hb]
    · next hb =>
      rw [List.takeWhile_cons_of_pos (by simpa using hb),
        List.dropWhile_cons_of_pos (by simpa using hb)]
      cases text with
      | nil => rfl
      | cons b' text => rw [ih (by simp)]

theorem getline_nil {s : Stream} (hg : s.good = true) (hr : s.rest = []) (target : Bytes)
    (delimiter : UInt8) : getline s target delimiter = (⟨[], true, true⟩, []) := by
  simp [getline, hg, hr]

theorem splitFrom_pieces (delimiter : UInt8) (fuel : Nat) (s : Stream) (target : Bytes)
    (splits : List Bytes) (hg : s.good = true) (hfuel : s.rest.length < fuel) :
    splitFrom delimiter fuel s target splits = splits ++ pieces delimiter s.rest := by
  induction fuel generalizing s target splits with
  | zero => omega
  | succ fuel ih =>
    by_cases hr : s.rest = []
    · simp [splitFrom, getline_nil hg hr, hr, pieces]
    · rw [pieces_cons delimiter hr, splitFrom, getline, if_pos hg]
      have hempty : s.rest.isEmpty = false := by simpa using hr
      cases hd : s.rest.dropWhile (· ≠ delimiter) with
      | nil =>
        have hall : s.rest.takeWhile (· ≠ delimiter) = s.rest := by
          rw [List.takeWhile_eq_self_iff]
          exact List.dropWhile_eq_nil_iff.mp hd
        cases fuel with
        | zero => simpa [hempty, splitFrom] using hall.symm
        | succ fuel => simpa [hempty, splitFrom, getline, Stream.good] using hall.symm
      | cons b rest =>
        have hlen : rest.length < s.rest.length := by
          have := (List.dropWhile_suffix (· ≠ delimiter) (l := s.rest)).length_le
          rw [hd, List.length_cons] at this
          omega
        have ih := ih ⟨rest, false, false⟩ (s.rest.takeWhile (· ≠ delimiter))
          (splits ++ [s.rest.takeWhile (· ≠ delimiter)]) rfl (by simp only; omega)
        simpa using ih

/-- Reading a text piece by piece gives all its pieces. -/
theorem split_eq_pieces (text : Bytes) (delimiter : UInt8) :
    split text delimiter = pieces delimiter text := by
  rw [split, splitFrom_pieces delimiter _ _ _ _ (ofBytes_good text) (by simp), ofBytes_rest,
    List.nil_append]

theorem ne_delimiter_of_not_mem {delimiter : UInt8} {text : Bytes} (hd : delimiter ∉ text) :
    ∀ b ∈ text, decide (b ≠ delimiter) = true := by
  intro b hb
  simpa using fun he : b = delimiter => hd (he ▸ hb)

theorem pieces_of_not_mem {delimiter : UInt8} {text : Bytes} (hne : text ≠ [])
    (hd : delimiter ∉ text) : pieces delimiter text = [text] := by
  have hall := ne_delimiter_of_not_mem hd
  rw [pieces_cons delimiter hne, List.takeWhile_eq_self_iff.mpr hall,
    List.dropWhile_eq_nil_iff.mpr hall]

/-- A piece in front of a delimiter is taken off, whatever follows. -/
theorem pieces_append_cons {delimiter : UInt8} {a : Bytes} (ha : delimiter ∉ a) (rest : Bytes) :
    pieces delimiter (a ++ delimiter :: rest) = a :: pieces delimiter rest := by
  have hall := ne_delimiter_of_not_mem ha
  rw [pieces_cons delimiter (by simp), List.takeWhile_append_of_pos hall,
    List.dropWhile_append_of_pos hall]
  simp

/-- Two pieces without delimiters are taken apart where they were joined. -/
theorem pieces_append {delimiter : UInt8} {a b : Bytes} (ha : delimiter ∉ a) (hb : b ≠ [])
    (hd : delimiter ∉ b) : pieces delimiter (a ++ delimiter :: b) = [a, b] := by
  rw [pieces_append_cons ha, pieces_of_not_mem hb hd]

/-- Every text without a delimiter in front of the first one, and what is behind it. -/
theorem pieces_cases (delimiter : UInt8) (text : Bytes) :
    (delimiter ∉ text ∧ pieces delimiter text = if text = [] then [] else [text]) ∨
      ∃ a rest, text = a ++ delimiter :: rest ∧ delimiter ∉ a ∧
        pieces delimiter text = a :: pieces delimiter rest := by
  by_cases hmem : delimiter ∈ text
  · obtain ⟨a, rest, he, ha⟩ := List.eq_append_cons_of_mem hmem
    exact .inr ⟨a, rest, he, ha, by rw [he, pieces_append_cons ha]⟩
  · refine .inl ⟨hmem, ?_⟩
    split
    · next he =>
      rw [he]
      rfl
    · next he => exact pieces_of_not_mem he hmem

@[simp] theorem length_pieces_pos {delimiter : UInt8} {text : Bytes} :
    0 < (pieces delimiter text).length ↔ text ≠ [] := by
  cases text with
  | nil => simp [pieces]
  | cons b text =>
    rw [pieces_cons delimiter (List.cons_ne_nil b text)]
    simp

theorem length_pieces_append_cons (delimiter : UInt8) (a rest : Bytes) :
    (pieces delimiter rest).length < (pieces delimiter (a ++ delimiter :: rest)).length := by
  induction a with
  | nil => simp [pieces]
  | cons b a ih =>
    rw [List.cons_append, pieces]
    split
    · rw [List.length_cons]
      omega
    · split
      · next hnil => simp [hnil] at ih
      · next p ps hcons => simpa [hcons] using ih

/-- A text has more pieces than what stands behind one of its delimiters. -/
theorem succ_lt_length_pieces {delimiter : UInt8} {text : Bytes} {k : Nat} :
    k + 1 < (pieces delimiter text).length ↔
      ∃ a rest, text = a ++ delimiter :: rest ∧ k < (pieces delimiter rest).length := by
  constructor
  · intro h
    rcases pieces_cases delimiter text with ⟨-, hp⟩ | ⟨a, rest, he, -, hp⟩
    · rw [hp] at h
      split at h <;> simp at h
    · rw [hp, List.length_cons] at h
      exact ⟨a, rest, he, by omega⟩
  · rintro ⟨a, rest, rfl, hk⟩
    have hlt := length_pieces_append_cons delimiter a rest
    omega

/-- A text of pieces joined by the delimiter gives the pieces back; only a last one
without bytes would be lost. -/
theorem pieces_intercalate {delimiter : UInt8} {fields : List Bytes}
    (hd : ∀ field ∈ fields, delimiter ∉ field) (hlast : fields.getLast? ≠ some []) :
    pieces delimiter (List.intercalate [delimiter] fields) = fields := by
  induction fields with
  | nil => rfl
  | cons field fields ih =>
    cases fields with
    | nil =>
      have hne : field ≠ [] := by simpa using hlast
      simpa using pieces_of_not_mem hne (hd field List.mem_cons_self)
    | cons next fields =>
      have ih := ih (fun f hf => hd f (List.mem_cons_of_mem _ hf)) (by simpa using hlast)
      have hjoin : List.intercalate [delimiter] (field :: next :: fields) =
          field ++ delimiter :: List.intercalate [delimiter] (next :: fields) := by
        simp [List.intercalate]
      rw [hjoin, pieces_append_cons (hd field List.mem_cons_self), ih]

end IStream
