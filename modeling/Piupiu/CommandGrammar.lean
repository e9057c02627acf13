import Piupiu.Console
import Piupiu.Lib.Words

/-!
# The grammar of commands

A line is a command when its first word has a slash in front of something, and
the words behind it are the arguments.
-/
namespace Piupiu

open IStream

namespace CommandParser

/-- The words are those that the iterator over the stream gives. -/
theorem split_eq_readWords (input : Str) :
    split input = readWords (input.length + 1) (ofBytes input) [] := by
  rw [readWords_eq (by simp)]
  rfl

theorem parseCommand_eq_some {s command : Str} :
    parseCommand s = some command ↔ s = 47 :: command ∧ command ≠ [] := by
  cases s with
  | nil => simp [parseCommand]
  | cons b rest =>
    have hlength : 1 < (b :: rest).length ↔ rest ≠ [] := by
      rw [List.length_cons, ← List.length_pos_iff]
      omega
    simp only [parseCommand, hlength, List.head?_cons, Option.some.injEq, List.tail_cons,
      Option.ite_none_right_eq_some, List.cons.injEq]
    constructor
    · rintro ⟨⟨hne, rfl⟩, rfl⟩
      exact ⟨⟨rfl, rfl⟩, hne⟩
    · rintro ⟨⟨rfl, rfl⟩, hne⟩
      exact ⟨⟨hne, rfl⟩, rfl⟩

/-- The slice of the arguments stays inside of the words, also when there are none. -/
theorem slice_arguments (piece : Str) (pieces : List Str) :
    slice (piece :: pieces) 1 ((piece :: pieces).length - 1) = some pieces := by
  have hlength : ((piece :: pieces).length : Int) = pieces.length + 1 := by simp
  rw [slice, hlength, if_pos (by omega)]
  have htake : ((pieces.length : Int) + 1 - 1 - 1 + 1).toNat = pieces.length := by omega
  rw [htake]
  simp

theorem parseInput_of_command {input command : Str} {arguments : List Str} (hne : command ≠ [])
    (hwords : words input = (47 :: command) :: arguments) :
    parseInput input = some ⟨true, command, arguments⟩ := by
  have hcommand := parseCommand_eq_some.mpr ⟨rfl, hne⟩
  simp only [parseInput, split, hwords, hcommand, slice_arguments, Option.map_some]

theorem parseInput_of_text {input : Str}
    (hwords : ∀ command arguments, command ≠ [] → words input ≠ (47 :: command) :: arguments) :
    parseInput input = some .empty := by
  cases hinput : words input with
  | nil => simp only [parseInput, split, hinput]
  | cons piece pieces =>
    have hnone : parseCommand piece = none := by
      refine Option.eq_none_iff_forall_ne_some.mpr fun command hcommand => ?_
      obtain ⟨rfl, hne⟩ := parseCommand_eq_some.mp hcommand
      exact hwords command pieces hne hinput
    simp only [parseInput, split, hinput, hnone]

/-- The arguments of a line, each behind the white space that separates it. -/
def argumentsText (arguments : List (Str × Str)) : Str := arguments.flatMap fun a => a.1 ++ a.2

/-- A word, and then separated words up to white space at the end. -/
theorem words_argumentsText {w trail : Str} {arguments : List (Str × Str)} (hw : Word w)
    (harguments : ∀ a ∈ arguments, Gap a.1 ∧ a.1 ≠ [] ∧ Word a.2) (htrail : Gap trail) :
    words (w ++ (argumentsText arguments ++ trail)) = w :: arguments.map Prod.snd := by
  induction arguments generalizing w with
  | nil =>
    have hspaced := @Spaced.word [] w trail [] nofun hw htrail.boundary (.done htrail)
    simpa [argumentsText] using hspaced.words_eq
  | cons a arguments ih =>
    obtain ⟨hgap, hne, hword⟩ := harguments a List.mem_cons_self
    have ih := ih hword fun a' ha' => harguments a' (List.mem_cons_of_mem _ ha')
    rw [argumentsText, List.flatMap_cons, List.append_assoc, List.append_assoc,
      words_gap hw.2 hw.1 hgap hne, List.map_cons, ← ih]
    rfl

/-- A line matches when its first word is a slash and a command; the other words are
the arguments, however they were spaced. -/
theorem command_grammar :
    (∀ input, ∃ r, parseInput input = some r ∧
      (r.foundMatch = true ↔
        ∃ command arguments, command ≠ [] ∧ Spaced ((47 :: command) :: arguments) input) ∧
      ∀ command arguments, command ≠ [] → Spaced ((47 :: command) :: arguments) input →
        r = ⟨true, command, arguments⟩) ∧
    ∀ lead command trail arguments, Gap lead → Word command → Gap trail →
      (∀ a ∈ arguments, Gap a.1 ∧ a.1 ≠ [] ∧ Word a.2) →
      parseInput (lead ++ (47 :: command ++ (argumentsText arguments ++ trail))) =
        some ⟨true, command, arguments.map Prod.snd⟩ := by
  constructor
  · intro input
    simp only [← words_eq_iff]
    by_cases hmatch : ∃ command arguments, command ≠ [] ∧ words input = (47 :: command) :: arguments
    · obtain ⟨command, arguments, hne, hwords⟩ := hmatch
      refine ⟨_, parseInput_of_command hne hwords, ?_, ?_⟩
      · exact iff_of_true rfl ⟨command, arguments, hne, hwords⟩
      · intro command' arguments' _ hwords'
        rw [hwords] at hwords'
        cases hwords'
        rfl
    · refine ⟨.empty, parseInput_of_text fun command arguments hne hwords =>
        hmatch ⟨command, arguments, hne, hwords⟩, ?_, ?_⟩
      · exact iff_of_false Bool.false_ne_true hmatch
      · intro command arguments hne hwords
        exact absurd ⟨command, arguments, hne, hwords⟩ hmatch
  · intro lead command trail arguments hlead hcommand htrail harguments
    have hslash : Word (47 :: command) :=
      ⟨List.cons_ne_nil _ _, List.forall_mem_cons.mpr ⟨by decide, hcommand.2⟩⟩
    refine parseInput_of_command hcommand.1 ?_
    rw [words_lead hlead, words_argumentsText hslash harguments htrail]

/-- `"/a b"` has one argument. -/
theorem command_grammar_one_argument :
    parseInput [47, 97, 32, 98] = some ⟨true, [97], [[98]]⟩ :=
  command_grammar.2 [] [97] [] [([32], [98])] (by decide) (by decide) (by decide) (by decide)

end CommandParser

end Piupiu
