import Piupiu.Console

/-!
# Drawing the messages

The messages fill the screen from the bottom, the newest one first, until the
lines or the messages are used up. The oldest message is never among them.
-/
namespace Piupiu

open IStream

/-- One call of `mvaddstr`, under the colour pair that is turned on. -/
structure Drawing where
  row : Int
  column : Int
  text : Str
  colorPair : Nat
  deriving DecidableEq

namespace Console

def splitString (str : Str) : List Str := split str 10

/-- The lines of a message, with the empty one that is pushed behind them. -/
def messageLines (message : ConsoleMessage) : List Str := splitString message.body ++ [[]]

/-- Only two of the types have a colour. -/
def colorPair : MessageType → Nat
  | .notification => 0
  | .error => 1
  | .info => 2

/-- The loop over the lines of a message, from the last one on; the count of the
lines is returned. -/
def drawLines (lastLine totalLines : Int) (type : MessageType) :
    Int → List Str → List Drawing × Int
  | lineCount, [] => ([], lineCount)
  | lineCount, line :: lines =>
    if lineCount < totalLines then
      let (drawings, count) := drawLines lastLine totalLines type (lineCount + 1) lines
      (⟨lastLine - lineCount, 3, cString line, colorPair type⟩ :: drawings, count)
    else ([], lineCount)

/-- The loop over the messages, which ends before index zero; nothing when it reads
outside of them. -/
def drawFrom (ctime : UInt64 → Str) (messages : List ConsoleMessage) (lastLine totalLines : Int) :
    Nat → Int → Option (List Drawing)
  | 0, _ => some []
  | currentMessageIdx + 1, lineCount =>
    if lineCount < totalLines then do
      let message ← messages[currentMessageIdx + 1]?
      let lines := messageLines message
      let timestamp : Drawing :=
        ⟨lastLine - lineCount - lines.length + 1, 30, cString (ctime message.timestamp), 3⟩
      let (drawings, lineCount) := drawLines lastLine totalLines message.type lineCount lines.reverse
      let rest ← drawFrom ctime messages lastLine totalLines currentMessageIdx lineCount
      pure (timestamp :: drawings ++ rest)
    else some []

/-- `DrawMessages` on a screen with so many lines. -/
def drawMessages (ctime : UInt64 → Str) (screenLines : Int) (c : Console) : Option (List Drawing) :=
  let firstLine : Int := 2
  let lastLine : Int := screenLines - 4
  let totalLines : Int := lastLine - firstLine
  let currentMessageIdx : Int := c.messages.length - c.messageCursor - 1
  if 0 < c.messages.length then
    drawFrom ctime c.messages lastLine totalLines currentMessageIdx.toNat 0
  else some []

/-- The rows and texts of the body lines, which start in the third column. -/
def bodyLines (drawings : List Drawing) : List (Int × Str) :=
  (drawings.filter fun d => d.column = 3).map fun d => (d.row, d.text)

/-- These lines upwards from a row. -/
def upwards (row : Int) (lines : List Str) : List (Int × Str) :=
  lines.mapIdx fun k line => (row - k, cString line)

/-- The lines of messages, the newest message and the last line first. -/
def linesBackwards (messages : List ConsoleMessage) : List Str :=
  messages.reverse.flatMap fun message => (messageLines message).reverse

/-- The messages that the cursor leaves in view. -/
def inRange (c : Console) : List ConsoleMessage :=
  c.messages.take (c.messages.length - c.messageCursor)

/-- What is drawn is what there is to see, as far as it fits. -/
def ShowsMessages (ctime : UInt64 → Str) (screenLines : Int) (c : Console) : Prop :=
  ∃ drawings, c.drawMessages ctime screenLines = some drawings ∧
    bodyLines drawings =
      upwards (screenLines - 4) ((linesBackwards c.inRange).take (screenLines - 6).toNat)

@[simp] theorem bodyLines_nil : bodyLines [] = [] := rfl

theorem bodyLines_append (a b : List Drawing) : bodyLines (a ++ b) = bodyLines a ++ bodyLines b := by
  simp [bodyLines]

@[simp] theorem upwards_nil (row : Int) : upwards row [] = [] := rfl

theorem upwards_cons (row : Int) (line : Str) (lines : List Str) :
    upwards row (line :: lines) = (row, cString line) :: upwards (row - 1) lines := by
  simp only [upwards, List.mapIdx_cons, Nat.cast_zero, sub_zero]
  congr 2
  funext k line
  congr 1
  push_cast
  omega

theorem upwards_append (row : Int) (a b : List Str) :
    upwards row (a ++ b) = upwards row a ++ upwards (row - a.length) b := by
  induction a generalizing row with
  | nil => simp
  | cons line a ih =>
    rw [List.cons_append, upwards_cons, upwards_cons, ih, List.cons_append, List.length_cons]
    congr 3
    push_cast
    omega

theorem length_upwards (row : Int) (lines : List Str) :
    (upwards row lines).length = lines.length := by
  simp [upwards]

/-- The lines of one message take what is left of the screen. -/
theorem drawLines_spec (lastLine totalLines : Int) (type : MessageType) (lineCount : Int)
    (lines : List Str) :
    bodyLines (drawLines lastLine totalLines type lineCount lines).1 =
        upwards (lastLine - lineCount) (lines.take (totalLines - lineCount).toNat) ∧
      (drawLines lastLine totalLines type lineCount lines).2 =
        lineCount + (lines.take (totalLines - lineCount).toNat).length := by
  induction lines generalizing lineCount with
  | nil => simp [drawLines]
  | cons line lines ih =>
    rw [drawLines]
    split
    · next hlt =>
      obtain ⟨hbody, hcount⟩ := ih (lineCount + 1)
      have hsucc : (totalLines - lineCount).toNat = (totalLines - (lineCount + 1)).toNat + 1 := by
        omega
      have hrow : lastLine - lineCount - 1 = lastLine - (lineCount + 1) := by omega
      rw [hsucc, List.take_succ_cons, upwards_cons, hrow, ← hbody, List.length_cons]
      refine ⟨rfl, ?_⟩
      simp only [hcount]
      push_cast
      omega
    · next hge =>
      have hzero : (totalLines - lineCount).toNat = 0 := by omega
      simp [hzero]

theorem linesBackwards_concat (messages : List ConsoleMessage) (message : ConsoleMessage) :
    linesBackwards (messages ++ [message]) =
      (messageLines message).reverse ++ linesBackwards messages := by
  simp [linesBackwards]

/-- One more index brings one more message in front. -/
theorem tail_take_succ {messages : List ConsoleMessage} {idx : Nat}
    (hidx : idx + 1 < messages.length) :
    (messages.take (idx + 1 + 1)).tail = (messages.take (idx + 1)).tail ++ [messages[idx + 1]] := by
  rw [List.take_succ_eq_append_getElem hidx, List.tail_append_of_ne_nil]
  rw [← List.length_pos_iff, List.length_take]
  omega

/-- The messages down to index one take what is left of the screen. -/
theorem drawFrom_spec (ctime : UInt64 → Str) {messages : List ConsoleMessage}
    (lastLine totalLines : Int) {idx : Nat} (hidx : idx < messages.length) (lineCount : Int) :
    ∃ drawings, drawFrom ctime messages lastLine totalLines idx lineCount = some drawings ∧
      bodyLines drawings = upwards (lastLine - lineCount)
        ((linesBackwards (messages.take (idx + 1)).tail).take (totalLines - lineCount).toNat) := by
  induction idx generalizing lineCount with
  | zero =>
    refine ⟨[], rfl, ?_⟩
    cases messages <;> simp [linesBackwards]
  | succ idx ih =>
    rw [drawFrom, tail_take_succ hidx, linesBackwards_concat]
    split
    · next hlt =>
      obtain ⟨hbody, hcount⟩ := drawLines_spec lastLine totalLines messages[idx + 1].type lineCount
        (messageLines messages[idx + 1]).reverse
      rw [List.getElem?_eq_getElem hidx, Option.bind_eq_bind, Option.bind_some]
      dsimp only
      generalize drawLines lastLine totalLines messages[idx + 1].type lineCount
        (messageLines messages[idx + 1]).reverse = drawn at hbody hcount ⊢
      obtain ⟨rest, hrest, hbodyRest⟩ := ih (by omega) drawn.2
      rw [hrest]
      refine ⟨_, rfl, ?_⟩
      have hleft : (totalLines - drawn.2).toNat =
          (totalLines - lineCount).toNat - (messageLines messages[idx + 1]).reverse.length := by
        rw [hcount, List.length_take]
        omega
      have hrow : lastLine - drawn.2 = lastLine - lineCount -
          ((messageLines messages[idx + 1]).reverse.take (totalLines - lineCount).toNat).length := by
        rw [hcount]
        omega
      rw [List.take_append, upwards_append, ← hbody, ← hrow, ← hleft, ← hbodyRest, ← bodyLines_append]
      rfl
    · next hge =>
      have hzero : (totalLines - lineCount).toNat = 0 := by omega
      exact ⟨[], rfl, by simp [hzero]⟩

theorem inRange_eq_nil_iff (c : Console) :
    c.inRange = [] ↔ c.messages.length ≤ c.messageCursor := by
  rw [inRange, List.take_eq_nil_iff, Nat.sub_eq_zero_iff_le, or_iff_left_iff_imp]
  intro h
  simp [h]

/-- What `DrawMessages` draws: the messages in range, without the oldest one of all. -/
theorem drawMessages_spec (ctime : UInt64 → Str) (screenLines : Int) (c : Console) :
    ∃ drawings, c.drawMessages ctime screenLines = some drawings ∧
      bodyLines drawings =
        upwards (screenLines - 4) ((linesBackwards c.inRange.tail).take (screenLines - 6).toNat) := by
  by_cases hrange : c.messages.length ≤ c.messageCursor
  · have hidx : ((c.messages.length : Int) - c.messageCursor - 1).toNat = 0 := by omega
    refine ⟨[], ?_, by simp [(inRange_eq_nil_iff c).mpr hrange, linesBackwards]⟩
    simp [drawMessages, hidx, drawFrom]
  · have hlt : c.messages.length - c.messageCursor - 1 < c.messages.length := by omega
    obtain ⟨drawings, hdraw, hbody⟩ :=
      drawFrom_spec ctime (screenLines - 4) (screenLines - 4 - 2) hlt 0
    have hidx : ((c.messages.length : Int) - c.messageCursor - 1).toNat =
        c.messages.length - c.messageCursor - 1 := by omega
    have hsucc : c.messages.length - c.messageCursor - 1 + 1 =
        c.messages.length - c.messageCursor := by omega
    have hheight : screenLines - 4 - 2 - 0 = screenLines - 6 := by omega
    rw [hsucc, hheight, sub_zero] at hbody
    refine ⟨drawings, ?_, hbody⟩
    rw [drawMessages, if_pos (by omega), hidx, hdraw]

theorem length_linesBackwards (messages : List ConsoleMessage) :
    (linesBackwards messages).length = (messages.flatMap messageLines).length := by
  simp [linesBackwards, List.length_flatMap]

theorem linesBackwards_cons (message : ConsoleMessage) (messages : List ConsoleMessage) :
    linesBackwards (message :: messages) =
      linesBackwards messages ++ (messageLines message).reverse := by
  simp [linesBackwards]

/-- All that there is to see is drawn when nothing is in range of the cursor, or when the
messages behind the oldest one fill the screen without it. -/
theorem showsMessages_iff (ctime : UInt64 → Str) (screenLines : Int) (c : Console) :
    c.ShowsMessages ctime screenLines ↔ c.messages.length ≤ c.messageCursor ∨
      screenLines - 6 ≤ (c.inRange.tail.flatMap messageLines).length := by
  obtain ⟨drawings, hdraw, hbody⟩ := drawMessages_spec ctime screenLines c
  have hshows : c.ShowsMessages ctime screenLines ↔
      upwards (screenLines - 4) ((linesBackwards c.inRange.tail).take (screenLines - 6).toNat) =
        upwards (screenLines - 4) ((linesBackwards c.inRange).take (screenLines - 6).toNat) := by
    rw [ShowsMessages, hdraw, ← hbody]
    simp
  rw [hshows, ← inRange_eq_nil_iff, ← length_linesBackwards]
  cases hrange : c.inRange with
  | nil => simp
  | cons oldest messages =>
    have hlines : 0 < (messageLines oldest).reverse.length := by simp [messageLines]
    rw [linesBackwards_cons, List.tail_cons]
    constructor
    · intro h
      have hlength := congrArg List.length h
      rw [length_upwards, length_upwards, List.length_take, List.length_take,
        List.length_append] at hlength
      exact .inr (by omega)
    · rintro (h | h)
      · cases h
      · rw [List.take_append_of_le_length (by omega)]

/-- The only message of a console is not drawn. -/
theorem not_showsMessages_of_one :
    ¬((launch [] ⟨[], 0⟩).addMessage .info [97] 0).ShowsMessages (fun _ => []) 24 := by
  rintro ⟨drawings, hdraw, hbody⟩
  have hnone : ((launch [] ⟨[], 0⟩).addMessage .info [97] 0).drawMessages (fun _ => []) 24 =
      some [] := by decide
  rw [hnone, Option.some.injEq] at hdraw
  rw [← hdraw] at hbody
  revert hbody
  decide

end Console

end Piupiu
