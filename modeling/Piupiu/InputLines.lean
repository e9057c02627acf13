import Piupiu.CommandGrammar

/-!
# Lines of input

What becomes of a line when the user ends it: a packet, an action, an error
message, or nothing at all.
-/
namespace Piupiu

open IStream

namespace Client

end Client

namespace Console

/-- One packet was sent, with the line or with the name of the user to follow. -/
def Sends (line : Str) (c c' : Console) : Prop :=
  ∃ message, c'.client.log = c.client.log ++ [.sent c.client.serverAddress message] ∧
    (message.type = packetSendCmd ∧ message.text = cString line ∨
      message.type = packetFollowCmd ∧ ∃ username, words line = [literal "/follow", username] ∧
        message.text = cString username)

section
variable {c : Console} (now : UInt64) {arguments : List Str}

end

/-- A client that has connected, with this line typed in. -/
def typed (line : Str) : Console :=
  { (launch [] ⟨[], 0⟩).move (.connect 0 true) with userInput := line }

end Console

end Piupiu
