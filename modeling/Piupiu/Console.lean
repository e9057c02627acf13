import Piupiu.Client

/-!
# The console

The line that the user types, the parser of its commands, and what the keys do.
-/
namespace Piupiu

open IStream

/-- The bytes of a string literal. -/
def literal (text : String) : Str := text.toUTF8.data.toList

structure CommandParserResult where
  foundMatch : Bool
  command : Str
  arguments : List Str
  deriving DecidableEq

def CommandParserResult.empty : CommandParserResult := ⟨false, [], []⟩

namespace CommandParser

/-- The words between white space. -/
def split (input : Str) : List Str := words input

/-- The elements from `x` to `y`; nothing when the iterators leave the vector or the
result would have a negative size. -/
def slice {α : Type} (arr : List α) (x y : Int) : Option (List α) :=
  if 0 ≤ x ∧ x ≤ y + 1 ∧ y + 1 ≤ arr.length then
    some ((arr.drop x.toNat).take (y - x + 1).toNat)
  else none

/-- A word of at least two bytes with a slash in front. -/
def parseCommand (s : Str) : Option Str :=
  if 1 < s.length ∧ s.head? = some 47 then some s.tail else none

/-- `none` when `slice` reads outside of the words. -/
def parseInput (input : Str) : Option CommandParserResult :=
  match split input with
  | [] => some .empty
  | piece :: pieces =>
    match parseCommand piece with
    | some command => (slice (piece :: pieces) 1 ((piece :: pieces).length - 1)).map fun arguments =>
        ⟨true, command, arguments⟩
    | none => some .empty

end CommandParser

structure ConsoleMessage where
  type : MessageType
  body : Str
  timestamp : UInt64
  deriving DecidableEq

structure Console where
  client : Client
  userInput : Str
  running : Bool
  messages : List ConsoleMessage
  messageCursor : Nat
  deriving DecidableEq

namespace Console

/-- `main` with its three arguments, up to the call of `Connect`. -/
def launch (profile : Str) (serverAddress : SocketAddress) : Console :=
  ⟨.new profile serverAddress, [], true, [], 0⟩

def addMessage (c : Console) (type : MessageType) (body : Str) (timestamp : UInt64) : Console :=
  { c with messages := c.messages ++ [⟨type, body, timestamp⟩] }

/-- What the console says to a `/follow` without a single name. -/
def complaint : Str := literal "Um nome de usuário precisa ser informado"

/-- The page that `/help` shows. -/
def helpPage : Str := literal ("Comandos disponíveis:\n/follow [username]\tSegue um " ++
  "usuário\n/help\tMostra essa página de ajuda\n/exit\tSai do programa")

def handleUserInput (now : UInt64) (input : Str) (c : Console) : Console :=
  match CommandParser.parseInput input with
  | none => { c with client := c.client.record (.fault .outOfRange) }
  | some parsedCommand =>
    if parsedCommand.foundMatch then
      if parsedCommand.command = literal "follow" then
        match parsedCommand.arguments with
        | [username] => { c with client := c.client.followUser now username }
        | _ => c.addMessage .error complaint now
      else if parsedCommand.command = literal "help" then c.addMessage .info helpPage now
      else if parsedCommand.command = literal "me" then c
      else if parsedCommand.command = literal "exit" then { c with running := false }
      else c
    else { c with client := c.client.post now c.userInput }

def keyDown : Int := 258
def keyUp : Int := 259
def keyBackspace : Int := 263
def keyEnter : Int := 343

/-- What a key does; a key without a meaning of its own is cut to a byte. -/
def getUserInput (now : UInt64) (ch : Int) (c : Console) : Console :=
  if ch = keyBackspace ∨ ch = 127 then { c with userInput := c.userInput.dropLast }
  else if ch = keyEnter ∨ ch = 10 ∨ ch = 13 then
    { c.handleUserInput now c.userInput with userInput := [] }
  else if ch = 3 then { c with running := false }
  else if ch = keyUp then
    if c.messageCursor < c.messages.length then { c with messageCursor := c.messageCursor + 1 } else c
  else if ch = keyDown then { c with messageCursor := c.messageCursor - 1 }
  else { c with userInput := c.userInput ++ [UInt8.ofInt ch] }

/-- One turn of the listening thread, with the console as the message handler. -/
def listen (now : UInt64) (p : Packet) (c : Console) : Console :=
  let (client, message) := c.client.listen now p
  match message with
  | some (body, type) => { c with client := client }.addMessage type body now
  | none => { c with client := client }

/-- What can happen to a client: a key, a packet, or a call of one of its methods. -/
inductive Move where
  | key (now : UInt64) (ch : Int)
  | packet (now : UInt64) (p : Packet)
  | connect (now : UInt64) (opened : Bool)
  | connectAs (now : UInt64) (opened : Bool) (profileHandle : Str) (serverAddress : SocketAddress)
  | shutdown (now : UInt64)
  | followUser (now : UInt64) (profile : Str)
  | post (now : UInt64) (message : Str)
  | getInfo (now : UInt64)
  | setProfileHandle (profileHandle : Str)
  | setServerAddress (serverAddress : SocketAddress)

def move (c : Console) : Move → Console
  | .key now ch => if c.running then c.getUserInput now ch else c
  | .packet now p => c.listen now p
  | .connect now opened => { c with client := c.client.connect now opened }
  | .connectAs now opened profileHandle serverAddress =>
    { c with client := c.client.connectAs now opened profileHandle serverAddress }
  | .shutdown now => { c with client := c.client.shutdown now }
  | .followUser now profile => { c with client := c.client.followUser now profile }
  | .post now message => { c with client := c.client.post now message }
  | .getInfo now => { c with client := c.client.getInfo now }
  | .setProfileHandle profileHandle => { c with client := c.client.setProfileHandle profileHandle }
  | .setServerAddress serverAddress => { c with client := c.client.setServerAddress serverAddress }

def run (c : Console) (moves : List Move) : Console := moves.foldl move c

theorem run_concat (c : Console) (moves : List Move) (m : Move) :
    c.run (moves ++ [m]) = (c.run moves).move m := by
  simp [run]

end Console

end Piupiu
