import Datalog.Text.Whitespace

/-!
# Commands

A command is a line whose first word tells what to do. The rest of the line, without the white space
around it, is what to do it with.

## Main definitions

* `Command` — the commands
* `Command.parse` — the command that a line gives
-/

namespace Datalog

/-- What there is to show. -/
inductive Subject where
  /-- The loaded program. -/
  | loaded
  /-- The inferred facts. -/
  | inferences
  /-- Nothing was named. -/
  | unnamed
  /-- Something unknown was named. -/
  | unknown
  deriving DecidableEq

/-- The subject that a word names. -/
def Subject.ofWord : String → Subject
  | "loaded" => loaded
  | "inferences" => inferences
  | "" => unnamed
  | _ => unknown

/-- A command of a session. -/
inductive Command where
  /-- An empty line. -/
  | blank
  /-- Load the program at a path. -/
  | load (path : String)
  /-- Infer what the program entails. -/
  | build
  /-- Show something. -/
  | display (subject : Subject)
  /-- Add rules and facts. -/
  | add (text : String)
  /-- Ask for facts. -/
  | query (text : String)
  /-- Explain the commands. -/
  | help
  /-- Leave the session. -/
  | quit
  /-- Anything else, with its first word. -/
  | unknown (word : String)
  deriving DecidableEq

/-- The command that a line gives. -/
def Command.parse (line : String) : Command :=
  let (word, argument) := Text.splitFirstWord (Text.trim line.toList)
  let argument := String.ofList argument
  match String.ofList word with
  | "" => blank
  | "load" => load argument
  | "build" => build
  | "show" => display (Subject.ofWord argument)
  | "add" => add argument
  | "query" => query argument
  | "help" => help
  | "quit" | "exit" => quit
  | word => unknown word

end Datalog
