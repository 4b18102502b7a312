import Datalog.Session.Transcript

/-!
# The command line

Runs a session on the terminal. The first argument, if there is one, names a program to load and build
at the beginning.
-/

namespace Datalog

/-- Reads a file. -/
def readFile (path : String) : IO ReadOutcome := do
  try
    return .contents (← IO.FS.readBinFile path)
  catch
    | .noFileOrDirectory .. => return .missing
    | _ => return .unreadable

/-- Carries a command out. Only a command to load reads a file. -/
def performWithFiles (session : Session) (command : Command) : IO Reply := do
  let outcome ← match command with
    | .load path => if path = "" then pure .missing else readFile path
    | _ => pure .missing
  return session.perform (fun _ => outcome) command

/-- A number of nanoseconds in milliseconds, rounded to three places. -/
def milliseconds (nanoseconds : Nat) : String :=
  let microseconds := (nanoseconds + 500) / 1000
  let places := toString (microseconds % 1000)
  toString (microseconds / 1000) ++ "." ++ "".pushn '0' (3 - places.length) ++ places

/-- Reads and answers command lines until the session ends. -/
partial def interact (input output : IO.FS.Stream) (session : Session) : IO UInt32 := do
  output.putStr Session.prompt
  output.flush
  let line ← try
      some <$> input.getLine
    catch _ => pure none
  match line with
  | none =>
    (← IO.getStderr).putStrLn "Error: failed to read from standard input"
    return 1
  | some "" =>
    output.putStr "\n"
    return 0
  | some line =>
    let command := Command.parse (String.ofList (withoutEnd line.toList))
    let started ← IO.monoNanosNow
    let reply ← performWithFiles session command
    output.putStr reply.text
    if command ≠ .blank then
      output.putStr (elapsedLine (milliseconds ((← IO.monoNanosNow) - started)))
    if command = .quit then
      return 0
    interact input output reply.session

/-- Runs a session on the given streams. -/
def runSession (arguments : List String) (input output : IO.FS.Stream) : IO UInt32 := do
  output.putStr Session.greeting
  let mut session := Session.empty
  for line in Session.openingLines arguments.head? do
    let reply ← performWithFiles session (Command.parse line)
    output.putStr reply.text
    session := reply.session
  interact input output session

end Datalog

/-- Runs a session on the terminal. -/
def main (arguments : List String) : IO UInt32 := do
  Datalog.runSession arguments (← IO.getStdin) (← IO.getStdout)
