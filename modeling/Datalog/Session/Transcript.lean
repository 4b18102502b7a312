import Datalog.Session

/-!
# Transcripts

The whole of a session that reads its command lines from an input of bytes. A line ends with a line
feed, and a carriage return before that is not part of it; the last line may lack its end. The session
ends with the input, with the command to quit, or with a line that is not text in UTF-8. How long a
command took is not known here, so its place in the output is only marked.

## Main definitions

* `inputLines` — the lines of an input
* `lineText` — the text of a line
* `Output` — a text, or the place of a measured time
* `Transcript` — what a session writes, and how it ends
* `Session.transcript` — the transcript of a session
-/

namespace Datalog

/-- The lines of an input, each with its end. -/
def inputLines : List UInt8 → List (List UInt8)
  | [] => []
  | b :: rest =>
    if b = 10 then [b] :: inputLines rest
    else
      match inputLines rest with
      | [] => [[b]]
      | line :: more => (b :: line) :: more

/-- The text without the line feed that ends it, and without the carriage return before that. -/
def withoutEnd (text : List Char) : List Char :=
  match text.reverse with
  | '\n' :: '\r' :: rest => rest.reverse
  | '\n' :: rest => rest.reverse
  | _ => text

/-- The text of a line without its end, if it is text at all. -/
def lineText (line : List UInt8) : Option String :=
  (String.fromUTF8? ⟨line.toArray⟩).map fun text => String.ofList (withoutEnd text.toList)

/-- A part of what a session writes. -/
inductive Output where
  /-- A text. -/
  | text (s : String)
  /-- The time that the command before it took. -/
  | elapsed

/-- The line that tells how many milliseconds a command took. -/
def elapsedLine (milliseconds : String) : String :=
  "\n:: (command executed in " ++ milliseconds ++ " ms)\n"

/-- The text of a part, where a time is written as given. -/
def Output.render (milliseconds : String) : Output → String
  | text s => s
  | elapsed => elapsedLine milliseconds

/-- How a session went. -/
structure Transcript where
  /-- What it wrote. -/
  output : List Output
  /-- Whether it ended in good order. -/
  succeeded : Bool

namespace Session

/-- Reads and answers command lines until the session ends. -/
def converse (files : String → ReadOutcome) (session : Session) : List (List UInt8) → Transcript
  | [] => ⟨[.text prompt, .text "\n"], true⟩
  | line :: rest =>
    match lineText line with
    | none => ⟨[.text prompt], false⟩
    | some text =>
      let command := Command.parse text
      let reply := session.perform files command
      let timing := if command = .blank then [] else [Output.elapsed]
      let spoken := [.text prompt, .text reply.text] ++ timing
      if command = .quit then ⟨spoken, true⟩
      else
        let later := converse files reply.session rest
        ⟨spoken ++ later.output, later.succeeded⟩

/-- The transcript of a session with the given argument and input. -/
def transcript (files : String → ReadOutcome) (argument : Option String) (input : List UInt8) :
    Transcript :=
  let opening := start files argument
  let rest := converse files opening.session (inputLines input)
  ⟨.text opening.text :: rest.output, rest.succeeded⟩

end Session

end Datalog
