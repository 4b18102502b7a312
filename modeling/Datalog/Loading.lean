import Datalog.Event
import Datalog.Grammar

/-!
# Loading programs

A program is loaded from the bytes of a file. How a file is read is not part of this: whoever loads a
program supplies the outcome of reading each path.

## Main definitions

* `ReadOutcome` — what reading a file comes to
* `LoadError` — the reasons for which a file cannot be loaded
* `Loading` — a program, or the reason for which there is none, with what was reported
* `Program.load` — loads the program at a path
-/

namespace Datalog

/-- What reading a file comes to. -/
inductive ReadOutcome where
  /-- There is no such file. -/
  | missing
  /-- There is something that cannot be read. -/
  | unreadable
  /-- The contents of the file. -/
  | contents (bytes : ByteArray)

/-- Why a file that exists cannot be loaded. -/
inductive LoadError where
  /-- It cannot be read. -/
  | unreadable (path : String)
  /-- It is not text in UTF-8. -/
  | encoding (path : String)
  /-- It is not a program. -/
  | malformed (fault : SyntaxError)
  deriving DecidableEq

/-- The wording of an error. -/
def LoadError.message : LoadError → String
  | unreadable path => s!"cannot read `{path}`"
  | encoding path => s!"`{path}` is not valid UTF-8"
  | malformed fault => fault.message

/-- The outcome of loading. -/
structure Loading where
  /-- The program, nothing if there is no file, or the reason for which it cannot be loaded. -/
  result : Except LoadError (Option Program)
  /-- What was reported. -/
  events : List Event := []

/-- The byte order mark in UTF-8. -/
def byteOrderMark : List UInt8 := [0xEF, 0xBB, 0xBF]

/-- The bytes without a byte order mark at their front. One mark is taken off and no more. -/
def withoutByteOrderMark (bytes : ByteArray) : ByteArray :=
  if (bytes.extract 0 byteOrderMark.length).data.toList = byteOrderMark then
    bytes.extract byteOrderMark.length bytes.size
  else bytes

/-- Loads the program at `path`. A file that does not exist is no error. -/
def Program.load (files : String → ReadOutcome) (path : String) : Loading :=
  match files path with
  | .missing => { result := .ok none }
  | .unreadable => { result := .error (.unreadable path) }
  | .contents bytes =>
    match String.fromUTF8? (withoutByteOrderMark bytes) with
    | none => { result := .error (.encoding path) }
    | some text =>
      match Program.parse text with
      | .error fault => { result := .error (.malformed fault) }
      | .ok program =>
        { result := .ok (some program)
          events := [.loaded path program.rules.length program.facts.length] }

end Datalog
