/-!
# Places in a text

A place in a text is given by what remains of the text from there on. For a report it is turned into a
line, a column that counts bytes, and a short excerpt.

## Main definitions

* `Text.firstLine`, `Text.byteLength` — the first line of a text, and its length in bytes
* `SyntaxError` — the place where reading a text stopped, as it is reported
* `SyntaxError.ofRest` — the report for a place in a text
-/

namespace Datalog

/-- A place in a text that does not follow the grammar. -/
structure SyntaxError where
  /-- The line, counted from one. -/
  line : Nat
  /-- The column, counted from one in bytes of the UTF-8 encoding. -/
  column : Nat
  /-- What stands at the place. -/
  snippet : String
  deriving DecidableEq

namespace Text

/-- The text up to its first line break, which is a line feed or a carriage return with a line
feed. -/
def firstLine : List Char → List Char
  | [] => []
  | '\n' :: _ => []
  | '\r' :: '\n' :: _ => []
  | c :: rest => c :: firstLine rest

/-- The number of bytes that the characters take in UTF-8. -/
def byteLength : List Char → Nat
  | [] => 0
  | c :: rest => c.utf8Size + byteLength rest

end Text

namespace SyntaxError

/-- What is shown of the text at a place: at most 24 characters of its first line. -/
def excerpt (rest : List Char) : String :=
  match (Text.firstLine rest).take 24 with
  | [] => "end of input"
  | shown => String.ofList shown

/-- The report for the place where `rest` is what remains after `consumed`. -/
def after (consumed rest : List Char) : SyntaxError where
  line := consumed.count '\n' + 1
  column := Text.byteLength (consumed.reverse.takeWhile (· ≠ '\n')) + 1
  snippet := excerpt rest

/-- The report for the place where `rest` is what remains of `text`. -/
def ofRest (text rest : List Char) : SyntaxError :=
  after (text.take (text.length - rest.length)) rest

/-- The wording of a report. -/
def message (e : SyntaxError) : String :=
  s!"syntax error at line {e.line}, column {e.column}: unexpected `{e.snippet}`"

theorem ofRest_append (consumed rest : List Char) :
    ofRest (consumed ++ rest) rest = after consumed rest := by
  simp [ofRest]

end SyntaxError

end Datalog
