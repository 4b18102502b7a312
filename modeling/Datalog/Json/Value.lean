import Datalog.Json.Token

/-!
# Values of JSON

Values are read from tokens by a machine that keeps the arrays and objects around the place that it
has reached, and takes one token at a time. They are written on one line, or indented by two spaces a
level.

## Main definitions

* `Value` — a value
* `Reader`, `Reader.step` — the machine
* `Value.parse` — reads a text that holds one value
* `Value.compact`, `Value.pretty` — the two ways to write a value
-/

namespace Datalog.Json

/-- A value. Members of an object are kept as they come, so a name may occur twice. A string or name
that denotes no text has no contents here. -/
inductive Value where
  /-- The word `null`. -/
  | null
  /-- The word `true` or `false`. -/
  | bool (b : Bool)
  /-- A number, as it is written. -/
  | number (literal : String)
  /-- A string. -/
  | string (text? : Option String)
  /-- An array. -/
  | array (items : List Value)
  /-- An object. -/
  | object (members : List (Option String × Value))

/-! ### Reading -/

/-- An array or object that has been begun and not ended. What it holds so far comes last first. -/
inductive Frame where
  /-- An array with the items before the current one. -/
  | array (items : List Value)
  /-- An object with the members before the current one, whose name has been read. -/
  | object (members : List (Option String × Value)) (name : Option String)

/-- What has been reached, inside the frames around it, innermost first. -/
inductive Reader where
  /-- A value has to come. -/
  | value (frames : List Frame)
  /-- The first item of an array has to come, or the array's end. -/
  | itemOrEnd (frames : List Frame)
  /-- The first name of an object has to come, or the object's end. -/
  | nameOrEnd (frames : List Frame)
  /-- The name of the next member has to come. -/
  | nextName (members : List (Option String × Value)) (frames : List Frame)
  /-- The colon after a name has to come. -/
  | colon (members : List (Option String × Value)) (name : Option String) (frames : List Frame)
  /-- A value has been read. -/
  | after (v : Value) (frames : List Frame)

namespace Reader

/-- Takes a token where a value has to come. -/
def stepValue (frames : List Frame) : Token → Option Reader
  | .null => some (.after .null frames)
  | .bool b => some (.after (.bool b) frames)
  | .number literal => some (.after (.number literal) frames)
  | .string text? => some (.after (.string text?) frames)
  | .beginArray => some (.itemOrEnd frames)
  | .beginObject => some (.nameOrEnd frames)
  | _ => none

/-- Takes a token. -/
def step : Reader → Token → Option Reader
  | .value frames, t => stepValue frames t
  | .itemOrEnd frames, .endArray => some (.after (.array []) frames)
  | .itemOrEnd frames, t => stepValue (.array [] :: frames) t
  | .nameOrEnd frames, .endObject => some (.after (.object []) frames)
  | .nameOrEnd frames, .string name => some (.colon [] name frames)
  | .nextName members frames, .string name => some (.colon members name frames)
  | .colon members name frames, .colon => some (.value (.object members name :: frames))
  | .after v (.array items :: frames), .comma => some (.value (.array (v :: items) :: frames))
  | .after v (.array items :: frames), .endArray =>
    some (.after (.array (v :: items).reverse) frames)
  | .after v (.object members name :: frames), .comma =>
    some (.nextName ((name, v) :: members) frames)
  | .after v (.object members name :: frames), .endObject =>
    some (.after (.object ((name, v) :: members).reverse) frames)
  | _, _ => none

/-- Takes tokens one after the other. -/
def run (reader : Reader) : List Token → Option Reader
  | [] => some reader
  | t :: ts => (reader.step t).bind fun next => next.run ts

end Reader

namespace Value

/-- The value that the tokens make up. -/
def ofTokens (ts : List Token) : Option Value :=
  match (Reader.value []).run ts with
  | some (.after v []) => some v
  | _ => none

/-- Reads a text that holds exactly one value. -/
def parse (text : String) : Option Value := (Token.ofText text.toList).bind ofTokens

/-! ### Writing -/

end Value

/-- How a value is laid out. -/
inductive Layout where
  /-- On one line, without blanks. -/
  | compact
  /-- Items and members on lines of their own, inside so many levels. -/
  | indented (depth : Nat)

namespace Layout

/-- The layout inside an array or object. -/
def deeper : Layout → Layout
  | compact => compact
  | indented depth => indented (depth + 1)

/-- What stands before an item, a member, or a closing mark. -/
def lineBreak : Layout → String
  | compact => ""
  | indented depth => String.ofList ('\n' :: List.replicate (2 * depth) ' ')

/-- What stands between a name and its value. -/
def colon : Layout → String
  | compact => ":"
  | indented _ => ": "

end Layout

/-- Writes a string. One that denotes no text is written as a surrogate that stands alone. -/
def writeString : Option String → String
  | some text => quote text
  | none => "\"\\ud800\""

mutual

/-- Writes a value. -/
def Value.write (layout : Layout) : Value → String
  | .null => "null"
  | .bool true => "true"
  | .bool false => "false"
  | .number literal => literal
  | .string text? => writeString text?
  | .array [] => "[]"
  | .array (item :: items) =>
    "[" ++ layout.deeper.lineBreak ++ item.write layout.deeper ++
      writeItems layout.deeper items ++ layout.lineBreak ++ "]"
  | .object [] => "\x7b\x7d"
  | .object ((name, v) :: members) =>
    "\x7b" ++ layout.deeper.lineBreak ++ writeString name ++ layout.colon ++
      v.write layout.deeper ++ writeMembers layout.deeper members ++ layout.lineBreak ++ "\x7d"

/-- Writes the items after the first. -/
def writeItems (layout : Layout) : List Value → String
  | [] => ""
  | item :: items => "," ++ layout.lineBreak ++ item.write layout ++ writeItems layout items

/-- Writes the members after the first. -/
def writeMembers (layout : Layout) : List (Option String × Value) → String
  | [] => ""
  | (name, v) :: members =>
    "," ++ layout.lineBreak ++ writeString name ++ layout.colon ++ v.write layout ++
      writeMembers layout members

end

namespace Value

/-- Writes a value on one line. -/
def compact (v : Value) : String := v.write .compact

/-- Writes a value indented. -/
def pretty (v : Value) : String := v.write (.indented 0)

/-- The value of the member called `name`, if there is exactly one. -/
def member? (name : String) (members : List (Option String × Value)) : Option Value :=
  match members.filter fun entry => entry.1 == some name with
  | [entry] => some entry.2
  | _ => none

/-- A string with the given text. -/
def ofString (text : String) : Value := .string (some text)

/-- The text of a string. -/
def text? : Value → Option String
  | .string text? => text?
  | _ => none

/-- The items of an array. -/
def items? : Value → Option (List Value)
  | .array items => some items
  | _ => none

end Value

end Datalog.Json
