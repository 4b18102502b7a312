import Datalog.Engine
import Datalog.Json.Value

/-!
# Terms, atoms, rules and programs in JSON

A term is an object with one member, whose name tells its kind. Atoms, rules and programs are records
of two fields. A record is written as an object; it may also be read from an array of its two fields
in order. Members of other names are passed over, and a field may occur only once.

## Main definitions

* `Record` — the names of the two fields of a record
* `Term.toJson`, `Atom.toJson`, `Rule.toJson`, `Program.toJson` — what is written
* `Term.ofJson?`, `Atom.ofJson?`, `Rule.ofJson?`, `Program.ofJson?` — what is read
* `Engine.factsJson` — the known facts of an engine
-/

namespace Datalog

open Json (Value)

/-! ### Records -/

/-- The names of the two fields of a record, in order. -/
structure Json.Record where
  /-- The name of the first field. -/
  first : String
  /-- The name of the second field. -/
  second : String

namespace Json.Record

/-- A record with the given fields. -/
def write (record : Record) (a b : Value) : Value :=
  .object [(some record.first, a), (some record.second, b)]

/-- The fields of a record. All names in an object have to be texts. -/
def read? (record : Record) : Value → Option (Value × Value)
  | .array [a, b] => some (a, b)
  | .object members =>
    if members.all fun entry => entry.1.isSome then
      match Value.member? record.first members, Value.member? record.second members with
      | some a, some b => some (a, b)
      | _, _ => none
    else none
  | _ => none

end Json.Record

/-- Reads every item of an array. -/
def Json.readList? {α : Type} (read? : Value → Option α) (v : Value) : Option (List α) :=
  v.items?.bind fun items => items.mapM read?

/-- Writes an array. -/
def Json.writeList {α : Type} (write : α → Value) (items : List α) : Value :=
  .array (items.map write)

open Json (Record readList? writeList)

/-! ### Terms -/

/-- The form of a term. -/
def Term.toJson : Term → Value
  | .var name => .object [(some "Variable", .ofString name)]
  | .const value => .object [(some "Symbol", .ofString value)]

/-- Reads a term. -/
def Term.ofJson? : Value → Option Term
  | .object [(some "Variable", .string (some name))] => some (.var name)
  | .object [(some "Symbol", .string (some value))] => some (.const value)
  | _ => none

/-! ### Atoms -/

/-- The fields of an atom. -/
def Atom.record : Record := ⟨"predicate", "terms"⟩

/-- The form of an atom. -/
def Atom.toJson (a : Atom) : Value :=
  Atom.record.write (.ofString a.predicate) (writeList Term.toJson a.terms)

/-- Reads an atom. -/
def Atom.ofJson? (v : Value) : Option Atom :=
  (Atom.record.read? v).bind fun (predicate, terms) =>
    predicate.text?.bind fun predicate =>
      (readList? Term.ofJson? terms).map fun terms => { predicate, terms }

/-! ### Rules -/

/-- The fields of a rule. -/
def Rule.record : Record := ⟨"head", "body"⟩

/-- The form of a rule. -/
def Rule.toJson (r : Rule) : Value :=
  Rule.record.write r.head.toJson (writeList Atom.toJson r.body)

/-- Reads a rule. -/
def Rule.ofJson? (v : Value) : Option Rule :=
  (Rule.record.read? v).bind fun (head, body) =>
    (Atom.ofJson? head).bind fun head =>
      (readList? Atom.ofJson? body).map fun body => { head, body }

/-! ### Programs -/

/-- The fields of a program. -/
def Program.record : Record := ⟨"rules", "facts"⟩

/-- The form of a program. -/
def Program.toJson (p : Program) : Value :=
  Program.record.write (writeList Rule.toJson p.rules) (writeList Atom.toJson p.facts)

/-- Reads a program. A rule without a body stays a rule. -/
def Program.ofJson? (v : Value) : Option Program :=
  (Program.record.read? v).bind fun (rules, facts) =>
    (readList? Rule.ofJson? rules).bind fun rules =>
      (readList? Atom.ofJson? facts).map fun facts => { rules, facts }

/-! ### Engines -/

/-- The known facts as an indented array. -/
def Engine.factsJson (engine : Engine) : String := (writeList Atom.toJson engine.facts).pretty

end Datalog
