import Datalog.Grammar.Phrase
import Datalog.Grammar.Position
import Datalog.Program

/-!
# The written language

Reading whole texts as terms, atoms, rules, programs and queries:

* a program is any number of rules;
* a rule is an atom, or an atom, `:-` and atoms separated by commas; a point ends it;
* an atom is a word and, in parentheses, any number of terms separated by commas;
* a term is a word, or a question mark immediately followed by a word;
* a word is one or more letters, digits and underscores of ASCII;
* a query is an atom that a point may follow.

Blanks may stand between any two of these signs, and around the text.

## Main definitions

* `Term.parse`, `Atom.parse`, `Query.parse`, `Rule.parse`, `Program.parse` — reading whole texts
-/

namespace Datalog

open Grammar

/-- Reads a text from its beginning to its end. -/
def Grammar.parseWhole {α : Type} (read : List Char → Reading α) (text : String) : Except SyntaxError α :=
  match read text.toList with
  | .ok (a, []) => .ok a
  | .ok (_, rest) => .error (.ofRest text.toList rest)
  | .error rest => .error (.ofRest text.toList rest)

/-- Reads a term, which blanks may surround. -/
def Term.parse (text : String) : Except SyntaxError Term := parseWhole (spaced readTerm) text

/-- Reads an atom. -/
def Atom.parse (text : String) : Except SyntaxError Atom := parseWhole readAtom text

/-- Reads a query: an atom, with or without a point after it. -/
def Query.parse (text : String) : Except SyntaxError Atom := parseWhole readQuery text

/-- Reads a rule. -/
def Rule.parse (text : String) : Except SyntaxError Rule := parseWhole readRule text

/-- Reads a program. Rules without a body are its facts. A text that is not a program is reported at
its first rule that cannot be read. -/
def Program.parse (text : String) : Except SyntaxError Program :=
  (parseWhole (fun s => .ok (readRules (skipBlanks s))) text).map Program.ofRules

end Datalog
