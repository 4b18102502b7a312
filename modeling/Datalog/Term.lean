/-!
# Terms

The arguments of atoms. A term is a variable, which stands for any constant, or a constant. Names and
constants are arbitrary texts, and the two kinds never meet: the variable `x` and the constant `x`
are different terms.

## Main definitions

* `Term` — a variable or a constant
* `Term.text` — the name or constant by itself, which is also how a term is written
-/

namespace Datalog

/-- An argument of an atom. Variables are ordered before constants, and terms of one kind by their
texts. -/
inductive Term where
  /-- A variable, named by a text that includes whatever marks it as a variable. -/
  | var (name : String)
  /-- A constant. -/
  | const (value : String)
  deriving DecidableEq, Ord

namespace Term

/-- The term is a variable. -/
def isVar : Term → Bool
  | var _ => true
  | const _ => false

/-- The name of a variable, or the constant. -/
def text : Term → String
  | var name => name
  | const value => value

/-- The written form of a term. Nothing marks the kind of a term but its own text. -/
def render (t : Term) : String := t.text

@[simp] theorem isVar_var (name : String) : (var name).isVar = true := rfl

@[simp] theorem isVar_const (value : String) : (const value).isVar = false := rfl

@[simp] theorem text_var (name : String) : (var name).text = name := rfl

@[simp] theorem text_const (value : String) : (const value).text = value := rfl

theorem isVar_eq_false_iff {t : Term} : t.isVar = false ↔ t = const t.text := by
  cases t <;> simp

end Term

end Datalog
