import Datalog.Rule

/-!
# Programs

A program is a list of rules and a list of facts, the two things that are handed to an engine
together.

## Main definitions

* `Program` — rules and facts in the order in which they were given
* `Program.addRule`, `Program.ofRules` — adding rules, where a rule without a body becomes a fact
* `Program.merge` — appending another program
* `Program.render` — the written form, one rule or fact a line
-/

namespace Datalog

/-- Rules together with facts. -/
structure Program where
  /-- The rules. -/
  rules : List Rule := []
  /-- The facts. -/
  facts : List Atom := []
  deriving DecidableEq

namespace Program

/-- The program without rules and facts. -/
def empty : Program := {}

/-- The program has neither rules nor facts. -/
def isEmpty (p : Program) : Bool := p.rules.isEmpty && p.facts.isEmpty

/-- Adds a fact at the end. -/
def addFact (p : Program) (fact : Atom) : Program := { p with facts := p.facts ++ [fact] }

/-- Adds a rule at the end. A rule without a body is kept as the fact that it states. -/
def addRule (p : Program) (rule : Rule) : Program :=
  if rule.isFact then p.addFact rule.head else { p with rules := p.rules ++ [rule] }

/-- The program of the given rules: those with a body as rules, the others as facts, each in
order. -/
def ofRules (rules : List Rule) : Program where
  rules := rules.filter fun r => !r.isFact
  facts := (rules.filter Rule.isFact).map Rule.head

/-- Appends the rules and the facts of `q`. -/
def merge (p q : Program) : Program where
  rules := p.rules ++ q.rules
  facts := p.facts ++ q.facts

/-- The written form: every rule and then every fact on a line of its own. -/
def render (p : Program) : String :=
  "\n".intercalate (p.rules.map Rule.render ++ p.facts.map fun fact => fact.render ++ ".")

/-- Adding rules one after the other gives the program of the rules. -/
theorem foldl_addRule (p : Program) (rules : List Rule) :
    rules.foldl addRule p = p.merge (ofRules rules) := by
  induction rules generalizing p with
  | nil => simp [merge, ofRules]
  | cons r rest ih =>
    by_cases hr : r.isFact = true <;> simp [ih, addRule, addFact, merge, ofRules, hr]

end Program

end Datalog
