import Datalog.Event
import Datalog.FactIndex
import Datalog.RuleIndex

/-!
# Knowledge

The facts and rules that are known, with the indices that bring them together. Registering a new item
resolves it against everything known so far and only then indexes it, so that each pair of a rule and
a fact meets when the later of the two arrives. What the item yields is a list of smaller rules, which
are left to the caller.

## Main definitions

* `Item` — a fact or a rule to register
* `Knowledge` — the registers of facts and rules, in order of arrival, with their indices
* `Knowledge.register` — takes an item in, if it is new
* `Registration` — what that leads to
-/

namespace Datalog

/-- Something to register. -/
inductive Item where
  /-- A fact. -/
  | fact (atom : Atom)
  /-- A rule; without a body, it states its head as a fact. -/
  | rule (rule : Rule)
  deriving DecidableEq

/-- What is known. -/
structure Knowledge where
  /-- The known facts, in order of arrival. -/
  facts : List Atom := []
  /-- The known rules with a body, in order of arrival. -/
  rules : List Rule := []
  /-- The known facts, ready to be matched. -/
  factIndex : FactIndex := {}
  /-- The bodies of the known rules, ready to be matched. -/
  ruleIndex : RuleIndex := {}

/-- What registering an item leads to. -/
structure Registration where
  /-- What is known afterwards. -/
  knowledge : Knowledge
  /-- The rules that the item yields together with what was known. -/
  derived : List Rule := []
  /-- What there is to report. -/
  events : List Event := []

namespace Knowledge

/-- Nothing is known. -/
def empty : Knowledge := {}

/-- Takes in a ground fact that is not known and yields the rules that it resolves. Known facts are
passed over in silence, and facts with variables are dropped. -/
def registerFact (k : Knowledge) (fact : Atom) : Registration :=
  if fact ∈ k.facts then
    { knowledge := k }
  else if fact.isGround then
    { knowledge := { k with facts := k.facts ++ [fact], factIndex := k.factIndex.insert fact }
      derived := k.ruleIndex.resolvents fact
      events := [.newFact fact] }
  else
    { knowledge := k, events := [.droppedFact fact] }

/-- Takes in a rule that is not known and yields what the known facts resolve it to. A rule without a
body is the fact that it states. -/
def registerRule (k : Knowledge) (rule : Rule) : Registration :=
  if rule.isFact then
    k.registerFact rule.head
  else if rule ∈ k.rules then
    { knowledge := k }
  else
    { knowledge := { k with rules := k.rules ++ [rule], ruleIndex := k.ruleIndex.insert rule }
      derived := k.factIndex.resolvents rule
      events := [.newRule rule] }

/-- Takes in a fact or a rule. -/
def register (k : Knowledge) : Item → Registration
  | .fact atom => k.registerFact atom
  | .rule rule => k.registerRule rule

end Knowledge

end Datalog
