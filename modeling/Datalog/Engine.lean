import Datalog.Program
import Datalog.Saturation

/-!
# The engine

An engine keeps what follows from everything pushed so far. Each push works its items off before it
returns, so queries only look things up.

## Main definitions

* `Engine` — the pushed programs and what follows from everything pushed
* `Engine.push` — pushes items and reports on it
* `Engine.pushProgram`, `Engine.pushRule`, `Engine.pushRules`, `Engine.pushFact`, `Engine.pushFacts`,
  `Engine.ofProgram` — the ways to push
* `Engine.Call` — the ways to change an engine, as data
* `Engine.facts`, `Engine.answers`, `Engine.ask` — what is known
-/

namespace Datalog

/-- An engine: the programs it was given, and what it knows. -/
structure Engine where
  /-- The rules and facts that were pushed as programs, as they were given. -/
  program : Program := {}
  /-- What is known. -/
  knowledge : Knowledge := {}

namespace Engine

/-- The engine that nothing was pushed to. -/
def empty : Engine := {}

/-- A changed engine, and what there is to report. -/
structure Update where
  /-- The engine after the change. -/
  engine : Engine
  /-- What was reported, in order. -/
  events : List Event

/-- The warning that an item calls for before it is pushed. -/
def warning? : Item → Option Event
  | .fact _ => none
  | .rule rule => if rule.isRangeRestricted then none else some (.notRangeRestricted rule)

/-- Pushes items one after the other, each with everything that follows from it. Rules that are not
range-restricted are reported first. -/
def push (engine : Engine) (items : List Item) : Update :=
  let run := saturate
    { knowledge := engine.knowledge, events := (items.filterMap warning?).toArray } items
  { engine := { engine with knowledge := run.knowledge }
    events := run.events.toList ++
      [.fixpoint run.steps run.knowledge.facts.length run.knowledge.rules.length] }

/-- Pushes a rule. A rule without a body is pushed as a fact. -/
def pushRule (engine : Engine) (rule : Rule) : Update := engine.push [.rule rule]

/-- Pushes rules one after the other. -/
def pushRules (engine : Engine) (rules : List Rule) : Update := engine.push (rules.map Item.rule)

/-- Pushes a fact. -/
def pushFact (engine : Engine) (fact : Atom) : Update := engine.push [.fact fact]

/-- Pushes facts one after the other. -/
def pushFacts (engine : Engine) (facts : List Atom) : Update := engine.push (facts.map Item.fact)

/-- Pushes the rules and then the facts of a program, and records the program. -/
def pushProgram (engine : Engine) (program : Program) : Update :=
  let update := { engine with program := engine.program.merge program }.push
    (program.rules.map Item.rule ++ program.facts.map Item.fact)
  { update with
    events := .pushingProgram program.rules.length program.facts.length :: update.events }

/-- A new engine for a program. -/
def ofProgram (program : Program) : Update := empty.pushProgram program

/-- A change of an engine. -/
inductive Call where
  /-- Start again with a program. -/
  | restart (program : Program)
  /-- Push a program. -/
  | pushProgram (program : Program)
  /-- Push a rule. -/
  | pushRule (rule : Rule)
  /-- Push rules. -/
  | pushRules (rules : List Rule)
  /-- Push a fact. -/
  | pushFact (fact : Atom)
  /-- Push facts. -/
  | pushFacts (facts : List Atom)

/-- Carries a change out. -/
def apply (engine : Engine) : Call → Update
  | .restart program => ofProgram program
  | .pushProgram program => engine.pushProgram program
  | .pushRule rule => engine.pushRule rule
  | .pushRules rules => engine.pushRules rules
  | .pushFact fact => engine.pushFact fact
  | .pushFacts facts => engine.pushFacts facts

/-- The engine after some changes, one after the other. -/
def applyAll (engine : Engine) (calls : List Call) : Engine :=
  calls.foldl (fun engine call => (engine.apply call).engine) engine

/-- Every known fact. -/
def facts (engine : Engine) : List Atom := engine.knowledge.factIndex.facts

/-- The known facts that match the query, each once, written as the query with its variables
replaced. -/
def answers (engine : Engine) (query : Atom) : List Atom := engine.knowledge.factIndex.answers query

/-- The answers to several queries, in order. -/
def answersAll (engine : Engine) (queries : List Atom) : List (List Atom) :=
  queries.map engine.answers

/-- Some known fact matches the query. -/
def ask (engine : Engine) (query : Atom) : Bool := !(engine.answers query).isEmpty

/-- The number of known facts. -/
def factCount (engine : Engine) : Nat := engine.knowledge.facts.length

/-- The number of known rules, those that pushed rules were resolved to included. -/
def ruleCount (engine : Engine) : Nat := engine.knowledge.rules.length

end Engine

end Datalog
