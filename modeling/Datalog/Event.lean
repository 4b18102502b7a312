import Datalog.Rule

/-!
# Events

What an engine and the loading of a program report while they work. An event is data; its severity
and its wording are read off it.

## Main definitions

* `Event` — the things that are reported
* `Event.severity`, `Event.message` — how serious an event is and how it is worded
* `Event.render` — the line of a log
-/

namespace Datalog

/-- How serious an event is. -/
inductive Severity where
  /-- A detail of the work. -/
  | trace
  /-- A summary of the work. -/
  | debug
  /-- Something that the user may not have meant. -/
  | warn
  deriving DecidableEq

/-- The name of a severity at the start of a log line. -/
def Severity.label : Severity → String
  | trace => "TRACE"
  | debug => "DEBUG"
  | warn => "WARN"

/-- Something that is reported. -/
inductive Event where
  /-- A program file was read. -/
  | loaded (path : String) (rules facts : Nat)
  /-- A program is about to be pushed. -/
  | pushingProgram (rules facts : Nat)
  /-- A pushed rule has a head variable that its body lacks. -/
  | notRangeRestricted (rule : Rule)
  /-- A fact with variables was pushed or concluded, and dropped. -/
  | droppedFact (fact : Atom)
  /-- A fact became known. -/
  | newFact (fact : Atom)
  /-- A rule became known. -/
  | newRule (rule : Rule)
  /-- Nothing is left to do; so many items were looked at, and so much is known. -/
  | fixpoint (steps facts rules : Nat)
  deriving DecidableEq

namespace Event

/-- How serious an event is. -/
def severity : Event → Severity
  | newFact _ | newRule _ => .trace
  | loaded .. | pushingProgram .. | fixpoint .. => .debug
  | notRangeRestricted _ | droppedFact _ => .warn

/-- The wording of an event. -/
def message : Event → String
  | loaded path rules facts => s!"loaded {path}: {rules} rules, {facts} facts"
  | pushingProgram rules facts => s!"pushing program with {rules} rules and {facts} facts"
  | notRangeRestricted rule =>
    s!"rule `{rule.render}` is not range-restricted, evaluation may not terminate"
  | droppedFact fact => s!"dropping non-ground fact `{fact.render}`"
  | newFact fact => s!"new fact {fact.render}"
  | newRule rule => s!"new rule {rule.render}"
  | fixpoint steps facts rules =>
    s!"fixpoint reached after {steps} steps: {facts} facts, {rules} rules"

/-- The line of a log: the severity and the message. -/
def render (event : Event) : String := event.severity.label ++ " " ++ event.message

end Event

end Datalog
