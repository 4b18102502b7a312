import Datalog.Saturation.Bound

/-!
# Saturation

Working off an agenda of items: the first item is registered, and the rules that it yields go to the
front of the agenda, so that whatever follows from an item is settled before the next item. The work
ends for every agenda.

## Main definitions

* `Run` — what is known, how many items were looked at and what was reported
* `saturate` — works off an agenda
-/

namespace Datalog

/-- The state of the work on an agenda. -/
structure Run where
  /-- What is known. -/
  knowledge : Knowledge
  /-- How many items were looked at. -/
  steps : Nat := 0
  /-- What was reported, in order. -/
  events : Array Event := #[]

/-- Takes the outcome of a registration over. -/
def Run.after (run : Run) (registration : Registration) : Run where
  knowledge := registration.knowledge
  steps := run.steps + 1
  events := run.events ++ registration.events

/-- Works off an agenda: registers its first item, then what the item yields in the order in which it
was yielded, then the other items. -/
def saturate (run : Run) : List Item → Run
  | [] => run
  | item :: rest =>
    let registration := run.knowledge.register item
    saturate (run.after registration) (registration.derived.map Item.rule ++ rest)
termination_by agenda => run.knowledge.remaining agenda
decreasing_by exact run.knowledge.register_decreases item rest

@[simp] theorem saturate_nil (run : Run) : saturate run [] = run := by
  rw [saturate]

theorem saturate_cons (run : Run) (item : Item) (rest : List Item) :
    saturate run (item :: rest) =
      saturate (run.after (run.knowledge.register item))
        ((run.knowledge.register item).derived.map Item.rule ++ rest) := by
  rw [saturate]

/-- An agenda is worked off from front to back. -/
theorem saturate_append (run : Run) (first second : List Item) :
    saturate run (first ++ second) = saturate (saturate run first) second := by
  fun_induction saturate run first with
  | case1 run => rfl
  | case2 run item rest registration ih =>
    rw [List.cons_append, saturate_cons, ← List.append_assoc]
    exact ih

end Datalog
