import Datalog.Engine
import Mathlib.Order.WellFounded

/-!
# The worklist as a machine

Saturation is defined by recursion on an agenda. Here the same work is a machine that takes one step at
a time: its stack holds the items that wait, the next one at the end, and each step takes an item off,
registers it and puts what it yields on top in reverse. Nothing about the machine says that it stops.
It does, for every engine and all items, because no infinite sequence of steps exists at all: each step
leaves less to do, where facts that are not known yet but could be count first and the rules still to
come second.

## Main definitions

* `Worklist` — the state of the machine
* `Worklist.step?` — one step
* `Worklist.after` — some steps
* `Engine.worklist` — what pushing items starts with

## Main results

* `Worklist.wellFounded_step` — there is no infinite sequence of steps
* `Engine.push_worklist_empties` — every push ends with an empty stack, in the state that it reports
-/

namespace Datalog

/-- The state of the machine. -/
structure Worklist where
  /-- What has been done. -/
  run : Run
  /-- The items that wait; the last one is next. -/
  stack : List Item

namespace Worklist

/-- All items wait, and the first one is next. -/
def start (run : Run) (items : List Item) : Worklist where
  run := run
  stack := items.reverse

/-- Takes the next item off the stack, registers it and puts what it yields on the stack, the first
rule on top. There is no step when nothing waits. -/
def step? (w : Worklist) : Option Worklist :=
  match w.stack.getLast? with
  | none => none
  | some item =>
    let registration := w.run.knowledge.register item
    some
      { run := w.run.after registration
        stack := w.stack.dropLast ++ registration.derived.reverse.map Item.rule }

/-- The state after a number of steps, if there are that many. -/
def after : Nat → Worklist → Option Worklist
  | 0, w => some w
  | n + 1, w => w.step?.bind (after n)

variable {w w' : Worklist}

theorem step?_eq_none_iff : w.step? = none ↔ w.stack = [] := by
  rw [step?, ← List.getLast?_eq_none_iff]
  cases w.stack.getLast? <;> simp

/-- The step on a stack with an item on top. -/
theorem step?_concat (run : Run) (waiting : List Item) (item : Item) :
    step? ⟨run, waiting ++ [item]⟩ =
      some ⟨run.after (run.knowledge.register item),
        waiting ++ (run.knowledge.register item).derived.reverse.map Item.rule⟩ := by
  simp [step?]

/-- In the order in which the items will be taken, a step replaces the first item by what it yields. -/
theorem step?_start_cons (run : Run) (item : Item) (rest : List Item) :
    (start run (item :: rest)).step? =
      some (start (run.after (run.knowledge.register item))
        ((run.knowledge.register item).derived.map Item.rule ++ rest)) := by
  rw [start, List.reverse_cons, step?_concat, start, List.reverse_append, List.map_reverse]

/-- Every state is one in which all items wait. -/
theorem eq_start (w : Worklist) : w = start w.run w.stack.reverse := by
  rw [start, List.reverse_reverse]

/-- What is left to do, compared facts first. -/
def remaining (w : Worklist) : Nat × Nat := w.run.knowledge.remaining w.stack.reverse

theorem remaining_start (run : Run) (items : List Item) :
    (start run items).remaining = run.knowledge.remaining items := by
  rw [remaining, start, List.reverse_reverse]

/-- Every step leaves less to do. -/
theorem remaining_less (h : w.step? = some w') : Knowledge.Less w'.remaining w.remaining := by
  obtain ⟨run, items, rfl⟩ : ∃ run items, w = start run items := ⟨_, _, w.eq_start⟩
  cases items with
  | nil => simp [step?, start] at h
  | cons item rest =>
    rw [step?_start_cons, Option.some.injEq] at h
    rw [← h, remaining_start, remaining_start]
    exact run.knowledge.register_decreases item rest

/-- There is no infinite sequence of steps, from whatever state it would start. -/
theorem wellFounded_step : WellFounded fun w' w : Worklist => w.step? = some w' :=
  Subrelation.wf (fun h => remaining_less h)
    (InvImage.wf remaining (WellFounded.prod_lex Nat.lt_wfRel.wf Nat.lt_wfRel.wf))

/-- The machine does what saturation does, in as many steps as saturation counts. -/
theorem after_start (run : Run) (items : List Item) :
    ∃ n, (start run items).after n = some ⟨saturate run items, []⟩ ∧
      (saturate run items).steps = run.steps + n := by
  fun_induction saturate run items with
  | case1 run => exact ⟨0, rfl, rfl⟩
  | case2 run item rest registration ih =>
    obtain ⟨n, hafter, hsteps⟩ := ih
    refine ⟨n + 1, ?_, ?_⟩
    · rw [after, step?_start_cons, Option.bind_some]
      exact hafter
    · rw [hsteps, Run.after, Nat.add_assoc, Nat.add_comm 1]

/-- Wherever the machine arrives with an empty stack, saturation has arrived. -/
theorem run_eq_of_after {n : Nat} {run : Run} {items : List Item}
    (h : (start run items).after n = some w) (hstack : w.stack = []) : w.run = saturate run items := by
  induction n generalizing run items with
  | zero =>
    obtain rfl := Option.some.inj h
    obtain rfl : items = [] := List.reverse_eq_nil_iff.mp hstack
    exact (saturate_nil run).symm
  | succ n ih =>
    cases items with
    | nil => simp [after, step?, start] at h
    | cons item rest =>
      rw [after, step?_start_cons, Option.bind_some] at h
      rw [saturate_cons]
      exact ih h

end Worklist

namespace Engine

/-- What pushing items onto an engine starts with: the warnings are out, and all items wait. -/
def worklist (e : Engine) (items : List Item) : Worklist :=
  .start { knowledge := e.knowledge, events := (items.filterMap warning?).toArray } items

/-- No sequence of steps is infinite. Whatever the engine knows and whatever is pushed, the machine
arrives at an empty stack, and the push leaves the engine as the machine does and reports the number of
its steps. Rules that are not range-restricted and atoms that are not ground are no exception. -/
theorem push_worklist_empties :
    (WellFounded fun w' w : Worklist => w.step? = some w') ∧
      ∀ (e : Engine) (items : List Item), ∃ n run,
        (e.worklist items).after n = some ⟨run, []⟩ ∧
        (e.push items).engine = { e with knowledge := run.knowledge } ∧
        (e.push items).events =
          run.events.toList ++ [.fixpoint n run.knowledge.facts.length run.knowledge.rules.length] := by
  refine ⟨Worklist.wellFounded_step, fun e items => ?_⟩
  obtain ⟨n, hafter, hsteps⟩ := Worklist.after_start
    { knowledge := e.knowledge, events := (items.filterMap warning?).toArray } items
  refine ⟨n, _, hafter, rfl, ?_⟩
  -- The count of steps starts at zero.
  rw [Nat.zero_add] at hsteps
  rw [push, hsteps]

end Engine

end Datalog
