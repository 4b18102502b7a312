import Datalog.Engine
import Datalog.Proofs.Saturation.Closure
import Mathlib.Data.List.Induction

/-!
# What calls leave behind

Whatever the calls are, an engine's knowledge is a closure of the items that were pushed since it was
last started. The items are all that counts: which calls pushed them, and in which batches, only
shows in the order of the items.

## Main definitions

* `Engine.Call.items` — the items that a call pushes
* `Engine.pushedItems` — the items that are pushed since the last start

## Main results

* `Engine.isClosure_applyAll` — what is known is a closure of these items
-/

namespace Datalog

/-- The items of a program, its rules first. -/
def Program.items (p : Program) : List Item := p.rules.map Item.rule ++ p.facts.map Item.fact

namespace Engine

/-- The items that a call pushes, in order. -/
def Call.items : Call → List Item
  | .restart p => p.items
  | .pushProgram p => p.items
  | .pushRule r => [.rule r]
  | .pushRules rs => rs.map Item.rule
  | .pushFact a => [.fact a]
  | .pushFacts as => as.map Item.fact

/-- The items that count after a call, if `pushed` counted before it: starting again forgets them. -/
def Call.extend (pushed : List Item) : Call → List Item
  | .restart p => p.items
  | call => pushed ++ call.items

/-- The items that the calls push since the last start, in order. -/
def pushedItems (calls : List Call) : List Item := calls.foldl Call.extend []

theorem pushedItems_append_singleton (calls : List Call) (call : Call) :
    pushedItems (calls ++ [call]) = call.extend (pushedItems calls) := by
  rw [pushedItems, List.foldl_append, List.foldl_cons, List.foldl_nil, pushedItems]

theorem applyAll_append_singleton (e : Engine) (calls : List Call) (call : Call) :
    e.applyAll (calls ++ [call]) = ((e.applyAll calls).apply call).engine := by
  rw [applyAll, List.foldl_append, List.foldl_cons, List.foldl_nil, applyAll]

open Knowledge

variable {given : List Item} {e : Engine}

theorem isClosure_push (h : IsClosure given e.knowledge) (items : List Item) :
    IsClosure (given ++ items) (e.push items).engine.knowledge :=
  IsClosure.saturate ⟨e.knowledge, 0, _⟩ h items

theorem isClosure_pushProgram (h : IsClosure given e.knowledge) (p : Program) :
    IsClosure (given ++ p.items) (e.pushProgram p).engine.knowledge :=
  isClosure_push (e := { e with program := e.program.merge p }) h p.items

/-- A call takes a closure to a closure of what counts after it. -/
theorem isClosure_apply (h : IsClosure given e.knowledge) (call : Call) :
    IsClosure (call.extend given) (e.apply call).engine.knowledge := by
  cases call with
  | restart p => exact isClosure_pushProgram (e := empty) isClosure_empty p
  | pushProgram p => exact isClosure_pushProgram h p
  | pushRule r => exact isClosure_push h [.rule r]
  | pushRules rs => exact isClosure_push h (rs.map Item.rule)
  | pushFact a => exact isClosure_push h [.fact a]
  | pushFacts as => exact isClosure_push h (as.map Item.fact)

/-- Whatever the calls are, what is known after them is a closure of what they push. -/
theorem isClosure_applyAll (calls : List Call) :
    IsClosure (pushedItems calls) (empty.applyAll calls).knowledge := by
  induction calls using List.reverseRecOn with
  | nil => exact isClosure_empty
  | append_singleton calls call ih =>
    rw [pushedItems_append_singleton, applyAll_append_singleton]
    exact isClosure_apply ih call

theorem coherent_applyAll (calls : List Call) : (empty.applyAll calls).knowledge.Coherent :=
  (isClosure_applyAll calls).pending.coherent

end Engine

end Datalog
