import Datalog.Proofs.Engine.History
import Datalog.Proofs.Saturation.Recursion

/-!
# Batches

A push works its items off on a stack, but it leaves the engine as the recursion would, which pushes
one item after the other, each with all that follows from it. The order in which facts and rules
become known is the same, the indices are the same in every branch, and so is every report of what
became of an item. It makes therefore no difference whether items are pushed in one batch or in
several.

## Main definitions

* `Event.isOutcome` — a report of what became of an item
* `Engine.Call.target` — the engine that a call pushes its items onto
* `Engine.work` — the work that a push comes to
* `Engine.Call.recorded` — the program that a call puts on record

## Main results

* `Engine.apply_eq`, `Engine.engine_apply` — every call pushes items
* `Engine.push_engine`, `Engine.push_events` — what a push does, seen from what is known alone
* `Engine.push_append`, `Engine.push_eq_foldl` — one batch, two batches, or one item at a time
* `Engine.knowledge_applyAll` — the calls count only through the items that they push
* `Engine.stack_refines_recursion` — the stack, the recursion and the batches
-/

namespace Datalog

/-- The event reports what became of an item: it is a detail of the work, or a fact was dropped. -/
def Event.isOutcome : Event → Bool
  | .droppedFact _ => true
  | event => event.severity = .trace

namespace Knowledge

theorem isOutcome_of_mem_registerFact {k : Knowledge} {a : Atom} {event : Event}
    (h : event ∈ (k.registerFact a).events) : event.isOutcome = true := by
  rw [registerFact] at h
  split at h
  · simp at h
  split at h
  · rw [List.mem_singleton.mp h]
    rfl
  · rw [List.mem_singleton.mp h]
    rfl

/-- Registering an item reports nothing but what became of it. -/
theorem isOutcome_of_mem_register {k : Knowledge} {item : Item} {event : Event}
    (h : event ∈ (k.register item).events) : event.isOutcome = true := by
  cases item with
  | fact a => exact isOutcome_of_mem_registerFact h
  | rule r =>
    rw [register, registerRule] at h
    split at h
    · exact isOutcome_of_mem_registerFact h
    split at h
    · simp at h
    · rw [List.mem_singleton.mp h]
      rfl

end Knowledge

/-- Working off an agenda adds to the reports nothing but what became of the items. -/
theorem isOutcome_of_mem_saturate (run : Run) (agenda : List Item)
    (h : ∀ event ∈ run.events, event.isOutcome = true) :
    ∀ event ∈ (saturate run agenda).events, event.isOutcome = true :=
  saturate_events_induction (P := fun _ _ => True) (fun _ _ _ _ => trivial)
    (fun _ _ _ _ _ hevent => Knowledge.isOutcome_of_mem_register hevent) trivial h

namespace Engine

/-! ### Calls -/

/-- The engine that a call pushes its items onto: a new one if it starts again, and one that has the
program on record if it pushes a program. -/
def Call.target (e : Engine) : Call → Engine
  | .restart p => { empty with program := empty.program.merge p }
  | .pushProgram p => { e with program := e.program.merge p }
  | _ => e

theorem coherent_target {e : Engine} (hk : e.knowledge.Coherent) (call : Call) :
    (call.target e).knowledge.Coherent := by
  cases call with
  | restart p => exact Knowledge.coherent_empty
  | _ => exact hk

/-- What a call reports before it pushes its items. -/
def Call.announcement : Call → List Event
  | .restart p | .pushProgram p => [.pushingProgram p.rules.length p.facts.length]
  | _ => []

/-- Every call pushes its items. -/
theorem apply_eq (e : Engine) (call : Call) :
    e.apply call =
      { engine := ((call.target e).push call.items).engine
        events := call.announcement ++ ((call.target e).push call.items).events } := by
  cases call <;> rfl

/-! ### One push -/

/-- The work that pushing items comes to. -/
def work (e : Engine) (items : List Item) : Run := saturate { knowledge := e.knowledge } items

/-- The warnings come before the work and have no influence on it. -/
theorem saturate_worklist (e : Engine) (items : List Item) :
    saturate (e.worklist items).run items = (e.worklist items).run.resume (e.work items) :=
  saturate_eq_resume _ items

theorem push_engine (e : Engine) (items : List Item) :
    (e.push items).engine = { e with knowledge := (e.work items).knowledge } := by
  have hwork := congrArg Run.knowledge (e.saturate_worklist items)
  exact congrArg (fun knowledge => { e with knowledge := knowledge }) hwork

/-- A push reports the warnings, then what became of the items, and then that it is done. -/
theorem push_events (e : Engine) (items : List Item) :
    (e.push items).events = items.filterMap warning? ++ (e.work items).events.toList ++
      [.fixpoint (e.work items).steps (e.work items).knowledge.facts.length
        (e.work items).knowledge.rules.length] := by
  have hwork := e.saturate_worklist items
  rw [worklist, Worklist.start] at hwork
  rw [push, hwork]
  simp [Run.resume]

theorem isOutcome_of_mem_work {e : Engine} {items : List Item} :
    ∀ event ∈ (e.work items).events.toList, event.isOutcome = true := by
  intro event hevent
  refine isOutcome_of_mem_saturate _ items ?_ event (Array.mem_toList_iff.mp hevent)
  simp

/-- The warnings are about the rules that are not range-restricted. -/
theorem mem_warnings_iff {items : List Item} {event : Event} :
    event ∈ items.filterMap warning? ↔
      ∃ r, .rule r ∈ items ∧ r.isRangeRestricted = false ∧ event = .notRangeRestricted r := by
  rw [List.mem_filterMap]
  constructor
  · rintro ⟨item, hitem, hwarning⟩
    cases item with
    | fact a => simp [warning?] at hwarning
    | rule r =>
      obtain ⟨hrestricted, rfl⟩ := by simpa [warning?] using hwarning
      exact ⟨r, hitem, hrestricted, rfl⟩
  · rintro ⟨r, hitem, hrestricted, rfl⟩
    exact ⟨.rule r, hitem, by simp [warning?, hrestricted]⟩

theorem filter_isOutcome_warnings (items : List Item) :
    (items.filterMap warning?).filter Event.isOutcome = [] := by
  refine List.filter_eq_nil_iff.mpr fun event hevent => ?_
  obtain ⟨r, -, -, rfl⟩ := mem_warnings_iff.mp hevent
  exact Bool.false_ne_true

/-- Of what the machine reports, the reports on the items are those that the work makes. -/
theorem filter_isOutcome_worklist (e : Engine) (items : List Item) :
    (saturate (e.worklist items).run items).events.toList.filter Event.isOutcome =
      (e.work items).events.toList := by
  rw [saturate_worklist, Run.resume, Array.toList_append, List.filter_append,
    List.filter_eq_self.mpr isOutcome_of_mem_work, worklist, Worklist.start,
    filter_isOutcome_warnings, List.nil_append]

theorem filter_isOutcome_push (e : Engine) (items : List Item) :
    (e.push items).events.filter Event.isOutcome = (e.work items).events.toList := by
  rw [push_events, List.filter_append, List.filter_append, filter_isOutcome_warnings,
    List.filter_eq_self.mpr isOutcome_of_mem_work]
  simp [Event.isOutcome, Event.severity]

/-- The work is what the recursion does. -/
theorem work_eq_pushItems (e : Engine) (items : List Item) :
    e.work items = (Run.pushItems { knowledge := e.knowledge } items).1 :=
  (Run.pushItems_eq_saturate _ items).symm

/-- The program that a call puts on record. It is empty if the call pushes no program. -/
def Call.recorded : Call → Program
  | .restart p | .pushProgram p => p
  | _ => .empty

/-- Unless it starts again, a call goes on from what is known and adds to what is on record. -/
theorem engine_apply (e : Engine) {call : Call} (hcall : ∀ p, call ≠ .restart p) :
    (e.apply call).engine =
      { program := e.program.merge call.recorded
        knowledge := (e.work call.items).knowledge } := by
  have hmerge : e.program.merge .empty = e.program := by simp [Program.merge, Program.empty]
  rw [apply_eq, push_engine]
  cases call with
  | restart p => exact absurd rfl (hcall p)
  | pushProgram p => rfl
  | _ => exact congrArg (Engine.mk · _) hmerge.symm

/-! ### Several pushes -/

/-- Pushing two batches is pushing both at once. -/
theorem push_append (e : Engine) (first second : List Item) :
    (e.push (first ++ second)).engine = ((e.push first).engine.push second).engine := by
  simp only [push_engine, work]
  rw [saturate_append, saturate_eq_resume]
  rfl

theorem knowledge_work_append (e : Engine) (first second : List Item) :
    (e.work (first ++ second)).knowledge = ((e.push first).engine.work second).knowledge := by
  have h := congrArg knowledge (e.push_append first second)
  simpa only [push_engine] using h

/-- Pushing a batch is pushing its items one at a time. -/
theorem push_eq_foldl (e : Engine) (items : List Item) :
    (e.push items).engine = items.foldl (fun e item => (e.push [item]).engine) e := by
  induction items generalizing e with
  | nil =>
    rw [push_engine, work, saturate_nil]
    rfl
  | cons item rest ih =>
    rw [← List.singleton_append, push_append, ih, List.foldl_append]
    rfl

theorem pushRules_eq_applyAll (e : Engine) (rules : List Rule) :
    (e.pushRules rules).engine = e.applyAll (rules.map .pushRule) := by
  rw [pushRules, push_eq_foldl, applyAll, List.foldl_map, List.foldl_map]
  rfl

theorem pushFacts_eq_applyAll (e : Engine) (facts : List Atom) :
    (e.pushFacts facts).engine = e.applyAll (facts.map .pushFact) := by
  rw [pushFacts, push_eq_foldl, applyAll, List.foldl_map, List.foldl_map]
  rfl

theorem applyAll_append (e : Engine) (first second : List Call) :
    e.applyAll (first ++ second) = (e.applyAll first).applyAll second :=
  List.foldl_append

/-- What is known after some calls comes from the items that were pushed since the last start, as if
they had been pushed at once. -/
theorem knowledge_applyAll (calls : List Call) :
    (empty.applyAll calls).knowledge = (empty.work (pushedItems calls)).knowledge := by
  induction calls using List.reverseRecOn with
  | nil =>
    rw [pushedItems, List.foldl_nil, work, saturate_nil]
    rfl
  | append_singleton calls call ih =>
    rw [applyAll_append_singleton, pushedItems_append_singleton, apply_eq, push_engine]
    cases call with
    | restart p => rfl
    | _ =>
      -- The call goes on from what the items before it have led to.
      rw [Call.extend, knowledge_work_append, push_engine, work, work, ← ih]
      · rfl
      · exact fun _ => Call.noConfusion

/-- What is known after some calls can be read off the machine once its stack is empty. -/
theorem knowledge_applyAll_of_after {calls : List Call} {n : Nat} {w : Worklist}
    (h : (Worklist.start { knowledge := empty.knowledge } (pushedItems calls)).after n = some w)
    (hstack : w.stack = []) : (empty.applyAll calls).knowledge = w.run.knowledge := by
  rw [knowledge_applyAll, work, ← Worklist.run_eq_of_after h hstack]

/-- Pushing a program is pushing its rules and its facts, and putting it on record. -/
theorem pushProgram_eq_applyAll (e : Engine) (p : Program) :
    (e.pushProgram p).engine =
      { e.applyAll (p.rules.map .pushRule ++ p.facts.map .pushFact) with
        program := e.program.merge p } := by
  rw [applyAll_append, ← pushRules_eq_applyAll, ← pushFacts_eq_applyAll, pushRules, pushFacts,
    ← push_append, pushProgram]
  simp only [push_engine]
  rfl

/-- The machine with the stack arrives where the recursion arrives, and a push leaves the engine
there: the same facts and rules in the same order, and the same indices, branch by branch. The reports
on the items are the same and come in the same order. Pushing two batches one after the other is
therefore pushing both at once, and pushing rules, facts or a program is pushing one at a time, but for
the record of the program. -/
theorem stack_refines_recursion (e : Engine) :
    (∀ items,
      let recursion := (Run.pushItems { knowledge := e.knowledge } items).1
      (∃ n run, (e.worklist items).after n = some ⟨run, []⟩ ∧
        run.knowledge = recursion.knowledge ∧
        run.events.toList.filter Event.isOutcome = recursion.events.toList) ∧
      (e.push items).engine = { e with knowledge := recursion.knowledge } ∧
      (e.push items).events.filter Event.isOutcome = recursion.events.toList) ∧
    (∀ first second,
      (e.push (first ++ second)).engine = ((e.push first).engine.push second).engine) ∧
    (∀ rules, (e.pushRules rules).engine = e.applyAll (rules.map .pushRule)) ∧
    (∀ facts, (e.pushFacts facts).engine = e.applyAll (facts.map .pushFact)) ∧
    ∀ p, (e.pushProgram p).engine =
      { e.applyAll (p.rules.map .pushRule ++ p.facts.map .pushFact) with
        program := e.program.merge p } := by
  refine ⟨fun items => ?_, e.push_append, e.pushRules_eq_applyAll, e.pushFacts_eq_applyAll,
    e.pushProgram_eq_applyAll⟩
  rw [← work_eq_pushItems]
  obtain ⟨n, hafter, -⟩ := Worklist.after_start (e.worklist items).run items
  have hknowledge := congrArg Run.knowledge (e.saturate_worklist items)
  exact ⟨⟨n, _, hafter, hknowledge, e.filter_isOutcome_worklist items⟩, e.push_engine items,
    e.filter_isOutcome_push items⟩

end Engine

end Datalog
