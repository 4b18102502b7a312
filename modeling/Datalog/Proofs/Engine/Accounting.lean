import Datalog.Proofs.Engine.Batches
import Datalog.Proofs.Saturation.Meetings
import Mathlib.Algebra.GroupWithZero.Nat

/-!
# What the pushes cost

All pushes together put on the stack one resolvent for each meeting of a known rule with a known fact,
no matter how the rules and facts arrived: pushed or derived, in one call or in many, the rule first or
the fact first. The steps that the pushes report are therefore accounted for by what was handed to
them and by the meetings.

## Main definitions

* `Event.steps?` — the number of steps that an event reports
* `Engine.Ledger` — what was yielded and reported since an engine was last started
* `Engine.ledgerOf` — the ledger after some calls

## Main results

* `Engine.resolved_exactly_once` — the yielded items are the resolvents of the meetings, and the steps
  are the pushed items together with the meetings
-/

namespace Datalog

/-- The number of steps that an event reports. -/
def Event.steps? : Event → Option Nat
  | .fixpoint steps _ _ => some steps
  | _ => none

theorem Event.steps?_eq_none_of_isOutcome {event : Event} (h : event.isOutcome = true) :
    event.steps? = none := by
  cases event with
  | fixpoint => simp [isOutcome, severity] at h
  | _ => rfl

namespace Engine

/-- Every call reports one number of steps. -/
theorem filterMap_steps?_apply (e : Engine) (call : Call) :
    (e.apply call).events.filterMap Event.steps? = [((call.target e).work call.items).steps] := by
  have hannouncement : call.announcement.filterMap Event.steps? = [] := by cases call <;> rfl
  have hwarnings : (call.items.filterMap warning?).filterMap Event.steps? = [] := by
    refine List.filterMap_eq_nil_iff.mpr fun event hevent => ?_
    obtain ⟨r, -, -, rfl⟩ := mem_warnings_iff.mp hevent
    rfl
  have hwork : ((call.target e).work call.items).events.toList.filterMap Event.steps? = [] :=
    List.filterMap_eq_nil_iff.mpr fun event hevent =>
      Event.steps?_eq_none_of_isOutcome (isOutcome_of_mem_work event hevent)
  simp only [apply_eq, push_events, List.filterMap_append, hannouncement, hwarnings, hwork]
  rfl

/-! ### The ledger -/

/-- An engine, with what its calls have led to since it was last started. -/
structure Ledger where
  /-- The engine. -/
  engine : Engine := empty
  /-- The items that were put on the stack. -/
  yielded : List Item := []
  /-- The numbers of steps that were reported. -/
  steps : List Nat := []

/-- The account that a call belongs to. Starting again begins a new one. -/
def Ledger.account (ledger : Ledger) : Call → Ledger
  | .restart _ => {}
  | _ => ledger

/-- Enters a call. -/
def Ledger.enter (ledger : Ledger) (call : Call) : Ledger where
  engine := (ledger.engine.apply call).engine
  yielded := (ledger.account call).yielded ++
    ((call.target ledger.engine).worklist call.items).yielded
  steps := (ledger.account call).steps ++ (ledger.engine.apply call).events.filterMap Event.steps?

/-- The ledger after some calls. -/
def ledgerOf (calls : List Call) : Ledger := calls.foldl Ledger.enter {}

theorem ledgerOf_append_singleton (calls : List Call) (call : Call) :
    ledgerOf (calls ++ [call]) = (ledgerOf calls).enter call := by
  rw [ledgerOf, List.foldl_append, List.foldl_cons, List.foldl_nil, ledgerOf]

theorem engine_ledgerOf (calls : List Call) : (ledgerOf calls).engine = empty.applyAll calls := by
  induction calls using List.reverseRecOn with
  | nil => rfl
  | append_singleton calls call ih =>
    rw [ledgerOf_append_singleton, applyAll_append_singleton, ← ih]
    rfl

/-- The ledger balances: every meeting was yielded once, and every item took one step. -/
structure Ledger.Balances (ledger : Ledger) (pushed : List Item) : Prop where
  /-- Registers and indices are in step. -/
  coherent : ledger.engine.knowledge.Coherent
  /-- What was yielded is what the meetings leave. -/
  yielded : (ledger.engine.knowledge.resolvents.map Item.rule).Perm ledger.yielded
  /-- Every item that was pushed or yielded took one step. -/
  steps : ledger.steps.sum = pushed.length + ledger.yielded.length

theorem Ledger.balances_empty : ({} : Ledger).Balances [] where
  coherent := Knowledge.coherent_empty
  yielded := List.Perm.refl _
  steps := rfl

section Push

variable {ledger : Ledger} {pushed : List Item}

theorem steps_work (e : Engine) (items : List Item) :
    (e.work items).steps = items.length + (e.worklist items).yielded.length := by
  have hsteps := Worklist.steps_saturate (e.worklist items).run items
  rw [saturate_worklist] at hsteps
  simpa [Run.resume, worklist, Worklist.start] using hsteps

/-- A push onto the engine of a ledger that balances leaves it balanced. -/
theorem Ledger.Balances.push (h : ledger.Balances pushed) (e : Engine)
    (hknowledge : e.knowledge = ledger.engine.knowledge) (items : List Item) :
    Ledger.Balances
      { engine := (e.push items).engine
        yielded := ledger.yielded ++ (e.worklist items).yielded
        steps := ledger.steps ++ [(e.work items).steps] }
      (pushed ++ items) := by
  have hcoherent : (e.worklist items).run.knowledge.Coherent := by
    rw [worklist, Worklist.start, hknowledge]
    exact h.coherent
  refine ⟨hcoherent.saturate items, ?_, ?_⟩
  · refine (Worklist.yielded_perm _ items hcoherent).trans (List.Perm.append_right _ ?_)
    rw [worklist, Worklist.start, hknowledge]
    exact h.yielded
  · simp only [List.sum_append, List.sum_singleton, List.length_append, h.steps, steps_work]
    omega

end Push

theorem Ledger.Balances.enter {ledger : Ledger} {pushed : List Item} (h : ledger.Balances pushed)
    (call : Call) : (ledger.enter call).Balances (call.extend pushed) := by
  rw [Ledger.enter, filterMap_steps?_apply, apply_eq]
  cases call with
  | restart p => exact balances_empty.push (Call.target ledger.engine (.restart p)) rfl p.items
  | pushProgram p => exact h.push (Call.target ledger.engine (.pushProgram p)) rfl p.items
  | pushRule r => exact h.push ledger.engine rfl [.rule r]
  | pushRules rs => exact h.push ledger.engine rfl (rs.map Item.rule)
  | pushFact a => exact h.push ledger.engine rfl [.fact a]
  | pushFacts as => exact h.push ledger.engine rfl (as.map Item.fact)

/-- Whatever the calls are, the ledger balances. -/
theorem balances_ledgerOf (calls : List Call) : (ledgerOf calls).Balances (pushedItems calls) := by
  induction calls using List.reverseRecOn with
  | nil => exact Ledger.balances_empty
  | append_singleton calls call ih =>
    rw [ledgerOf_append_singleton, pushedItems_append_singleton]
    exact ih.enter call

/-- Since an engine was last started, one resolvent has been put on the stack for each known rule, each
position of its body and each known fact with the predicate and the arity of the atom there that
unifies with it, and nothing else has. The numbers of steps that the calls reported add up to the number
of items that were pushed and the number of these meetings. -/
theorem resolved_exactly_once (calls : List Call) :
    let k := (empty.applyAll calls).knowledge
    (∀ r i a σ, ⟨r, i, a, σ⟩ ∈ k.meetings ↔ r ∈ k.rules ∧ a ∈ k.facts ∧
      ∃ p, r.body[i]? = some p ∧ p.signature = a.signature ∧ p.unify? a = some σ) ∧
    (k.meetings.map fun m => (m.rule, m.position, m.fact)).Nodup ∧
    (ledgerOf calls).yielded.Perm
      (k.meetings.map fun m => .rule (m.rule.resolve m.position m.bindings)) ∧
    (ledgerOf calls).steps.sum = (pushedItems calls).length + k.meetings.length := by
  intro k
  have hbalances := balances_ledgerOf calls
  have hk : (ledgerOf calls).engine.knowledge = k := by rw [engine_ledgerOf]
  have hyielded := hbalances.yielded.symm
  rw [hk, Knowledge.resolvents, List.map_map] at hyielded
  refine ⟨fun r i a σ => Knowledge.mem_meetings, Knowledge.nodup_meetings (hk ▸ hbalances.coherent),
    hyielded, ?_⟩
  rw [hbalances.steps, hyielded.length_eq, List.length_map]

end Engine

end Datalog
