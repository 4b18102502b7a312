import Datalog.Proofs.Engine.Batches
import Datalog.Proofs.Saturation.Renaming

/-!
# No name is special

The names of predicates, variables and constants mean nothing to an engine. Whatever the calls are, the
same calls under new names lead to an engine that holds the same under new names, in the same order,
and queries under new names get the same answers under new names. A constant may be called like a
variable, or have no text at all: constants are told from variables by their kind, and nothing is put
in an order of texts.

## Main definitions

* `Engine.Call.rename` — what becomes of a call
* `Engine.Renamed` — the same engine under new names

## Main results

* `Engine.Renamed.apply`, `Engine.renamed_applyAll` — one call and its renaming, then all calls
* `Engine.applyAll_equivariant` — what the two engines have on record and answer
-/

namespace Datalog

variable {ρ : Renaming}

theorem Program.items_rename (p : Program) : (p.rename ρ).items = p.items.map (Item.rename ρ) := by
  rw [items, items, List.map_append, Item.map_rename_rules, Item.map_rename_facts]
  rfl

namespace Engine

/-- The call under new names. -/
def Call.rename (ρ : Renaming) : Call → Call
  | .restart p => .restart (p.rename ρ)
  | .pushProgram p => .pushProgram (p.rename ρ)
  | .pushRule r => .pushRule (r.rename ρ)
  | .pushRules rs => .pushRules (rs.map (Rule.rename ρ))
  | .pushFact a => .pushFact (a.rename ρ)
  | .pushFacts as => .pushFacts (as.map (Atom.rename ρ))

/-- A call under new names pushes the same items under new names. -/
theorem Call.items_rename (call : Call) : (call.rename ρ).items = call.items.map (Item.rename ρ) := by
  cases call with
  | restart p => exact p.items_rename
  | pushProgram p => exact p.items_rename
  | pushRule r => rfl
  | pushRules rs => exact (Item.map_rename_rules rs).symm
  | pushFact a => rfl
  | pushFacts as => exact (Item.map_rename_facts as).symm

/-- The second engine is the first under new names. -/
structure Renamed (ρ : Renaming) (e e' : Engine) : Prop where
  /-- The same programs are on record. -/
  program : e'.program = e.program.rename ρ
  /-- The same is known. -/
  knowledge : e.knowledge.Renamed ρ e'.knowledge

theorem renamed_empty : Renamed ρ empty empty where
  program := rfl
  knowledge := Knowledge.renamed_empty

namespace Renamed

variable {e e' : Engine}

/-- Putting a program on record, on both sides. -/
theorem record (h : Renamed ρ e e') (p : Program) :
    Renamed ρ { e with program := e.program.merge p }
      { e' with program := e'.program.merge (p.rename ρ) } where
  program := by rw [Program.rename_merge, h.program]
  knowledge := h.knowledge

theorem target (h : Renamed ρ e e') (call : Call) :
    Renamed ρ (call.target e) ((call.rename ρ).target e') := by
  cases call with
  | restart p => exact renamed_empty.record p
  | pushProgram p => exact h.record p
  | _ => exact h

theorem push (h : Renamed ρ e e') (hk : e.knowledge.Coherent) (items : List Item) :
    Renamed ρ (e.push items).engine (e'.push (items.map (Item.rename ρ))).engine := by
  rw [push_engine, push_engine]
  exact ⟨h.program, h.knowledge.saturate hk items⟩

/-- A call and its renaming have the same effect under new names. -/
theorem apply (h : Renamed ρ e e') (hk : e.knowledge.Coherent) (call : Call) :
    Renamed ρ (e.apply call).engine (e'.apply (call.rename ρ)).engine := by
  rw [apply_eq, apply_eq, Call.items_rename]
  exact (h.target call).push (coherent_target hk call) call.items

theorem answers (h : Renamed ρ e e') (hk : e.knowledge.Coherent) (query : Atom) :
    e'.answers (query.rename ρ) = (e.answers query).map (Atom.rename ρ) :=
  h.knowledge.factIndex.answers hk.isGround_of_mem_factIndex query

end Renamed

/-- The same calls under new names lead to the same engine under new names. -/
theorem renamed_applyAll (ρ : Renaming) (calls : List Call) :
    Renamed ρ (empty.applyAll calls) (empty.applyAll (calls.map (Call.rename ρ))) := by
  induction calls using List.reverseRecOn with
  | nil => exact renamed_empty
  | append_singleton calls call ih =>
    rw [List.map_append, List.map_singleton, applyAll_append_singleton, applyAll_append_singleton]
    exact ih.apply (coherent_applyAll calls) call

/-- Whatever the calls are, the same calls under new names lead to the same listing of facts, the same
answers to every query and the same program on record, all under new names and in the same order, and to
as many facts and rules. -/
theorem applyAll_equivariant (ρ : Renaming) (calls : List Call) :
    let e := empty.applyAll calls
    let e' := empty.applyAll (calls.map (Call.rename ρ))
    e'.facts = e.facts.map (Atom.rename ρ) ∧
      (∀ query, e'.answers (query.rename ρ) = (e.answers query).map (Atom.rename ρ)) ∧
      (∀ query, e'.ask (query.rename ρ) = e.ask query) ∧
      e'.factCount = e.factCount ∧ e'.ruleCount = e.ruleCount ∧
      e'.program = e.program.rename ρ := by
  intro e e'
  have h : Renamed ρ e e' := renamed_applyAll ρ calls
  have hanswers := h.answers (coherent_applyAll calls)
  refine ⟨h.knowledge.factIndex.facts, hanswers, fun query => ?_, ?_, ?_, h.program⟩
  · rw [ask, ask, hanswers, List.isEmpty_map]
  · rw [factCount, factCount, h.knowledge.facts, List.length_map]
  · rw [ruleCount, ruleCount, h.knowledge.rules, List.length_map]

/-- Constants under names like those of variables, one of which is nothing but a question mark. -/
theorem applyAll_equivariant_marked :
    let ρ := Renaming.prepend "new-" "?" "?"
    let edge (s t : Term) : Atom := ⟨"edge", [s, t]⟩
    let path (s t : Term) : Atom := ⟨"path", [s, t]⟩
    let step : Rule := ⟨path (.var "?x") (.var "?z"),
      [edge (.var "?x") (.var "?y"), path (.var "?y") (.var "?z")]⟩
    let calls : List Call := [.pushRule step,
      .pushFacts [edge (.const "a") (.const ""), path (.const "") (.const "?b")]]
    let e' := empty.applyAll (calls.map (Call.rename ρ))
    e'.facts = [⟨"new-edge", [.const "?a", .const "?"]⟩, ⟨"new-path", [.const "?", .const "??b"]⟩,
      ⟨"new-path", [.const "?a", .const "??b"]⟩] ∧
    e'.answers ⟨"new-path", [.const "?a", .var "??z"]⟩ =
      [⟨"new-path", [.const "?a", .const "??b"]⟩] := by
  intro ρ edge path step calls e'
  have hrun : ((Worklist.start { knowledge := empty.knowledge } (pushedItems calls)).after 8).map
      (fun w => (w.stack, w.run.knowledge.factIndex.facts,
        w.run.knowledge.factIndex.answers (path (.const "a") (.var "?z")))) =
      some ([], [edge (.const "a") (.const ""), path (.const "") (.const "?b"),
        path (.const "a") (.const "?b")], [path (.const "a") (.const "?b")]) := by decide
  obtain ⟨w, hafter, hw⟩ := Option.map_eq_some_iff.mp hrun
  simp only [Prod.mk.injEq] at hw
  obtain ⟨hstack, hfacts, hanswers⟩ := hw
  have hknown := knowledge_applyAll_of_after hafter hstack
  obtain ⟨hrenamed, hqueries, -⟩ := applyAll_equivariant ρ calls
  constructor
  · rw [hrenamed, facts, hknown, hfacts]
    decide
  · have hquery := hqueries (path (.const "a") (.var "?z"))
    rw [answers, answers, hknown, hanswers] at hquery
    exact hquery.trans (by decide)

end Engine

end Datalog
