import Datalog.Proofs.Engine.Batches

/-!
# Pushing what is known already

An engine that is pushed what it knows stays as it is. That does not only hold for items that were
pushed before: a fact that follows from them is known although nobody pushed it, the rules that they
were resolved to are known as well, and atoms with variables are never taken in. Nothing of this
yields anything, so a whole batch leaves every register and every branch of the indices alone. Only
the record of pushed programs grows.

## Main definitions

* `Item.IsOld` — an item that brings nothing new

## Main results

* `Knowledge.Outcome.of_settled` — registering a settled item changes nothing and yields nothing
* `knowledge_saturate_of_settled` — so does working off an agenda of them
* `Engine.push_old_changes_nothing` — a push of old items leaves the engine as it is
-/

namespace Datalog

/-! ### Settled items -/

namespace Knowledge

/-- Registering a settled item changes nothing and yields nothing. -/
theorem Outcome.of_settled {k k' : Knowledge} {item : Item} {derived : List Rule}
    (h : Outcome k item k' derived) (hsettled : item.Settled k) : k' = k ∧ derived = [] := by
  cases h with
  | settled => exact ⟨rfl, rfl⟩
  | newFact a hstatement hground hnew => exact absurd (hsettled.fact a hstatement hground) hnew
  | newRule r hitem hbody hnew => exact absurd (hsettled.rule r hitem hbody) hnew

end Knowledge

/-- Working off settled items changes nothing. -/
theorem knowledge_saturate_of_settled {run : Run} {items : List Item}
    (h : ∀ item ∈ items, item.Settled run.knowledge) :
    (saturate run items).knowledge = run.knowledge := by
  induction items generalizing run with
  | nil => rw [saturate_nil]
  | cons item rest ih =>
    obtain ⟨hsettled, hrest⟩ := List.forall_mem_cons.mp h
    obtain ⟨hknowledge, hderived⟩ := (run.knowledge.register_cases item).of_settled hsettled
    have hafter : (run.after (run.knowledge.register item)).knowledge = run.knowledge := hknowledge
    rw [saturate_cons, hderived, List.map_nil, List.nil_append, ih (hafter.symm ▸ hrest), hafter]

/-! ### Old items -/

/-- The item brings nothing new where the items `given` were pushed and the rules `known` are known. -/
inductive Item.IsOld (given : List Item) (known : List Rule) : Item → Prop where
  /-- The item states a fact of the least model, as a fact or as a rule without a body. -/
  | entailed {item : Item} {a : Atom} {M : Set Atom}
      (hM : IsLeast {M | IsModel (statedFacts given) (properRules given) M} M) (ha : a ∈ M)
      (hstatement : item.statement? = some a) : IsOld given known item
  /-- The item states an atom with a variable, which is no fact. -/
  | notGround {item : Item} {a : Atom} (ha : a.isGround = false)
      (hstatement : item.statement? = some a) : IsOld given known item
  /-- The rule was pushed before. -/
  | pushed {r : Rule} (hr : .rule r ∈ given) : IsOld given known (.rule r)
  /-- The rule is known, as a pushed rule or as what one was resolved to. -/
  | known {r : Rule} (hr : r ∈ known) : IsOld given known (.rule r)

/-- In a closure, every old item is settled. -/
theorem Knowledge.IsClosure.settled_of_isOld {given : List Item} {k : Knowledge} {item : Item}
    (h : IsClosure given k) (hitem : item.IsOld given k.rules) : item.Settled k := by
  cases hitem with
  -- The known facts are a model, so the least one has no more than they.
  | entailed hM ha hstatement =>
    exact Item.settled_of_statement hstatement fun _ => hM.2 h.isModel ha
  | notGround ha hstatement =>
    exact Item.settled_of_statement hstatement fun hground => by simp [ha] at hground
  | pushed hr => exact (h.pending.given _ hr).resolve_right List.not_mem_nil
  | known hr => exact Item.settled_of_mem_rules (h.pending.coherent.body_ne_nil _ hr) hr

namespace Engine

variable {calls : List Call}

/-- Old items leave what is known as it is. -/
theorem knowledge_work_of_isOld {items : List Item}
    (h : ∀ item ∈ items,
      item.IsOld (pushedItems calls) (empty.applyAll calls).knowledge.rules) :
    ((empty.applyAll calls).work items).knowledge = (empty.applyAll calls).knowledge :=
  knowledge_saturate_of_settled fun item hitem =>
    (isClosure_applyAll calls).settled_of_isOld (h item hitem)

/-- **Pushing what is known already changes nothing.** After any calls, a further one that pushes old
items only leaves the engine as it was, but for the record of a pushed program: the facts and the rules
are those before, in the same order, and so are the indices, branch by branch. Hence every listing,
every count and every answer is the same, also as a list. -/
theorem push_old_changes_nothing (calls : List Call) (call : Call) (hcall : ∀ p, call ≠ .restart p)
    (hold : ∀ item ∈ call.items,
      item.IsOld (pushedItems calls) (empty.applyAll calls).knowledge.rules) :
    let e := empty.applyAll calls
    let e' := (e.apply call).engine
    e' = { e with program := e.program.merge call.recorded } ∧
      e'.knowledge = e.knowledge ∧ e'.facts = e.facts ∧ e'.factCount = e.factCount ∧
      e'.ruleCount = e.ruleCount ∧
      ∀ query, e'.answers query = e.answers query ∧ e'.ask query = e.ask query := by
  intro e e'
  have hengine : e' = { e with program := e.program.merge call.recorded } := by
    exact (engine_apply e hcall).trans (congrArg (Engine.mk _) (knowledge_work_of_isOld hold))
  have hknowledge : e'.knowledge = e.knowledge := by rw [hengine]
  refine ⟨hengine, hknowledge, ?_⟩
  simp only [facts, factCount, ruleCount, answers, ask, hknowledge, and_self, implies_true]

/-- A pushed rule, a rule that it was resolved to, a fact that was concluded, the same fact as a rule, and
an atom with a variable. -/
theorem push_old_changes_nothing_path :
    let edge (s t : Term) : Atom := ⟨"edge", [s, t]⟩
    let path (s t : Term) : Atom := ⟨"path", [s, t]⟩
    let base : Rule := ⟨path (.var "?x") (.var "?y"), [edge (.var "?x") (.var "?y")]⟩
    let step : Rule := ⟨path (.var "?x") (.var "?z"),
      [edge (.var "?x") (.var "?y"), path (.var "?y") (.var "?z")]⟩
    let residual : Rule := ⟨path (.const "a") (.var "?z"), [path (.const "b") (.var "?z")]⟩
    let concluded := path (.const "a") (.const "b")
    let calls : List Call := [.pushRules [base, step], .pushFact (edge (.const "a") (.const "b"))]
    let p : Program := ⟨[step, residual, ⟨concluded, []⟩], [concluded, edge (.const "a") (.var "?y")]⟩
    (∀ item ∈ p.items, item.IsOld (pushedItems calls) (empty.applyAll calls).knowledge.rules) ∧
      ((empty.applyAll calls).pushProgram p).engine =
        { empty.applyAll calls with program := p } := by
  intro edge path base step residual concluded calls p
  have hrun : ((Worklist.start { knowledge := empty.knowledge } (pushedItems calls)).after 6).map
      (fun w => (w.stack, decide (concluded ∈ w.run.knowledge.facts),
        decide (residual ∈ w.run.knowledge.rules))) = some ([], true, true) := by decide
  obtain ⟨w, hafter, hw⟩ := Option.map_eq_some_iff.mp hrun
  simp only [Prod.mk.injEq, decide_eq_true_eq] at hw
  have hknown := knowledge_applyAll_of_after hafter hw.1
  have hconcluded : concluded ∈ (empty.applyAll calls).knowledge.facts := hknown ▸ hw.2.1
  have hresidual : residual ∈ (empty.applyAll calls).knowledge.rules := hknown ▸ hw.2.2
  have hleast := (isClosure_applyAll calls).isLeast
  have hold : ∀ item ∈ p.items,
      item.IsOld (pushedItems calls) (empty.applyAll calls).knowledge.rules := by
    intro item hitem
    simp only [Program.items, p, List.map_cons, List.map_nil, List.mem_append, List.mem_cons,
      List.not_mem_nil, or_false] at hitem
    rcases hitem with (rfl | rfl | rfl) | rfl | rfl
    · exact .pushed (by decide)
    · exact .known hresidual
    · exact .entailed hleast hconcluded rfl
    · exact .entailed hleast hconcluded rfl
    · exact .notGround (by decide) rfl
  refine ⟨hold, ?_⟩
  have hpush := (push_old_changes_nothing calls (.pushProgram p) (fun _ => Call.noConfusion) hold).1
  exact hpush

end Engine

end Datalog
