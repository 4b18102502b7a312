import Datalog.Proofs.Engine.History
import Mathlib.Data.Set.Card

/-!
# What an engine knows

After any calls, an engine knows exactly what the pushed items mean. Its facts are the least model of
the items, and its rules are what matching body atoms with these facts can leave of a pushed rule.
Neither rules whose heads have variables of their own nor atoms that are not ground are left out:
they simply contribute nothing that is ground.

## Main definitions

* `residuals` — what matching some body atoms leaves of the rules

## Main results

* `Engine.facts_isLeast` — the facts are the least model
* `Engine.rules_eq_residuals` — the rules are the residuals of the pushed rules, each kept once
-/

namespace Datalog

/-- What is left of one of the rules when some of its body atoms, but not all, are matched by facts. -/
def residuals (rules : Set Rule) (facts : Set Atom) : Set Rule :=
  {s | ∃ r ∈ rules, r.IsResidual facts s}

namespace Engine

/-- The listed facts are the least set of ground atoms that contains the ground atoms that were pushed
as facts or as rules without a body and that is closed under the pushed rules with a body. -/
theorem facts_isLeast (calls : List Call) :
    IsLeast {M | IsModel (statedFacts (pushedItems calls)) (properRules (pushedItems calls)) M}
      {a | a ∈ (empty.applyAll calls).facts} := by
  have hclosure := isClosure_applyAll calls
  have hlisted : {a | a ∈ (empty.applyAll calls).facts} =
      {a | a ∈ (empty.applyAll calls).knowledge.facts} :=
    Set.ext fun _ => hclosure.mem_listed_iff
  rw [hlisted]
  exact hclosure.isLeast

/-- The known rules are the residuals of the pushed rules with a body against the known facts, and the
count of rules is the number of these residuals. -/
theorem rules_eq_residuals (calls : List Call) :
    {s | s ∈ (empty.applyAll calls).knowledge.rules} =
        residuals (properRules (pushedItems calls))
          {a | a ∈ (empty.applyAll calls).knowledge.facts} ∧
      (empty.applyAll calls).ruleCount =
        (residuals (properRules (pushedItems calls))
          {a | a ∈ (empty.applyAll calls).knowledge.facts}).ncard := by
  have hclosure := isClosure_applyAll calls
  have hrules : {s | s ∈ (empty.applyAll calls).knowledge.rules} =
      residuals (properRules (pushedItems calls))
        {a | a ∈ (empty.applyAll calls).knowledge.facts} :=
    Set.ext fun _ => hclosure.mem_rules_iff
  refine ⟨hrules, ?_⟩
  -- No rule is kept twice, so the length of the register is the size of the set.
  have hnodup := hclosure.pending.coherent.nodup_rules
  rw [← hrules, ← List.coe_toFinset, Set.ncard_coe_finset, List.toFinset_card_of_nodup hnodup,
    ruleCount]

end Engine

end Datalog
