import Datalog.Proofs.RangeRestriction
import Datalog.Proofs.Saturation.Registration

/-!
# Work on rules that conclude nothing

An agenda may hold rules that are not range-restricted. Everything that is yielded by such a rule is
again such a rule, until a body is used up and a head with variables is dropped. Working off the
agenda without these rules therefore registers everything else in the same order, against the same
facts: the two runs go through knowledge that differs in such rules only.

## Main definitions

* `Item.isRestricted` — the item is a fact or a range-restricted rule
* `Knowledge.restrict`, `Registration.restrict` — what is left without the other rules

## Main results

* `Knowledge.register_restrict` — registering a restricted item does the same without the other rules
* `Knowledge.Outcome.restrict_of_not` — registering another rule has no effect on what is left
* `saturate_restrict` — so it makes no difference if the other rules are left out of an agenda
-/

namespace Datalog

/-- The item is a fact or a range-restricted rule. -/
def Item.isRestricted : Item → Bool
  | .fact _ => true
  | .rule r => r.isRangeRestricted

theorem filter_isRestricted_rules (rules : List Rule) :
    (rules.map Item.rule).filter Item.isRestricted =
      (rules.filter Rule.isRangeRestricted).map Item.rule := by
  rw [List.filter_map]
  rfl

theorem filter_isRestricted_facts (facts : List Atom) :
    (facts.map Item.fact).filter Item.isRestricted = facts.map Item.fact := by
  rw [List.filter_map, List.filter_eq_self.mpr]
  exact fun _ _ => rfl

/-- What is left of the knowledge without the rules that are not range-restricted. -/
def Knowledge.restrict (k : Knowledge) : Knowledge where
  facts := k.facts
  rules := k.rules.filter Rule.isRangeRestricted
  factIndex := k.factIndex
  ruleIndex := RuleIndex.ofRules (k.rules.filter Rule.isRangeRestricted)

/-- What is left of a registration without the rules that are not range-restricted. -/
def Registration.restrict (registration : Registration) : Registration where
  knowledge := registration.knowledge.restrict
  derived := registration.derived.filter Rule.isRangeRestricted
  events := registration.events

namespace Knowledge

variable {k : Knowledge} {r : Rule} {item : Item}

theorem restrict_addRule (hr : r.isRangeRestricted = true) :
    (k.addRule r).restrict = k.restrict.addRule r := by
  simp [restrict, addRule, hr, RuleIndex.ofRules_append_singleton]

theorem restrict_addRule_of_not (hr : r.isRangeRestricted = false) :
    (k.addRule r).restrict = k.restrict := by
  simp [restrict, addRule, hr]

/-- Without the other rules, a fact resolves the range-restricted rules as before. -/
theorem Coherent.resolvents_restrict (hk : k.Coherent) {a : Atom} (ha : a.isGround = true) :
    k.restrict.ruleIndex.resolvents a =
      (k.ruleIndex.resolvents a).filter Rule.isRangeRestricted := by
  rw [restrict, hk.ruleIndex]
  exact RuleIndex.resolvents_filter fun r s hs => hs.isRangeRestricted_eq ha

/-- What known facts make of a rule is range-restricted exactly if the rule is. -/
theorem Coherent.isRangeRestricted_of_mem_resolvents (hk : k.Coherent) {s : Rule}
    (hs : s ∈ k.factIndex.resolvents r) : s.isRangeRestricted = r.isRangeRestricted := by
  rw [hk.factIndex, FactIndex.mem_resolvents_ofFacts hk.ground] at hs
  obtain ⟨a, ha, hs⟩ := hs
  exact hs.isRangeRestricted_eq (hk.ground a ha)

theorem registerFact_restrict (hk : k.Coherent) (a : Atom) :
    k.restrict.registerFact a = (k.registerFact a).restrict := by
  have hfacts : k.restrict.facts = k.facts := rfl
  rw [registerFact, registerFact, hfacts]
  by_cases hknown : a ∈ k.facts
  · rw [if_pos hknown, if_pos hknown]
    rfl
  rw [if_neg hknown, if_neg hknown]
  by_cases hground : a.isGround = true
  · rw [if_pos hground, if_pos hground, hk.resolvents_restrict hground]
    rfl
  · rw [if_neg hground, if_neg hground]
    rfl

/-- Registering a fact or a range-restricted rule does the same without the other rules. -/
theorem register_restrict (hk : k.Coherent) (hitem : item.isRestricted = true) :
    k.restrict.register item = (k.register item).restrict := by
  cases item with
  | fact a => exact registerFact_restrict hk a
  | rule r =>
    have hr : r.isRangeRestricted = true := hitem
    rw [register, register, registerRule, registerRule]
    by_cases hbody : r.isFact = true
    · rw [if_pos hbody, if_pos hbody]
      exact registerFact_restrict hk r.head
    rw [if_neg hbody, if_neg hbody]
    have hrules : r ∈ k.restrict.rules ↔ r ∈ k.rules := by simp [restrict, hr]
    by_cases hknown : r ∈ k.rules
    · rw [if_pos hknown, if_pos (hrules.mpr hknown)]
      rfl
    · rw [if_neg hknown, if_neg (mt hrules.mp hknown)]
      have hderived : (k.factIndex.resolvents r).filter Rule.isRangeRestricted =
          k.factIndex.resolvents r :=
        List.filter_eq_self.mpr fun s hs => (hk.isRangeRestricted_of_mem_resolvents hs).trans hr
      have hadd : (k.addRule r).restrict = k.restrict.addRule r := restrict_addRule hr
      rw [addRule, addRule] at hadd
      rw [Registration.restrict, hderived, hadd]
      rfl

/-- Registering a rule that is not range-restricted has no effect on what is left without these rules.
-/
theorem Outcome.restrict_of_not {k' : Knowledge} {derived : List Rule} (hk : k.Coherent)
    (h : Outcome k item k' derived) (hitem : item.isRestricted = false) :
    k'.restrict = k.restrict ∧ derived.filter Rule.isRangeRestricted = [] := by
  cases item with
  | fact a => simp [Item.isRestricted] at hitem
  | rule r =>
    have hr : r.isRangeRestricted = false := hitem
    cases h with
    | settled => exact ⟨rfl, rfl⟩
    -- A body that was used up leaves no ground atom.
    | newFact a hstatement hground =>
      rw [Item.statement?_rule_eq_some_iff.mp hstatement,
        Rule.isRangeRestricted_of_body_eq_nil rfl, hground] at hr
      simp at hr
    | newRule s hs =>
      obtain rfl := Item.rule.inj hs
      refine ⟨restrict_addRule_of_not hr, List.filter_eq_nil_iff.mpr fun s hs => ?_⟩
      rw [hk.isRangeRestricted_of_mem_resolvents hs, hr]
      exact Bool.false_ne_true

end Knowledge

/-- It makes no difference whether the rules that are not range-restricted are left out before an agenda
is worked off or afterwards. -/
theorem saturate_restrict (run : Run) (agenda : List Item) (hk : run.knowledge.Coherent) :
    ∀ run' : Run, run'.knowledge = run.knowledge.restrict →
      (saturate run' (agenda.filter Item.isRestricted)).knowledge =
        (saturate run agenda).knowledge.restrict := by
  fun_induction saturate run agenda with
  | case1 run =>
    intro run' hrun
    rw [List.filter_nil, saturate_nil]
    exact hrun
  | case2 run item rest registration ih =>
    intro run' hrun
    have houtcome := run.knowledge.register_cases item
    have hnext := ih (hk.outcome houtcome)
    rw [List.filter_append, filter_isRestricted_rules] at hnext
    cases hitem : item.isRestricted with
    -- Both runs look at the item, in knowledge that differs in the other rules only.
    | true =>
      rw [List.filter_cons_of_pos hitem, saturate_cons, hrun, Knowledge.register_restrict hk hitem]
      exact hnext (run'.after registration.restrict) rfl
    -- Only one run looks at the item, and what it yields is left out of the other.
    | false =>
      obtain ⟨hknowledge, hderived⟩ := houtcome.restrict_of_not hk hitem
      rw [hderived] at hnext
      rw [List.filter_cons_of_neg (by simp [hitem])]
      exact hnext run' (hrun.trans hknowledge.symm)

end Datalog
