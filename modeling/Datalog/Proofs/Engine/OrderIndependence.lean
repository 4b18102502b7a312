import Datalog.Proofs.Sharing
import Mathlib.Data.List.Perm.Basic

/-!
# The order of pushes does not matter

Two engines that were pushed the same rules with a body and the same ground atoms know the same, in
whatever order, in whatever batches, how often and through which handles the pushes were made. The
facts agree because both are the least model of the same items, and the rules agree because they are
residuals of the same rules against the same facts.

## Main definitions

* `Engine.Agree` — two engines know the same, up to the order in which they list it

## Main results

* `Engine.agree_of_pushed_eq` — engines that were pushed the same agree
-/

namespace Datalog

namespace Knowledge.IsClosure

variable {given given' : List Item} {k k' : Knowledge}

theorem perm_facts (h : IsClosure given k) (h' : IsClosure given' k')
    (hstated : statedFacts given = statedFacts given')
    (hrules : properRules given = properRules given') : k.facts.Perm k'.facts := by
  have hleast := h.isLeast
  rw [hstated, hrules] at hleast
  have hsame : {a | a ∈ k.facts} = {a | a ∈ k'.facts} := hleast.unique h'.isLeast
  exact (List.perm_ext_iff_of_nodup h.pending.coherent.nodup_facts
    h'.pending.coherent.nodup_facts).mpr fun a => Set.ext_iff.mp hsame a

theorem perm_rules (h : IsClosure given k) (h' : IsClosure given' k')
    (hfacts : k.facts.Perm k'.facts) (hrules : properRules given = properRules given') :
    k.rules.Perm k'.rules := by
  have hsame : {a | a ∈ k.facts} = {a | a ∈ k'.facts} := Set.ext fun _ => hfacts.mem_iff
  refine (List.perm_ext_iff_of_nodup h.pending.coherent.nodup_rules
    h'.pending.coherent.nodup_rules).mpr fun s => ?_
  rw [h.mem_rules_iff, h'.mem_rules_iff, hsame, hrules]

theorem perm_listed (h : IsClosure given k) (h' : IsClosure given' k')
    (hfacts : k.facts.Perm k'.facts) : k.factIndex.facts.Perm k'.factIndex.facts := by
  refine (List.perm_ext_iff_of_nodup (nodup_eraseDups _) (nodup_eraseDups _)).mpr fun a => ?_
  exact h.mem_listed_iff.trans (hfacts.mem_iff.trans h'.mem_listed_iff.symm)

theorem perm_answers (h : IsClosure given k) (h' : IsClosure given' k')
    (hfacts : k.facts.Perm k'.facts) (query : Atom) :
    (k.factIndex.answers query).Perm (k'.factIndex.answers query) := by
  refine (List.perm_ext_iff_of_nodup (nodup_eraseDups _) (nodup_eraseDups _)).mpr fun a => ?_
  exact h.mem_answers_iff.trans ((and_congr_left' hfacts.mem_iff).trans h'.mem_answers_iff.symm)

end Knowledge.IsClosure

namespace Engine

/-- Two engines know the same facts and rules and give the same answers, though perhaps in different
orders. -/
structure Agree (e e' : Engine) : Prop where
  /-- The known facts are the same. -/
  facts : e.knowledge.facts.Perm e'.knowledge.facts
  /-- The known rules are the same. -/
  rules : e.knowledge.rules.Perm e'.knowledge.rules
  /-- The same facts are listed. -/
  listed : e.facts.Perm e'.facts
  /-- The counts of facts agree. -/
  factCount : e.factCount = e'.factCount
  /-- The counts of rules agree. -/
  ruleCount : e.ruleCount = e'.ruleCount
  /-- Every query has the same answers. -/
  answers : ∀ query, (e.answers query).Perm (e'.answers query)

/-- Engines that were pushed the same ground atoms and the same rules with a body agree. -/
theorem agree_of_pushed_eq {e e' : Engine} {calls calls' : List Call} (h : MadeBy e calls)
    (h' : MadeBy e' calls')
    (hstated : statedFacts (pushedItems calls) = statedFacts (pushedItems calls'))
    (hrules : properRules (pushedItems calls) = properRules (pushedItems calls')) : Agree e e' := by
  obtain rfl := h.eq_applyAll
  obtain rfl := h'.eq_applyAll
  have hclosure := isClosure_applyAll calls
  have hclosure' := isClosure_applyAll calls'
  have hfacts := hclosure.perm_facts hclosure' hstated hrules
  have hregister := hclosure.perm_rules hclosure' hfacts hrules
  exact
    { facts := hfacts
      rules := hregister
      listed := hclosure.perm_listed hclosure' hfacts
      factCount := hfacts.length_eq
      ruleCount := hregister.length_eq
      answers := hclosure.perm_answers hclosure' hfacts }

/-- The fact before the rule, each twice, and the rule before the fact, through two handles and with a
pattern in between. -/
theorem agree_direct_shared :
    let edge : Atom := ⟨"edge", [.const "a", .const "b"]⟩
    let pattern : Atom := ⟨"edge", [.const "a", .var "?y"]⟩
    let path : Rule := ⟨⟨"path", [.var "?x", .var "?y"]⟩, [⟨"edge", [.var "?x", .var "?y"]⟩]⟩
    let script : List SharedCall := [.share [.pushRule path], .copy 0, .push 1 (.fact edge),
      .push 0 (.fact pattern), .push 0 (.rule ⟨edge, []⟩)]
    ∃ e, (sharedBy script).read? 1 = some e ∧
      Agree (empty.applyAll [.pushFacts [edge, edge], .pushRules [path, path]]) e := by
  intro edge pattern path script
  have hpattern : ∀ a : Atom, a.isGround = true → pattern ≠ a := by
    rintro a ha rfl
    exact absurd ha (by decide)
  have hstated : statedFacts [.fact edge, .fact edge, .rule path, .rule path] =
      statedFacts [.rule path, .fact edge, .fact pattern, .rule ⟨edge, []⟩] := by
    ext a
    simp +contextual [statedFacts, Item.statement?, Rule.isFact, path, hpattern]
  have hrules : properRules [.fact edge, .fact edge, .rule path, .rule path] =
      properRules [.rule path, .fact edge, .fact pattern, .rule ⟨edge, []⟩] := by
    ext r
    simp +contextual [properRules, Rule.eq_iff_body_head]
  have hshared : ∀ e, (sharedBy script).read? 1 = some e →
      MadeBy e [.pushRule path, .pushFact edge, .pushFact pattern, .pushRule ⟨edge, []⟩] :=
    fun e he => .shared script 1 he rfl
  exact ⟨_, rfl, agree_of_pushed_eq (.direct _) (hshared _ rfl) hstated hrules⟩

end Engine

end Datalog
