import Datalog.Proofs.Model
import Datalog.Saturation

/-!
# What registering an item can do

Registering an item does one of three things: nothing, because the item is settled already; take a new
fact in and yield what it resolves; or take a new rule in and yield what the known facts resolve it
to. In every case the registers and the indices stay in step, and the item is settled afterwards.

## Main definitions

* `Item.Settled` — what an item states or brings is known
* `Knowledge.Outcome` — the three things that registering an item can do
* `Knowledge.Coherent` — the indices hold exactly what the registers hold, each item once

## Main results

* `Knowledge.register_cases` — nothing else happens
* `Knowledge.Outcome.settles` — the item is settled afterwards
* `Knowledge.Coherent.outcome` — registers and indices stay in step
* `Knowledge.Outcome.exists_resolvent` — what is yielded comes from a known rule and a known fact
* `saturate_induction` — what every registration preserves holds when the work is done
* `saturate_events_induction` — what is true of every registration's reports
-/

namespace Datalog

/-- What the item states is known, if it is ground, and so is the rule that it brings. -/
structure Item.Settled (k : Knowledge) (item : Item) : Prop where
  /-- A ground statement is a known fact. -/
  fact : ∀ a, item.statement? = some a → a.isGround = true → a ∈ k.facts
  /-- A rule with a body is a known rule. -/
  rule : ∀ r, item = .rule r → r.body ≠ [] → r ∈ k.rules

/-- An item that states an atom brings no rule. -/
theorem Item.settled_of_statement {k : Knowledge} {item : Item} {a : Atom}
    (h : item.statement? = some a) (ha : a.isGround = true → a ∈ k.facts) : item.Settled k where
  fact _ hb := Option.some.inj (h.symm.trans hb) ▸ ha
  rule r hr hbody := by
    rw [hr, Item.statement?_rule_eq_none hbody] at h
    simp at h

/-- A rule with a body states no atom. -/
theorem Item.settled_of_mem_rules {k : Knowledge} {r : Rule} (hbody : r.body ≠ [])
    (hr : r ∈ k.rules) : (Item.rule r).Settled k where
  fact a ha := by
    rw [Item.statement?_rule_eq_none hbody] at ha
    simp at ha
  rule _ hs _ := Item.rule.inj hs ▸ hr

namespace Knowledge

/-- A new fact is added to the register and to the index. -/
def addFact (k : Knowledge) (a : Atom) : Knowledge :=
  { k with facts := k.facts ++ [a], factIndex := k.factIndex.insert a }

/-- A new rule is added to the register and to the index. -/
def addRule (k : Knowledge) (r : Rule) : Knowledge :=
  { k with rules := k.rules ++ [r], ruleIndex := k.ruleIndex.insert r }

@[simp] theorem facts_addFact (k : Knowledge) (a : Atom) : (k.addFact a).facts = k.facts ++ [a] := rfl

@[simp] theorem rules_addFact (k : Knowledge) (a : Atom) : (k.addFact a).rules = k.rules := rfl

@[simp] theorem facts_addRule (k : Knowledge) (r : Rule) : (k.addRule r).facts = k.facts := rfl

@[simp] theorem rules_addRule (k : Knowledge) (r : Rule) : (k.addRule r).rules = k.rules ++ [r] := rfl

/-- What registering an item does to the knowledge, and what it yields. -/
inductive Outcome (k : Knowledge) (item : Item) : Knowledge → List Rule → Prop where
  /-- The item is settled, and nothing happens. -/
  | settled (h : item.Settled k) : Outcome k item k []
  /-- A new fact is stated. -/
  | newFact (a : Atom) (hstatement : item.statement? = some a) (hground : a.isGround = true)
      (hnew : a ∉ k.facts) : Outcome k item (k.addFact a) (k.ruleIndex.resolvents a)
  /-- A new rule is brought. -/
  | newRule (r : Rule) (hitem : item = .rule r) (hbody : r.body ≠ []) (hnew : r ∉ k.rules) :
      Outcome k item (k.addRule r) (k.factIndex.resolvents r)

theorem registerFact_outcome (k : Knowledge) {item : Item} {a : Atom}
    (h : item.statement? = some a) :
    Outcome k item (k.registerFact a).knowledge (k.registerFact a).derived := by
  by_cases hknown : a ∈ k.facts
  · rw [registerFact, if_pos hknown]
    exact .settled (Item.settled_of_statement h fun _ => hknown)
  · by_cases hground : a.isGround = true
    · rw [registerFact, if_neg hknown, if_pos hground]
      exact .newFact a h hground hknown
    · rw [registerFact, if_neg hknown, if_neg hground]
      exact .settled (Item.settled_of_statement h fun ha => absurd ha hground)

/-- Registering an item settles nothing new, takes a new fact in, or takes a new rule in. -/
theorem register_cases (k : Knowledge) (item : Item) :
    Outcome k item (k.register item).knowledge (k.register item).derived := by
  cases item with
  | fact a => exact k.registerFact_outcome rfl
  | rule r =>
    rw [register, registerRule]
    by_cases hbody : r.body = []
    · rw [if_pos (Rule.isFact_iff.mpr hbody)]
      refine k.registerFact_outcome (Item.statement?_rule_eq_some_iff.mpr ?_)
      rw [← hbody]
    · rw [if_neg (mt Rule.isFact_iff.mp hbody)]
      by_cases hknown : r ∈ k.rules
      · rw [if_pos hknown]
        exact .settled (Item.settled_of_mem_rules hbody hknown)
      · rw [if_neg hknown]
        exact .newRule r rfl hbody hknown

section Outcome

variable {k k' : Knowledge} {item : Item} {derived : List Rule}

theorem Outcome.facts_subset (h : Outcome k item k' derived) : k.facts ⊆ k'.facts := by
  cases h with
  | settled => exact List.Subset.refl _
  | newFact => exact List.subset_append_left _ _
  | newRule => exact List.Subset.refl _

theorem Outcome.rules_subset (h : Outcome k item k' derived) : k.rules ⊆ k'.rules := by
  cases h with
  | settled => exact List.Subset.refl _
  | newFact => exact List.Subset.refl _
  | newRule => exact List.subset_append_left _ _

theorem Outcome.settles (h : Outcome k item k' derived) : item.Settled k' := by
  cases h with
  | settled h => exact h
  -- An item that states a fact brings no rule, and one that brings a rule states no fact.
  | newFact a hstatement =>
    refine ⟨fun b hb _ => ?_, ?_⟩
    · rw [hstatement, Option.some.injEq] at hb
      simp [hb]
    · rintro r rfl hbody
      rw [Item.statement?_rule_eq_none hbody] at hstatement
      simp at hstatement
  | newRule r hitem hbody =>
    subst hitem
    refine ⟨fun a ha _ => ?_, fun s hs _ => by simp [Item.rule.inj hs]⟩
    rw [Item.statement?_rule_eq_none hbody] at ha
    simp at ha

end Outcome

/-! ### Registers and indices -/

/-- The indices hold exactly what the registers hold, in the same order, and the registers hold ground
facts and rules with a body, each once. -/
structure Coherent (k : Knowledge) : Prop where
  /-- The known facts are indexed in order. -/
  factIndex : k.factIndex = FactIndex.ofFacts k.facts
  /-- The known rules are indexed in order. -/
  ruleIndex : k.ruleIndex = RuleIndex.ofRules k.rules
  /-- Known facts are ground. -/
  ground : ∀ a ∈ k.facts, a.isGround = true
  /-- Known rules have a body. -/
  body_ne_nil : ∀ r ∈ k.rules, r.body ≠ []
  /-- No fact is kept twice. -/
  nodup_facts : k.facts.Nodup
  /-- No rule is kept twice. -/
  nodup_rules : k.rules.Nodup

theorem coherent_empty : empty.Coherent where
  factIndex := rfl
  ruleIndex := rfl
  ground := by simp [empty]
  body_ne_nil := by simp [empty]
  nodup_facts := List.nodup_nil
  nodup_rules := List.nodup_nil

theorem Coherent.outcome {k k' : Knowledge} {item : Item} {derived : List Rule} (hk : k.Coherent)
    (h : Outcome k item k' derived) : k'.Coherent := by
  cases h with
  | settled => exact hk
  | newFact a _ hground hnew =>
    exact
      { hk with
        factIndex := by
          rw [facts_addFact, FactIndex.ofFacts_append_singleton, ← hk.factIndex]
          rfl
        ground := List.forall_mem_append.mpr ⟨hk.ground, by simpa using hground⟩
        nodup_facts := by simpa using hk.nodup_facts.concat hnew }
  | newRule r _ hbody hnew =>
    exact
      { hk with
        ruleIndex := by
          rw [rules_addRule, RuleIndex.ofRules_append_singleton, ← hk.ruleIndex]
          rfl
        body_ne_nil := List.forall_mem_append.mpr ⟨hk.body_ne_nil, by simpa using hbody⟩
        nodup_rules := by simpa using hk.nodup_rules.concat hnew }

/-- The rules that a registration yields are resolvents of what is known afterwards. -/
theorem Outcome.exists_resolvent {k k' : Knowledge} {item : Item} {derived : List Rule}
    (hk : k.Coherent) (h : Outcome k item k' derived) {s : Rule} (hs : s ∈ derived) :
    ∃ r ∈ k'.rules, ∃ a ∈ k'.facts, r.Resolvent a s := by
  cases h with
  | settled => simp at hs
  | newFact a _ hground =>
    rw [hk.ruleIndex, RuleIndex.mem_resolvents_ofRules hground] at hs
    obtain ⟨r, hr, hs⟩ := hs
    exact ⟨r, hr, a, by simp, hs⟩
  | newRule r =>
    rw [hk.factIndex, FactIndex.mem_resolvents_ofFacts hk.ground] at hs
    obtain ⟨a, ha, hs⟩ := hs
    exact ⟨r, by simp, a, ha, hs⟩

end Knowledge

/-! ### Runs -/

/-- What holds of the knowledge and the agenda, and is preserved by every registration, holds when the
agenda is worked off. -/
theorem saturate_induction {P : Knowledge → List Item → Prop}
    (step : ∀ k item rest, P k (item :: rest) →
      P (k.register item).knowledge ((k.register item).derived.map Item.rule ++ rest))
    {run : Run} {agenda : List Item} (h : P run.knowledge agenda) :
    P (saturate run agenda).knowledge [] := by
  fun_induction saturate run agenda with
  | case1 run => exact h
  | case2 run item rest registration ih => exact ih (step _ _ _ h)

/-- What is reported has every property that each registration's reports have while the work goes on. -/
theorem saturate_events_induction {P : Knowledge → List Item → Prop} {Q : Event → Prop}
    (step : ∀ k item rest, P k (item :: rest) →
      P (k.register item).knowledge ((k.register item).derived.map Item.rule ++ rest))
    (report : ∀ k item rest, P k (item :: rest) → ∀ event ∈ (k.register item).events, Q event)
    {run : Run} {agenda : List Item} (h : P run.knowledge agenda)
    (hrun : ∀ event ∈ run.events, Q event) : ∀ event ∈ (saturate run agenda).events, Q event := by
  fun_induction saturate run agenda with
  | case1 run => exact hrun
  | case2 run item rest registration ih =>
    refine ih (step _ _ _ h) fun event hevent => ?_
    rw [Run.after, ← Array.mem_toList_iff, Array.toList_appendList, List.mem_append] at hevent
    rcases hevent with hevent | hevent
    · exact hrun event (Array.mem_toList_iff.mp hevent)
    · exact report _ _ _ h event hevent

/-- Registers and indices stay in step. -/
theorem Knowledge.Coherent.saturate {run : Run} (hk : run.knowledge.Coherent) (agenda : List Item) :
    (Datalog.saturate run agenda).knowledge.Coherent :=
  saturate_induction (P := fun k _ => k.Coherent)
    (fun k item _ hk => hk.outcome (k.register_cases item)) hk

end Datalog
