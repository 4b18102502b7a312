import Datalog.Proofs.Distinct
import Datalog.Proofs.PatternTrie.Renaming
import Datalog.Proofs.Queries
import Datalog.Proofs.Saturation.Registration

/-!
# Saturation under new names

The same work under new names: the indices of facts and rules have the same shape, an item is known
exactly if its renaming is, and what it resolves stands in the same order. So two runs over the same
agenda, one of them under new names, go through knowledge that differs in the names only.

## Main definitions

* `Item.rename` — what becomes of an item
* `FactIndex.Renamed`, `RuleIndex.Renamed`, `Knowledge.Renamed` — the same under new names

## Main results

* `FactIndex.Renamed.answers`, `FactIndex.Renamed.resolvents`, `RuleIndex.Renamed.resolvents` — what the
  indices find
* `Knowledge.Renamed.register` — registering an item and registering its renaming
* `Knowledge.Renamed.saturate` — working off an agenda and working off its renaming
-/

namespace Datalog

variable {ρ : Renaming}

/-! ### The index of facts -/

namespace FactIndex

/-- The second index is the first under new names. -/
def Renamed (ρ : Renaming) (index index' : FactIndex) : Prop :=
  PatternTrie.Renamed ρ (Atom.rename ρ) index.trie index'.trie

namespace Renamed

variable {index index' : FactIndex}

theorem insert (h : Renamed ρ index index') (a : Atom) :
    Renamed ρ (index.insert a) (index'.insert (a.rename ρ)) :=
  PatternTrie.Renamed.insert h a a

theorem facts (h : Renamed ρ index index') : index'.facts = index.facts.map (Atom.rename ρ) := by
  rw [FactIndex.facts, PatternTrie.values, PatternTrie.Renamed.contents h]
  exact eraseDups_map (Atom.rename_injective ρ) _

/-- A pattern is matched against corresponding facts, and what the matches lead to corresponds. -/
theorem filterMap_candidates (h : Renamed ρ index index')
    (hground : ∀ a ∈ index.facts, a.isGround = true) (pattern : Atom) {γ γ' : Type} {f : γ → γ'}
    {use : Substitution → γ} {use' : Substitution → γ'}
    (huse : ∀ σ : Substitution, use' (σ.rename ρ) = f (use σ)) :
    ((index'.candidates (pattern.rename ρ)).filterMap fun a =>
        ((pattern.rename ρ).unify? a).map use') =
      ((index.candidates pattern).filterMap fun a => (pattern.unify? a).map use).map f := by
  have hcandidates : index'.candidates (pattern.rename ρ) =
      (index.candidates pattern).map (Atom.rename ρ) :=
    PatternTrie.Renamed.specializations h pattern
  rw [hcandidates, List.filterMap_map, List.map_filterMap]
  refine List.filterMap_congr fun a ha => ?_
  have ha : a ∈ index.facts :=
    PatternTrie.mem_values.mpr (index.trie.specializations_subset pattern ha)
  rw [Function.comp_apply, Atom.unify?_rename ρ (hground a ha), Option.map_map, Option.map_map]
  exact congrArg (Option.map · _) (funext huse)

theorem answers (h : Renamed ρ index index') (hground : ∀ a ∈ index.facts, a.isGround = true)
    (query : Atom) :
    index'.answers (query.rename ρ) = (index.answers query).map (Atom.rename ρ) := by
  rw [FactIndex.answers, FactIndex.answers, ← eraseDups_map (Atom.rename_injective ρ)]
  exact congrArg List.eraseDups
    (h.filterMap_candidates hground query fun σ => (Atom.rename_subst ρ σ query).symm)

theorem resolvents (h : Renamed ρ index index') (hground : ∀ a ∈ index.facts, a.isGround = true)
    (r : Rule) : index'.resolvents (r.rename ρ) = (index.resolvents r).map (Rule.rename ρ) := by
  rw [FactIndex.resolvents, FactIndex.resolvents, Rule.body_rename, List.zipIdx_map,
    List.flatMap_map, List.map_flatMap]
  exact List.flatMap_congr fun entry _ =>
    h.filterMap_candidates hground entry.1 fun σ => (Rule.rename_resolve ρ r entry.2 σ).symm

end Renamed

end FactIndex

/-! ### The index of rules -/

theorem Rule.entries_rename (r : Rule) :
    (r.rename ρ).entries = r.entries.map fun e => (e.1.rename ρ, Prod.map id (Rule.rename ρ) e.2) := by
  rw [entries, entries, Rule.body_rename, List.zipIdx_map, List.map_map, List.map_map]
  rfl

namespace RuleIndex

/-- The second index is the first under new names. -/
def Renamed (ρ : Renaming) (index index' : RuleIndex) : Prop :=
  PatternTrie.Renamed ρ (Prod.map id (Rule.rename ρ)) index.trie index'.trie

theorem resolvent?_rename {a : Atom} (ha : a.isGround = true) (entry : Nat × Rule) :
    resolvent? (a.rename ρ) (Prod.map id (Rule.rename ρ) entry) =
      (resolvent? a entry).map (Rule.rename ρ) := by
  obtain ⟨i, r⟩ := entry
  simp only [resolvent?, Prod.map_apply, id_eq, Rule.body_rename, List.getElem?_map]
  cases r.body[i]? with
  | none => rfl
  | some pattern =>
    simp only [Option.map_some, Atom.unify?_rename ρ ha, Option.map_map]
    exact congrArg (Option.map · _) (funext fun σ => (Rule.rename_resolve ρ r i σ).symm)

namespace Renamed

variable {index index' : RuleIndex}

theorem insert (h : Renamed ρ index index') (r : Rule) :
    Renamed ρ (index.insert r) (index'.insert (r.rename ρ)) := by
  rw [Renamed, trie_insert, trie_insert, Rule.entries_rename]
  exact PatternTrie.Renamed.insertAll h r.entries

theorem resolvents (h : Renamed ρ index index') {a : Atom} (ha : a.isGround = true) :
    index'.resolvents (a.rename ρ) = (index.resolvents a).map (Rule.rename ρ) := by
  rw [RuleIndex.resolvents, RuleIndex.resolvents, PatternTrie.Renamed.generalizations h,
    List.filterMap_map, List.map_filterMap]
  exact List.filterMap_congr fun entry _ => resolvent?_rename ha entry

end Renamed

end RuleIndex

/-! ### Knowledge -/

/-- The item under new names. -/
def Item.rename (ρ : Renaming) : Item → Item
  | .fact a => .fact (a.rename ρ)
  | .rule r => .rule (r.rename ρ)

theorem Item.map_rename_rules (rules : List Rule) :
    (rules.map Item.rule).map (Item.rename ρ) = (rules.map (Rule.rename ρ)).map Item.rule := by
  rw [List.map_map, List.map_map]
  rfl

theorem Item.map_rename_facts (facts : List Atom) :
    (facts.map Item.fact).map (Item.rename ρ) = (facts.map (Atom.rename ρ)).map Item.fact := by
  rw [List.map_map, List.map_map]
  rfl

namespace Knowledge

/-- The second knowledge is the first under new names, in the same order and with the same indices. -/
structure Renamed (ρ : Renaming) (k k' : Knowledge) : Prop where
  /-- The facts are the same. -/
  facts : k'.facts = k.facts.map (Atom.rename ρ)
  /-- The rules are the same. -/
  rules : k'.rules = k.rules.map (Rule.rename ρ)
  /-- The facts are indexed alike. -/
  factIndex : k.factIndex.Renamed ρ k'.factIndex
  /-- The rules are indexed alike. -/
  ruleIndex : k.ruleIndex.Renamed ρ k'.ruleIndex

theorem renamed_empty : Renamed ρ empty empty where
  facts := rfl
  rules := rfl
  factIndex := List.Forall₂.nil
  ruleIndex := List.Forall₂.nil

theorem Coherent.isGround_of_mem_factIndex {k : Knowledge} (hk : k.Coherent) :
    ∀ a ∈ k.factIndex.facts, a.isGround = true := fun a ha =>
  hk.ground a (FactIndex.mem_facts_ofFacts.mp (hk.factIndex ▸ ha))

namespace Renamed

variable {k k' : Knowledge}

theorem addFact (h : Renamed ρ k k') (a : Atom) : Renamed ρ (k.addFact a) (k'.addFact (a.rename ρ)) where
  facts := by simp [h.facts]
  rules := h.rules
  factIndex := h.factIndex.insert a
  ruleIndex := h.ruleIndex

theorem addRule (h : Renamed ρ k k') (r : Rule) : Renamed ρ (k.addRule r) (k'.addRule (r.rename ρ)) where
  facts := h.facts
  rules := by simp [h.rules]
  factIndex := h.factIndex
  ruleIndex := h.ruleIndex.insert r

theorem mem_facts_iff (h : Renamed ρ k k') (a : Atom) : a.rename ρ ∈ k'.facts ↔ a ∈ k.facts := by
  rw [h.facts, List.mem_map_of_injective (Atom.rename_injective ρ)]

theorem mem_rules_iff (h : Renamed ρ k k') (r : Rule) : r.rename ρ ∈ k'.rules ↔ r ∈ k.rules := by
  rw [h.rules, List.mem_map_of_injective (Rule.rename_injective ρ)]

theorem registerFact (h : Renamed ρ k k') (a : Atom) :
    Renamed ρ (k.registerFact a).knowledge (k'.registerFact (a.rename ρ)).knowledge ∧
      (k'.registerFact (a.rename ρ)).derived = (k.registerFact a).derived.map (Rule.rename ρ) := by
  rw [Knowledge.registerFact, Knowledge.registerFact]
  by_cases hknown : a ∈ k.facts
  · rw [if_pos hknown, if_pos ((h.mem_facts_iff a).mpr hknown)]
    exact ⟨h, rfl⟩
  rw [if_neg hknown, if_neg (mt (h.mem_facts_iff a).mp hknown), Atom.isGround_rename]
  by_cases hground : a.isGround = true
  · rw [if_pos hground, if_pos hground]
    exact ⟨h.addFact a, h.ruleIndex.resolvents hground⟩
  · rw [if_neg hground, if_neg hground]
    exact ⟨h, rfl⟩

/-- Registering an item under new names has the same effect under new names, and yields the same rules
under new names in the same order. -/
theorem register (h : Renamed ρ k k') (hk : k.Coherent) (item : Item) :
    Renamed ρ (k.register item).knowledge (k'.register (item.rename ρ)).knowledge ∧
      (k'.register (item.rename ρ)).derived = (k.register item).derived.map (Rule.rename ρ) := by
  cases item with
  | fact a => exact h.registerFact a
  | rule r =>
    rw [Item.rename, Knowledge.register, Knowledge.register, registerRule, registerRule,
      Rule.isFact_rename]
    by_cases hbody : r.isFact = true
    · rw [if_pos hbody, if_pos hbody]
      exact h.registerFact r.head
    rw [if_neg hbody, if_neg hbody]
    by_cases hknown : r ∈ k.rules
    · rw [if_pos hknown, if_pos ((h.mem_rules_iff r).mpr hknown)]
      exact ⟨h, rfl⟩
    · rw [if_neg hknown, if_neg (mt (h.mem_rules_iff r).mp hknown)]
      exact ⟨h.addRule r, h.factIndex.resolvents hk.isGround_of_mem_factIndex r⟩

/-- Working off an agenda under new names has the same effect under new names. -/
theorem saturate {run run' : Run} (h : Renamed ρ run.knowledge run'.knowledge)
    (hk : run.knowledge.Coherent) (agenda : List Item) :
    Renamed ρ (Datalog.saturate run agenda).knowledge
      (Datalog.saturate run' (agenda.map (Item.rename ρ))).knowledge := by
  revert run'
  fun_induction Datalog.saturate run agenda with
  | case1 run =>
    intro run' h
    rwa [List.map_nil, saturate_nil]
  | case2 run item rest registration ih =>
    intro run' h
    obtain ⟨hknowledge, hderived⟩ := h.register hk item
    have hafter : Renamed ρ (run.after registration).knowledge
        (run'.after (run'.knowledge.register (item.rename ρ))).knowledge := hknowledge
    have hnext := ih (hk.outcome (run.knowledge.register_cases item)) hafter
    rw [List.map_append, Item.map_rename_rules, ← hderived] at hnext
    rwa [List.map_cons, saturate_cons]

end Renamed

end Knowledge

end Datalog
