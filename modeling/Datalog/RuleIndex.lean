import Datalog.PatternTrie
import Datalog.Rule
import Datalog.Unification

/-!
# Indexed rules

The body atoms of rules in a pattern trie, each with its rule and its position in the body. A fact is
looked up by generalisation, which finds the body atoms that it may match.

## Main definitions

* `RuleIndex` — the index
* `RuleIndex.insert` — stores the body atoms of a rule
* `RuleIndex.resolvents` — the rules left when a fact matches a stored body atom

## Main results

* `RuleIndex.mem_contents_insert` — inserting a rule adds entries of this rule only
* `RuleIndex.mem_resolvents` — a resolvent comes from a stored entry
-/

namespace Datalog

/-- Body atoms of rules in a pattern trie, each stored as its position with its rule. -/
structure RuleIndex where
  /-- The trie of body atoms. -/
  trie : PatternTrie (Nat × Rule) := {}

namespace RuleIndex

/-- The index without rules. -/
def empty : RuleIndex := {}

/-- Stores every body atom of a rule. -/
def insert (index : RuleIndex) (rule : Rule) : RuleIndex where
  trie := rule.body.zipIdx.foldl (fun trie entry => trie.insert entry.1 (entry.2, rule)) index.trie

/-- The rule that is left when `fact` matches the atom at position `i` of the rule's body. -/
def resolvent? (fact : Atom) (entry : Nat × Rule) : Option Rule :=
  match entry.2.body[entry.1]? with
  | some pattern => (pattern.unify? fact).map (entry.2.resolve entry.1)
  | none => none

/-- The rules that are left when the ground fact matches a stored body atom. -/
def resolvents (index : RuleIndex) (fact : Atom) : List Rule :=
  (index.trie.generalizations fact).filterMap (resolvent? fact)

theorem mem_contents_insert {index : RuleIndex} {rule : Rule} {entry : Nat × Rule}
    (h : entry ∈ (index.insert rule).trie.contents) :
    entry ∈ index.trie.contents ∨ entry.2 = rule := by
  have run : ∀ (atoms : List (Atom × Nat)) (trie : PatternTrie (Nat × Rule)),
      entry ∈ (atoms.foldl (fun trie entry => trie.insert entry.1 (entry.2, rule)) trie).contents →
        entry ∈ trie.contents ∨ entry.2 = rule := by
    intro atoms
    induction atoms with
    | nil => exact fun trie h => Or.inl h
    | cons atom rest ih =>
      intro trie h
      rcases ih _ h with h | h
      · rcases List.mem_cons.1 ((trie.contents_insert _ _).mem_iff.1 h) with rfl | h
        · exact Or.inr rfl
        · exact Or.inl h
      · exact Or.inr h
  exact run _ _ h

theorem mem_resolvents {index : RuleIndex} {fact : Atom} {r : Rule}
    (h : r ∈ index.resolvents fact) :
    ∃ entry ∈ index.trie.contents, ∃ σ,
      (∃ pattern ∈ entry.2.body, pattern.unify? fact = some σ) ∧ r = entry.2.resolve entry.1 σ := by
  obtain ⟨entry, hentry, hr⟩ := List.mem_filterMap.1 h
  rw [resolvent?] at hr
  split at hr
  · rename_i pattern hpattern
    obtain ⟨σ, hσ, rfl⟩ := Option.map_eq_some_iff.1 hr
    exact ⟨entry, index.trie.generalizations_subset fact hentry, σ,
      ⟨pattern, List.mem_of_getElem? hpattern, hσ⟩, rfl⟩
  · simp at hr

end RuleIndex

end Datalog
