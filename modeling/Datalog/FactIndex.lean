import Datalog.PatternTrie
import Datalog.Rule
import Datalog.Unification

/-!
# Indexed facts

Facts stored under themselves in a pattern trie. The index answers queries and resolves the body
atoms of a rule against the stored facts. Only ground facts take part in that: a stored atom with a
variable is listed among the facts but never matched.

## Main definitions

* `FactIndex` — the index
* `FactIndex.insert` — stores a fact
* `FactIndex.facts` — the stored facts
* `FactIndex.answers` — the stored facts that match a query
* `FactIndex.resolvents` — the rules left when one body atom of a rule is matched by a stored fact

## Main results

* `FactIndex.mem_resolvents` — a resolvent comes from a body atom and a stored fact
* `FactIndex.length_resolvents_le` — how many resolvents there can be
-/

namespace Datalog

/-- Facts in a pattern trie, each stored under itself. -/
structure FactIndex where
  /-- The trie of facts. -/
  trie : PatternTrie Atom := {}

namespace FactIndex

/-- The index without facts. -/
def empty : FactIndex := {}

/-- Stores a fact. -/
def insert (index : FactIndex) (fact : Atom) : FactIndex := ⟨index.trie.insert fact fact⟩

/-- The stored facts, each once. -/
def facts (index : FactIndex) : List Atom := index.trie.values

/-- The ground facts that may match the pattern: those with its predicate, arity and constants. -/
def candidates (index : FactIndex) (pattern : Atom) : List Atom := index.trie.specializations pattern

/-- The stored facts that match the query, each once, written as the query with its variables
replaced. -/
def answers (index : FactIndex) (query : Atom) : List Atom :=
  ((index.candidates query).filterMap fun fact =>
    (query.unify? fact).map query.subst).eraseDups

/-- The rules that are left when the body atom `pattern` at position `i` is matched by a stored
fact. -/
def resolventsAt (index : FactIndex) (rule : Rule) (pattern : Atom) (i : Nat) : List Rule :=
  (index.candidates pattern).filterMap fun fact => (pattern.unify? fact).map (rule.resolve i)

/-- The rules that are left when one body atom of the rule is matched by a stored fact, body position
by body position. -/
def resolvents (index : FactIndex) (rule : Rule) : List Rule :=
  rule.body.zipIdx.flatMap fun entry => index.resolventsAt rule entry.1 entry.2

theorem mem_resolvents {index : FactIndex} {rule r : Rule} (h : r ∈ index.resolvents rule) :
    ∃ i fact σ, i < rule.body.length ∧ fact ∈ index.trie.contents ∧
      (∃ pattern ∈ rule.body, pattern.unify? fact = some σ) ∧ r = rule.resolve i σ := by
  obtain ⟨⟨pattern, i⟩, hpattern, hr⟩ := List.mem_flatMap.1 h
  obtain ⟨fact, hfact, hr⟩ := List.mem_filterMap.1 hr
  obtain ⟨σ, hσ, rfl⟩ := Option.map_eq_some_iff.1 hr
  have hi := List.mem_zipIdx' hpattern
  exact ⟨i, fact, σ, hi.1, index.trie.specializations_subset pattern hfact,
    ⟨pattern, hi.2 ▸ List.getElem_mem _, hσ⟩, rfl⟩

theorem length_resolvents_le (index : FactIndex) (rule : Rule) :
    (index.resolvents rule).length ≤ rule.body.length * index.trie.contents.length := by
  have bound : ∀ entries : List (Atom × Nat),
      (entries.flatMap fun entry => index.resolventsAt rule entry.1 entry.2).length ≤
        entries.length * index.trie.contents.length := by
    intro entries
    induction entries with
    | nil => simp
    | cons entry rest ih =>
      have here : (index.resolventsAt rule entry.1 entry.2).length ≤ index.trie.contents.length :=
        Nat.le_trans (List.length_filterMap_le _ _) (index.trie.length_specializations_le _)
      simp only [List.flatMap_cons, List.length_append, List.length_cons, Nat.add_mul,
        Nat.one_mul]
      omega
  simpa [resolvents] using bound rule.body.zipIdx

end FactIndex

end Datalog
