import Datalog.Proofs.Resolution

/-!
# Listing and querying facts

The index of facts lists what it was given, each fact once. A query is answered by the ground facts
that it can be made equal to, and every answer, although it is written by substituting in the query,
is such a fact itself.

## Main results

* `FactIndex.mem_facts_ofFacts` — the listed facts
* `FactIndex.mem_answers_ofFacts` — the answers to a query
* `FactIndex.answers_insert_of_ne` — facts of another predicate or arity have no influence on answers
-/

namespace Datalog.FactIndex

variable {facts : List Atom} {a query : Atom}

theorem mem_facts_ofFacts : a ∈ (ofFacts facts).facts ↔ a ∈ facts := by
  rw [FactIndex.facts, PatternTrie.mem_values, trie_ofFacts,
    (PatternTrie.contents_ofEntries _).mem_iff, List.map_map]
  simp

/-- The answers to a query are the ground facts that a substitution makes of it. -/
theorem mem_answers_ofFacts :
    a ∈ (ofFacts facts).answers query ↔
      a ∈ facts ∧ a.isGround = true ∧ ∃ σ, query.subst σ = a := by
  simp only [answers, List.mem_eraseDups, List.mem_filterMap, Option.map_eq_some_iff,
    (candidates_ofFacts facts query).mem_iff, List.mem_filter, decide_eq_true_eq]
  constructor
  -- An answer is the query under the substitution found, which is the fact itself.
  · rintro ⟨fact, ⟨hfact, hrefines⟩, σ, hσ, rfl⟩
    have hsubst := (Atom.unify?_sound hrefines.isGround hrefines.signature_eq hσ).1
    rw [hsubst]
    exact ⟨hfact, hrefines.isGround, σ, hsubst⟩
  · rintro ⟨ha, hground, σ, hsubst⟩
    have hrefines := Atom.refines_of_subst hground hsubst
    obtain ⟨τ, hτ⟩ := Atom.exists_unify? hground hsubst
    exact ⟨a, ⟨ha, hrefines⟩, τ, hτ, (Atom.unify?_sound hground hrefines.signature_eq hτ).1⟩

/-- A new fact of another predicate or arity changes neither the answers to a query nor their order. -/
theorem answers_insert_of_ne {index : FactIndex} (h : a.signature ≠ query.signature) :
    (index.insert a).answers query = index.answers query := by
  have hroot : (index.trie.insert a a).root query = index.trie.root query :=
    index.trie.root_insert_of_ne a fun hpredicate harity => h (Prod.ext hpredicate harity)
  simp only [answers, candidates, insert, PatternTrie.specializations, hroot]

end Datalog.FactIndex
