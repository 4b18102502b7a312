import Datalog.Proofs.Engine.Registers

/-!
# Exact answers

A query to an engine is answered by exactly the known facts that a substitution makes of it, and
each of them is answered once. So it is for an index of any facts, of which the ground ones take
part: it may have been given a fact twice, and facts with variables.

## Main definitions

* `Atom.ExactAnswers` — the answers to a query out of some facts

## Main results

* `FactIndex.exactAnswers_ofFacts` — the answers of an index
* `Knowledge.Coherent.exactAnswers` — the answers of an index that was built from the register
* `Engine.answers_exact` — the answers of an engine after any calls, and of any index
-/

namespace Datalog

/-- The answers to the query are those of the facts that a substitution makes of it, each once. -/
structure Atom.ExactAnswers (query : Atom) (facts answers : List Atom) : Prop where
  /-- No fact is answered twice. -/
  nodup : answers.Nodup
  /-- An answer is a fact, and it is an instance of the query. -/
  mem_iff : ∀ a, a ∈ answers ↔ a ∈ facts ∧ ∃ σ, query.subst σ = a

namespace Atom.ExactAnswers

variable {query : Atom} {facts answers : List Atom}

/-- A query has an answer if there is a fact to answer it with. -/
theorem ne_nil_iff (h : query.ExactAnswers facts answers) :
    answers ≠ [] ↔ ∃ a ∈ facts, ∃ σ, query.subst σ = a := by
  refine ⟨fun hne => ?_, fun ⟨a, ha⟩ => List.ne_nil_of_mem ((h.mem_iff a).mpr ha)⟩
  obtain ⟨a, ha⟩ := List.exists_mem_of_ne_nil answers hne
  exact ⟨a, (h.mem_iff a).mp ha⟩

open Classical in
/-- The answers are, up to order, any list of the facts without repetitions, cut down to the
instances of the query. -/
theorem perm_filter (h : query.ExactAnswers facts answers) {listed : List Atom}
    (hnodup : listed.Nodup) (hlisted : ∀ a, a ∈ listed ↔ a ∈ facts) :
    answers.Perm (listed.filter fun a => ∃ σ, query.subst σ = a) := by
  rw [List.perm_ext_iff_of_nodup h.nodup (hnodup.filter _)]
  intro a
  rw [h.mem_iff, List.mem_filter, decide_eq_true_eq, hlisted]

end Atom.ExactAnswers

theorem FactIndex.nodup_facts (index : FactIndex) : index.facts.Nodup :=
  nodup_eraseDups _

/-- The answers of an index are exact for the ground facts among those it was given. -/
theorem FactIndex.exactAnswers_ofFacts (facts : List Atom) (query : Atom) :
    query.ExactAnswers (facts.filter Atom.isGround) ((ofFacts facts).answers query) where
  nodup := nodup_eraseDups _
  mem_iff a := by rw [mem_answers_ofFacts, List.mem_filter, and_assoc]

/-- Known facts are ground, so all of them take part. -/
theorem Knowledge.Coherent.exactAnswers {k : Knowledge} (hk : k.Coherent) (query : Atom) :
    query.ExactAnswers k.facts (k.factIndex.answers query) := by
  have h := FactIndex.exactAnswers_ofFacts k.facts query
  rwa [List.filter_eq_self.mpr hk.ground, ← hk.factIndex] at h

namespace Engine

theorem ask_eq_true_iff {e : Engine} {query : Atom} :
    e.ask query = true ↔ e.answers query ≠ [] := by
  simp [ask]

open Classical in
/-- After any calls, the answers to a query are exactly the known facts that a substitution makes of
it: no answer is given twice, they are the listed facts that pass this test, and to ask is to ask
whether there is one. The answers of an index are as exact for the ground facts among any facts that
it was given. -/
theorem answers_exact :
    (∀ (calls : List Call) (query : Atom),
      let e := empty.applyAll calls
      query.ExactAnswers e.knowledge.facts (e.answers query) ∧
        (e.answers query).Perm (e.facts.filter fun a => ∃ σ, query.subst σ = a) ∧
        (e.ask query = true ↔ ∃ a ∈ e.knowledge.facts, ∃ σ, query.subst σ = a)) ∧
    ∀ (facts : List Atom) (query : Atom),
      let index := FactIndex.ofFacts facts
      query.ExactAnswers (facts.filter Atom.isGround) (index.answers query) ∧
        (index.answers query).Perm
          ((index.facts.filter Atom.isGround).filter fun a => ∃ σ, query.subst σ = a) ∧
        (index.answers query ≠ [] ↔
          ∃ a ∈ facts, a.isGround = true ∧ ∃ σ, query.subst σ = a) := by
  refine ⟨fun calls query => ?engine, fun facts query => ?index⟩
  case engine =>
    -- The index of a reachable engine was built from its register.
    have hk := coherent_applyAll calls
    have h := hk.exactAnswers query
    have hlisted := fun a => hk.perm_listed.mem_iff (a := a)
    exact ⟨h, h.perm_filter (FactIndex.nodup_facts _) hlisted, ask_eq_true_iff.trans h.ne_nil_iff⟩
  case index =>
    have h := FactIndex.exactAnswers_ofFacts facts query
    refine ⟨h, h.perm_filter ((FactIndex.nodup_facts _).filter _) fun a => ?_, ?_⟩
    · rw [List.mem_filter, List.mem_filter, FactIndex.mem_facts_ofFacts]
    · rw [h.ne_nil_iff]
      simp only [List.mem_filter, and_assoc]

end Engine

end Datalog
