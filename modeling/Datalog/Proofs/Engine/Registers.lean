import Datalog.Proofs.Engine.Batches

/-!
# Registers and indices stay in step

An engine keeps every known fact twice, in a register and in an index, and every known rule once in a
register and once for each atom of its body in an index. Between any two steps of the work, and not
only when a push is done, the two hold the same: each thing that is registered is indexed exactly once
wherever it belongs, and the indices hold nothing else.

## Main definitions

* `Knowledge.InStep` — what the indices hold, told by the registers
* `Engine.IsMoment` — an engine between two steps of the work

## Main results

* `Knowledge.Coherent.inStep` — indices that were built from the registers are in step with them
* `Engine.registers_in_step` — so are those of an engine at every moment
-/

namespace Datalog

/-! ### What the indices hold -/

namespace FactIndex

variable {facts : List Atom}

theorem map_snd_entries (facts : List Atom) : (facts.map fun a => (a, a)).map Prod.snd = facts := by
  rw [List.map_map]
  exact List.map_id facts

theorem contents_ofFacts (facts : List Atom) : (ofFacts facts).trie.contents.Perm facts := by
  rw [trie_ofFacts]
  exact (PatternTrie.contents_ofEntries _).trans (List.Perm.of_eq (map_snd_entries facts))

theorem mem_valuesAt_ofFacts {q a : Atom} :
    a ∈ (ofFacts facts).trie.valuesAt q ↔ a ∈ facts ∧ a.SamePattern q := by
  rw [trie_ofFacts, PatternTrie.mem_valuesAt_ofEntries]
  simp

theorem nodup_valuesAt_ofFacts (h : facts.Nodup) (q : Atom) :
    ((ofFacts facts).trie.valuesAt q).Nodup := by
  rw [trie_ofFacts]
  exact PatternTrie.nodup_valuesAt_ofEntries ((map_snd_entries facts).symm ▸ h) q

end FactIndex

namespace RuleIndex

variable {rules : List Rule} {i : Nat} {r : Rule}

theorem mem_contents_ofRules :
    (i, r) ∈ (ofRules rules).trie.contents ↔ r ∈ rules ∧ i < r.body.length := by
  rw [trie_ofRules, (PatternTrie.contents_ofEntries _).mem_iff]
  simp only [List.mem_map, List.mem_flatMap, Prod.exists, Rule.mem_entries]
  constructor
  · rintro ⟨p, j, s, ⟨s, hs, hp, rfl⟩, hsame⟩
    obtain ⟨rfl, rfl⟩ := Prod.mk.inj hsame
    exact ⟨hs, (List.getElem?_eq_some_iff.mp hp).1⟩
  · rintro ⟨hr, hi⟩
    exact ⟨r.body[i], i, r, ⟨r, hr, List.getElem?_eq_getElem hi, rfl⟩, rfl⟩

theorem nodup_contents_ofRules (h : rules.Nodup) : (ofRules rules).trie.contents.Nodup := by
  rw [trie_ofRules]
  exact (PatternTrie.contents_ofEntries _).nodup_iff.mpr (Rule.nodup_entries h)

theorem mem_valuesAt_ofRules {q : Atom} :
    (i, r) ∈ (ofRules rules).trie.valuesAt q ↔
      r ∈ rules ∧ ∃ p ∈ r.body[i]?, p.SamePattern q := by
  rw [trie_ofRules, PatternTrie.mem_valuesAt_ofEntries]
  simp only [List.mem_flatMap, Prod.exists, Rule.mem_entries]
  constructor
  · rintro ⟨p, j, s, ⟨s, hs, hp, rfl⟩, hpattern, hsame⟩
    obtain ⟨rfl, rfl⟩ := Prod.mk.inj hsame
    exact ⟨hs, p, hp, hpattern⟩
  · rintro ⟨hr, p, hp, hpattern⟩
    exact ⟨p, i, r, ⟨r, hr, hp, rfl⟩, hpattern, rfl⟩

theorem nodup_valuesAt_ofRules (h : rules.Nodup) (q : Atom) :
    ((ofRules rules).trie.valuesAt q).Nodup := by
  rw [trie_ofRules]
  exact PatternTrie.nodup_valuesAt_ofEntries (Rule.nodup_entries h) q

end RuleIndex

namespace Knowledge

/-- The indices hold what the registers hold: every known fact once, under its own pattern; every known
rule once for each atom of its body, with the position and under the pattern of the atom; and nothing
else. -/
structure InStep (k : Knowledge) : Prop where
  /-- Known facts are ground. -/
  ground : ∀ a ∈ k.facts, a.isGround = true
  /-- Known rules have a body. -/
  body_ne_nil : ∀ r ∈ k.rules, r.body ≠ []
  /-- A known fact is stored once, and nothing else is stored. -/
  count_facts : ∀ a, k.factIndex.trie.contents.count a = if a ∈ k.facts then 1 else 0
  /-- It is stored under its own pattern. -/
  count_factsAt : ∀ q a, (k.factIndex.trie.valuesAt q).count a =
    if a ∈ k.facts ∧ a.SamePattern q then 1 else 0
  /-- A known rule is stored once with every position of its body, and nothing else is stored. -/
  count_rules : ∀ i r, k.ruleIndex.trie.contents.count (i, r) =
    if r ∈ k.rules ∧ i < r.body.length then 1 else 0
  /-- It is stored there under the pattern of the atom at that position. -/
  count_rulesAt : ∀ q i r, (k.ruleIndex.trie.valuesAt q).count (i, r) =
    if r ∈ k.rules ∧ ∃ p ∈ r.body[i]?, p.SamePattern q then 1 else 0

/-- Indices that were built from the registers are in step with them. -/
theorem Coherent.inStep {k : Knowledge} (hk : k.Coherent) : k.InStep where
  ground := hk.ground
  body_ne_nil := hk.body_ne_nil
  count_facts a := by
    rw [hk.factIndex, (FactIndex.contents_ofFacts k.facts).count_eq, hk.nodup_facts.count]
  count_factsAt q a := by
    rw [hk.factIndex, (FactIndex.nodup_valuesAt_ofFacts hk.nodup_facts q).count]
    exact if_congr FactIndex.mem_valuesAt_ofFacts rfl rfl
  count_rules i r := by
    rw [hk.ruleIndex, (RuleIndex.nodup_contents_ofRules hk.nodup_rules).count]
    exact if_congr RuleIndex.mem_contents_ofRules rfl rfl
  count_rulesAt q i r := by
    rw [hk.ruleIndex, (RuleIndex.nodup_valuesAt_ofRules hk.nodup_rules q).count]
    exact if_congr RuleIndex.mem_valuesAt_ofRules rfl rfl

/-- The index lists the register. -/
theorem Coherent.perm_listed {k : Knowledge} (hk : k.Coherent) : k.factIndex.facts.Perm k.facts := by
  rw [FactIndex.facts, PatternTrie.values]
  have hcontents := FactIndex.contents_ofFacts k.facts
  rw [← hk.factIndex] at hcontents
  rw [eraseDups_of_nodup (hcontents.nodup_iff.mpr hk.nodup_facts)]
  exact hcontents

end Knowledge

/-! ### Every moment -/

/-- What every registration preserves holds after any number of steps of the machine. -/
theorem Worklist.after_induction {P : Knowledge → Prop}
    (step : ∀ k item, P k → P (k.register item).knowledge) {n : Nat} {w w' : Worklist}
    (h : w.after n = some w') (hw : P w.run.knowledge) : P w'.run.knowledge := by
  induction n generalizing w with
  | zero => exact Option.some.inj h ▸ hw
  | succ n ih =>
    obtain ⟨next, hnext, hafter⟩ := Option.bind_eq_some_iff.mp h
    refine ih hafter ?_
    obtain ⟨run, items, rfl⟩ : ∃ run items, w = start run items := ⟨_, _, w.eq_start⟩
    cases items with
    | nil => simp [start, step?] at hnext
    | cons item rest =>
      rw [step?_start_cons, Option.some.injEq] at hnext
      exact hnext ▸ step _ item hw

namespace Engine

/-- The engine is one between two steps of the work: some calls were made, and a number of steps was
done for one more. -/
def IsMoment (e : Engine) : Prop :=
  ∃ (calls : List Call) (call : Call) (n : Nat) (w : Worklist),
    ((call.target (empty.applyAll calls)).worklist call.items).after n = some w ∧
      e = { call.target (empty.applyAll calls) with knowledge := w.run.knowledge }

/-- The engine after some calls is at the first moment of a call that pushes nothing. -/
theorem isMoment_applyAll (calls : List Call) : (empty.applyAll calls).IsMoment :=
  ⟨calls, .pushFacts [], 0, _, rfl, rfl⟩

theorem IsMoment.coherent {e : Engine} (h : e.IsMoment) : e.knowledge.Coherent := by
  obtain ⟨calls, call, n, w, hafter, rfl⟩ := h
  refine Worklist.after_induction (P := Knowledge.Coherent)
    (fun k item hk => hk.outcome (k.register_cases item)) hafter ?_
  exact coherent_target (coherent_applyAll calls) call

/-- At every moment, also after every call, the indices of an engine hold what its registers hold, each
thing exactly once and nothing else. The listed facts are therefore the facts of the register, without
repetitions, and there are as many of them as are counted. -/
theorem registers_in_step :
    (∀ calls, (empty.applyAll calls).IsMoment) ∧
      ∀ e : Engine, e.IsMoment →
        e.knowledge.InStep ∧ e.facts.Nodup ∧ e.facts.Perm e.knowledge.facts ∧
          e.facts.length = e.factCount := by
  refine ⟨isMoment_applyAll, fun e h => ?_⟩
  have hlisted := h.coherent.perm_listed
  exact ⟨h.coherent.inStep, hlisted.nodup_iff.mpr h.coherent.nodup_facts, hlisted,
    hlisted.length_eq⟩

/-- A rule and a fact have been registered, and what they yield still waits. -/
theorem registers_in_step_midway :
    let edge : Atom := ⟨"edge", [.const "a", .const "b"]⟩
    let path : Rule := ⟨⟨"path", [.var "?x", .var "?y"]⟩, [⟨"edge", [.var "?x", .var "?y"]⟩]⟩
    let call : Call := .pushProgram ⟨[path], [edge]⟩
    ∃ w, ((call.target empty).worklist call.items).after 2 = some w ∧
      w.stack = [.rule ⟨⟨"path", [.const "a", .const "b"]⟩, []⟩] ∧
      let e : Engine := { call.target empty with knowledge := w.run.knowledge }
      e.IsMoment ∧ e.knowledge.InStep ∧ e.facts.Nodup ∧ e.facts.Perm e.knowledge.facts ∧
        e.facts.length = e.factCount := by
  intro edge path call
  have hstack : (((call.target empty).worklist call.items).after 2).map Worklist.stack =
      some [.rule ⟨⟨"path", [.const "a", .const "b"]⟩, []⟩] := by decide
  obtain ⟨w, hafter, hstack⟩ := Option.map_eq_some_iff.mp hstack
  have hmoment : IsMoment { call.target empty with knowledge := w.run.knowledge } :=
    ⟨[], call, 2, w, hafter, rfl⟩
  exact ⟨w, hafter, hstack, hmoment, registers_in_step.2 _ hmoment⟩

end Engine

end Datalog
