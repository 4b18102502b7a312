import Datalog.Proofs.Saturation.Registration
import Datalog.Proofs.Saturation.Worklist

/-!
# Each rule meets each fact once

A known rule and a known fact meet at every position of the rule's body whose atom the fact matches.
Working off an agenda makes each of these meetings happen exactly once: when the later of the two
becomes known, it is resolved against all earlier ones, and never again. What is put on the stack is
therefore, up to order, one resolvent for each meeting, and the number of steps can be told from the
meetings alone.

## Main definitions

* `Meeting` — a rule, a position in its body, and a fact that matches the atom there
* `Knowledge.meetings` — the meetings of the known rules and the known facts
* `Worklist.yielded` — the items that are put on the stack until nothing waits

## Main results

* `Knowledge.mem_meetings`, `Knowledge.nodup_meetings` — every meeting is listed, and listed once
* `Knowledge.Outcome.resolvents_perm` — registering an item yields the resolvents of the new meetings
* `Worklist.yielded_perm` — so does working off an agenda
* `Worklist.steps_saturate` — every item that waits or is yielded takes one step
-/

namespace Datalog

/-- A rule meets a fact: the atom at a position of its body is matched by the fact. -/
structure Meeting where
  /-- The rule. -/
  rule : Rule
  /-- The position of the atom in the body. -/
  position : Nat
  /-- The fact. -/
  fact : Atom
  /-- What makes the atom the fact. -/
  bindings : Substitution

namespace Meeting

/-- Who meets where. -/
def triple (m : Meeting) : Rule × Nat × Atom := (m.rule, m.position, m.fact)

/-- The rule that is left. -/
def resolvent (m : Meeting) : Rule := m.rule.resolve m.position m.bindings

end Meeting

/-- The meeting of `r` with `a` at the body atom and position `entry`, if the two have the same
predicate and arity and unify. -/
def Rule.meeting? (r : Rule) (entry : Atom × Nat) (a : Atom) : Option Meeting :=
  if entry.1.signature = a.signature then (entry.1.unify? a).map (⟨r, entry.2, a, ·⟩) else none

theorem Rule.meeting?_eq_some_iff {r : Rule} {entry : Atom × Nat} {a : Atom} {m : Meeting} :
    r.meeting? entry a = some m ↔ m.triple = (r, entry.2, a) ∧
      entry.1.signature = a.signature ∧ entry.1.unify? a = some m.bindings := by
  obtain ⟨r', i, a', σ⟩ := m
  rw [meeting?]
  split
  · rename_i hsignature
    simp only [Option.map_eq_some_iff, Meeting.mk.injEq, Meeting.triple, Prod.mk.injEq, hsignature,
      true_and]
    constructor
    · rintro ⟨τ, hτ, rfl, rfl, rfl, rfl⟩
      exact ⟨⟨rfl, rfl, rfl⟩, hτ⟩
    · rintro ⟨⟨rfl, rfl, rfl⟩, hσ⟩
      exact ⟨σ, hσ, rfl, rfl, rfl, rfl⟩
  · rename_i hsignature
    simp [hsignature]

/-- What a meeting leaves is what resolution leaves. -/
theorem Rule.map_resolvent_meeting? (r : Rule) (entry : Atom × Nat) (a : Atom) :
    (r.meeting? entry a).map Meeting.resolvent = r.resolveWith? entry a := by
  rw [meeting?, resolveWith?]
  split
  · rw [Option.map_map]
    rfl
  · rfl

/-! ### All meetings -/

namespace Knowledge

/-- The meetings of some rules with some facts. -/
def meetingsOf (rules : List Rule) (facts : List Atom) : List Meeting :=
  rules.flatMap fun r => r.body.zipIdx.flatMap fun entry => facts.filterMap (r.meeting? entry)

/-- The meetings of the known rules with the known facts. -/
def meetings (k : Knowledge) : List Meeting := meetingsOf k.rules k.facts

/-- The rules that the meetings leave, one for each meeting. -/
def resolvents (k : Knowledge) : List Rule := k.meetings.map Meeting.resolvent

theorem mem_meetings {k : Knowledge} {m : Meeting} :
    m ∈ k.meetings ↔ m.rule ∈ k.rules ∧ m.fact ∈ k.facts ∧
      ∃ p, m.rule.body[m.position]? = some p ∧ p.signature = m.fact.signature ∧
        p.unify? m.fact = some m.bindings := by
  simp only [meetings, meetingsOf, List.mem_flatMap, List.mem_filterMap,
    Rule.meeting?_eq_some_iff, List.mem_zipIdx_iff_getElem?]
  constructor
  · rintro ⟨r, hr, ⟨p, i⟩, hp, a, ha, htriple, hmatch⟩
    obtain ⟨rfl, rfl, rfl⟩ : m.rule = r ∧ m.position = i ∧ m.fact = a := by
      simpa [Meeting.triple] using htriple
    exact ⟨hr, ha, p, hp, hmatch⟩
  · rintro ⟨hr, ha, p, hp, hmatch⟩
    exact ⟨m.rule, hr, (p, m.position), hp, m.fact, ha, rfl, hmatch⟩

/-- Nobody meets twice at one place. -/
theorem nodup_meetings {k : Knowledge} (hk : k.Coherent) :
    (k.meetings.map Meeting.triple).Nodup := by
  rw [List.nodup_iff_pairwise_ne, List.pairwise_map, meetings, meetingsOf, List.pairwise_flatMap]
  have hmember : ∀ {r : Rule} {entry : Atom × Nat} {m : Meeting},
      m ∈ k.facts.filterMap (r.meeting? entry) → ∃ a, m.triple = (r, entry.2, a) := by
    intro r entry m hm
    obtain ⟨a, -, hm⟩ := List.mem_filterMap.mp hm
    exact ⟨a, (Rule.meeting?_eq_some_iff.mp hm).1⟩
  constructor
  -- Within a rule, meetings differ in the position or in the fact.
  · intro r _
    rw [List.pairwise_flatMap]
    constructor
    · intro entry _
      rw [List.pairwise_filterMap]
      refine (List.nodup_iff_pairwise_ne.mp hk.nodup_facts).imp fun hne m hm m' hm' same => ?_
      rw [(Rule.meeting?_eq_some_iff.mp hm).1, (Rule.meeting?_eq_some_iff.mp hm').1] at same
      simp only [Prod.mk.injEq, true_and] at same
      exact hne same
    · have hpositions : r.body.zipIdx.Pairwise fun e e' => e.2 ≠ e'.2 := by
        rw [← List.pairwise_map, ← List.nodup_iff_pairwise_ne]
        exact r.nodup_positions
      refine hpositions.imp fun hne m hm m' hm' same => ?_
      obtain ⟨a, ha⟩ := hmember hm
      obtain ⟨a', ha'⟩ := hmember hm'
      rw [ha, ha'] at same
      simp only [Prod.mk.injEq, true_and] at same
      exact hne same.1
  · refine (List.nodup_iff_pairwise_ne.mp hk.nodup_rules).imp fun hne m hm m' hm' same => ?_
    obtain ⟨entry, -, hm⟩ := List.mem_flatMap.mp hm
    obtain ⟨entry', -, hm'⟩ := List.mem_flatMap.mp hm'
    obtain ⟨a, ha⟩ := hmember hm
    obtain ⟨a', ha'⟩ := hmember hm'
    rw [ha, ha'] at same
    exact hne (Prod.mk.inj same).1

/-- The resolvents, in terms of resolution. -/
theorem resolvents_eq (k : Knowledge) :
    k.resolvents = k.rules.flatMap fun r => r.body.zipIdx.flatMap fun entry =>
      k.facts.filterMap (r.resolveWith? entry) := by
  simp only [resolvents, meetings, meetingsOf, List.map_flatMap, List.map_filterMap,
    Rule.map_resolvent_meeting?]

theorem resolvents_addFact (k : Knowledge) (a : Atom) :
    (k.addFact a).resolvents.Perm
      (k.resolvents ++ k.rules.flatMap fun r =>
        r.body.zipIdx.filterMap fun entry => r.resolveWith? entry a) := by
  rw [resolvents_eq, resolvents_eq, facts_addFact, rules_addFact]
  refine List.Perm.trans (List.Perm.flatMap_left _ fun r _ => ?_)
    (List.flatMap_append_perm _ _ _).symm
  rw [List.filterMap_eq_flatMap_toList]
  refine List.Perm.trans (List.Perm.of_eq ?_) (List.flatMap_append_perm _ _ _).symm
  refine List.flatMap_congr fun entry _ => ?_
  rw [List.filterMap_append]
  cases h : r.resolveWith? entry a <;> simp [h]

theorem resolvents_addRule (k : Knowledge) (r : Rule) :
    (k.addRule r).resolvents = k.resolvents ++ r.body.zipIdx.flatMap fun entry =>
      k.facts.filterMap (r.resolveWith? entry) := by
  rw [resolvents_eq, resolvents_eq, facts_addRule, rules_addRule, List.flatMap_append,
    List.flatMap_singleton]

/-- What registering an item yields is what the new meetings leave. -/
theorem Outcome.resolvents_perm {k k' : Knowledge} {item : Item} {derived : List Rule}
    (hk : k.Coherent) (h : Outcome k item k' derived) :
    k'.resolvents.Perm (k.resolvents ++ derived) := by
  cases h with
  | settled => rw [List.append_nil]
  | newFact a _ hground =>
    have hderived := RuleIndex.resolvents_ofRules k.rules hground
    rw [← hk.ruleIndex] at hderived
    exact (k.resolvents_addFact a).trans (hderived.symm.append_left _)
  | newRule r _ _ _ =>
    have hderived := FactIndex.resolvents_ofFacts k.facts r
    rw [← hk.factIndex, List.filter_eq_self.mpr hk.ground] at hderived
    rw [resolvents_addRule]
    exact hderived.symm.append_left _

end Knowledge

/-! ### What is put on the stack -/

namespace Worklist

/-- The items that are put on the stack until nothing waits: each step takes one item off, and what
stands above the others afterwards is new. -/
def yielded (w : Worklist) : List Item :=
  match _hstep : w.step? with
  | none => []
  | some w' => w'.stack.drop (w.stack.length - 1) ++ yielded w'
termination_by w.remaining
decreasing_by exact remaining_less _hstep

theorem yielded_of_step?_eq_some {w w' : Worklist} (h : w.step? = some w') :
    w.yielded = w'.stack.drop (w.stack.length - 1) ++ w'.yielded := by
  rw [yielded]
  split
  · rename_i hnone
    simp [h] at hnone
  · rename_i hsome
    rw [Option.some.inj (h.symm.trans hsome)]

@[simp] theorem yielded_start_nil (run : Run) : (start run []).yielded = [] := by
  rw [yielded]
  split
  · rfl
  · rename_i h
    simp [start, step?] at h

theorem yielded_start_cons (run : Run) (item : Item) (rest : List Item) :
    (start run (item :: rest)).yielded =
      ((run.knowledge.register item).derived.map Item.rule).reverse ++
        (start (run.after (run.knowledge.register item))
          ((run.knowledge.register item).derived.map Item.rule ++ rest)).yielded := by
  rw [yielded_of_step?_eq_some (step?_start_cons run item rest)]
  simp [start]

/-- Every item that waits or is yielded takes one step. -/
theorem steps_saturate (run : Run) (agenda : List Item) :
    (saturate run agenda).steps = run.steps + agenda.length + (start run agenda).yielded.length := by
  fun_induction saturate run agenda with
  | case1 run => simp
  | case2 run item rest registration ih =>
    rw [ih, yielded_start_cons, Run.after]
    simp only [List.length_append, List.length_reverse, List.length_cons, registration]
    omega

/-- What is put on the stack is what the new meetings leave. -/
theorem yielded_perm (run : Run) (agenda : List Item) (hk : run.knowledge.Coherent) :
    ((saturate run agenda).knowledge.resolvents.map Item.rule).Perm
      (run.knowledge.resolvents.map Item.rule ++ (start run agenda).yielded) := by
  fun_induction saturate run agenda with
  | case1 run => simp
  | case2 run item rest registration ih =>
    have houtcome := run.knowledge.register_cases item
    have hstep := (houtcome.resolvents_perm hk).map Item.rule
    rw [List.map_append] at hstep
    refine (ih (hk.outcome houtcome)).trans ((hstep.append_right _).trans ?_)
    rw [yielded_start_cons, List.append_assoc]
    exact ((List.reverse_perm _).symm.append_right _).append_left _

end Worklist

end Datalog
