import Datalog.Proofs.Queries
import Datalog.Proofs.Saturation.Registration
import Mathlib.Order.Bounds.Basic

/-!
# What saturation arrives at

Working off an agenda arrives at a closure: everything given is settled, every resolvent of a known
rule with a known fact is settled, and nothing is known that a model could do without. While the work
is going on, what is not settled yet waits on the agenda. A resolvent is never forgotten, because it
goes to the agenda when the later one of its rule and its fact becomes known.

## Main definitions

* `Knowledge.Pending` — the invariant for completeness: what is not settled is on the agenda
* `Knowledge.Justified` — the invariant for soundness: what is known follows from what is given
* `Knowledge.IsClosure` — what holds when the agenda is empty

## Main results

* `Knowledge.IsClosure.saturate` — pushing more items onto a closure gives a closure of everything
* `Knowledge.IsClosure.isLeast` — the known facts are the least model
* `Knowledge.IsClosure.mem_rules_iff` — the known rules are the residuals of the given rules
-/

namespace Datalog

theorem Item.Settled.mono {k k' : Knowledge} {item : Item} (h : item.Settled k)
    (hfacts : k.facts ⊆ k'.facts) (hrules : k.rules ⊆ k'.rules) : item.Settled k' where
  fact a ha hground := hfacts (h.fact a ha hground)
  rule r hr hbody := hrules (h.rule r hr hbody)

namespace Knowledge

/-- An item is settled, or it waits on the agenda. -/
def Covered (k : Knowledge) (agenda : List Item) (item : Item) : Prop :=
  item.Settled k ∨ item ∈ agenda

/-- Nothing that has to become known has been lost. -/
structure Pending (given : List Item) (k : Knowledge) (agenda : List Item) : Prop where
  /-- Registers and indices are in step. -/
  coherent : k.Coherent
  /-- Every given item is settled or waits. -/
  given : ∀ item ∈ given, k.Covered agenda item
  /-- Every resolvent of a known rule with a known fact is settled or waits. -/
  resolvents : ∀ r ∈ k.rules, ∀ a ∈ k.facts, ∀ s, r.Resolvent a s → k.Covered agenda (.rule s)

/-- Everything known or waiting follows from what is given, by resolution against members of `M`. -/
structure Justified (given : List Item) (M : Set Atom) (k : Knowledge) (agenda : List Item) :
    Prop where
  /-- Registers and indices are in step. -/
  coherent : k.Coherent
  /-- Known facts are members of `M`. -/
  facts : ∀ a ∈ k.facts, a ∈ M
  /-- Known rules follow. -/
  rules : ∀ r ∈ k.rules, (Item.rule r).FollowsFrom given M
  /-- Waiting items follow. -/
  agenda : ∀ item ∈ agenda, item.FollowsFrom given M

section Step

variable {k k' : Knowledge} {given agenda rest : List Item} {item : Item} {derived : List Rule}
variable {M : Set Atom}

/-- Registering the first item of the agenda settles it and moves nothing else off the agenda. -/
theorem Covered.outcome {other : Item} (hcovered : k.Covered (item :: rest) other)
    (h : Outcome k item k' derived) : k'.Covered (derived.map Item.rule ++ rest) other := by
  rcases hcovered with hsettled | hmem
  · exact Or.inl (hsettled.mono h.facts_subset h.rules_subset)
  · rcases List.mem_cons.mp hmem with rfl | hmem
    · exact Or.inl h.settles
    · exact Or.inr (List.mem_append_right _ hmem)

theorem covered_of_mem_derived {s : Rule} (h : s ∈ derived) :
    k.Covered (derived.map Item.rule ++ rest) (.rule s) :=
  Or.inr (List.mem_append_left _ (List.mem_map_of_mem h))

/-- The rules that a registration yields are the resolvents that it makes possible. -/
theorem Outcome.covered_resolvent (hk : k.Coherent) (h : Outcome k item k' derived)
    {r s : Rule} {a : Atom} (hr : r ∈ k'.rules) (ha : a ∈ k'.facts) (hs : r.Resolvent a s) :
    (r ∈ k.rules ∧ a ∈ k.facts) ∨ s ∈ derived := by
  cases h with
  | settled => exact Or.inl ⟨hr, ha⟩
  -- A new fact meets the rules that are known, which its look-up finds.
  | newFact b _ hground =>
    rw [facts_addFact, List.mem_append, List.mem_singleton] at ha
    rcases ha with ha | rfl
    · exact Or.inl ⟨hr, ha⟩
    · refine Or.inr ?_
      rw [hk.ruleIndex, RuleIndex.mem_resolvents_ofRules hground]
      exact ⟨r, hr, hs⟩
  -- A new rule meets the facts that are known.
  | newRule r' _ _ _ =>
    rw [rules_addRule, List.mem_append, List.mem_singleton] at hr
    rcases hr with hr | rfl
    · exact Or.inl ⟨hr, ha⟩
    · refine Or.inr ?_
      rw [hk.factIndex, FactIndex.mem_resolvents_ofFacts hk.ground]
      exact ⟨a, ha, hs⟩

theorem Pending.outcome (hk : Pending given k (item :: rest)) (h : Outcome k item k' derived) :
    Pending given k' (derived.map Item.rule ++ rest) where
  coherent := hk.coherent.outcome h
  given other hother := (hk.given other hother).outcome h
  resolvents r hr a ha s hs := by
    rcases h.covered_resolvent hk.coherent hr ha hs with ⟨hr, ha⟩ | hderived
    · exact (hk.resolvents r hr a ha s hs).outcome h
    · exact covered_of_mem_derived hderived

theorem Justified.outcome (hM : IsModel (statedFacts given) (properRules given) M)
    (hk : Justified given M k (item :: rest)) (h : Outcome k item k' derived) :
    Justified given M k' (derived.map Item.rule ++ rest) := by
  have hitem : item.FollowsFrom given M := hk.agenda item List.mem_cons_self
  have hfacts : ∀ a ∈ k'.facts, a ∈ M := by
    cases h with
    | newFact a hstatement hground =>
      have ha : a ∈ M := hM.mem_of_statement hitem hstatement hground
      exact List.forall_mem_append.mpr ⟨hk.facts, by simpa using ha⟩
    | _ => exact hk.facts
  have hrules : ∀ r ∈ k'.rules, (Item.rule r).FollowsFrom given M := by
    cases h with
    | newRule r hr =>
      subst hr
      exact List.forall_mem_append.mpr ⟨hk.rules, by simpa using hitem⟩
    | _ => exact hk.rules
  refine ⟨hk.coherent.outcome h, hfacts, hrules, List.forall_mem_append.mpr ⟨?_, ?_⟩⟩
  · refine List.forall_mem_map.mpr fun s hs => ?_
    obtain ⟨r, hr, a, ha, hresolvent⟩ := h.exists_resolvent hk.coherent hs
    exact (hrules r hr).resolvent (hfacts a ha) hresolvent
  · exact fun other hother => hk.agenda other (List.mem_cons_of_mem _ hother)

end Step

/-! ### Closures -/

/-- What is known is complete, and every model of what is given has to agree with it. -/
structure IsClosure (given : List Item) (k : Knowledge) : Prop where
  /-- Everything that has to be known is known. -/
  pending : Pending given k []
  /-- Nothing is known that does not follow. -/
  justified : ∀ M, IsModel (statedFacts given) (properRules given) M → Justified given M k []

theorem isClosure_empty : IsClosure [] empty where
  pending := ⟨coherent_empty, by simp, by simp [empty]⟩
  justified M _ := ⟨coherent_empty, by simp [empty], by simp [empty], by simp⟩

/-- Pushing items onto a closure gives a closure of everything that was given. -/
theorem IsClosure.saturate {given : List Item} (run : Run) (h : IsClosure given run.knowledge)
    (items : List Item) : IsClosure (given ++ items) (Datalog.saturate run items).knowledge where
  pending := by
    refine saturate_induction (P := Pending (given ++ items))
      (fun k item rest hk => hk.outcome (k.register_cases item)) ⟨h.pending.coherent, ?_, ?_⟩
    -- What was given before is settled already, and the rest waits.
    · intro item hitem
      rcases List.mem_append.mp hitem with hitem | hitem
      · exact (h.pending.given item hitem).imp_right fun hmem => by simp at hmem
      · exact Or.inr hitem
    · intro r hr a ha s hs
      exact (h.pending.resolvents r hr a ha s hs).imp_right fun hmem => by simp at hmem
  justified M hM := by
    -- A model of everything given is a model of what was given before.
    have hgiven : given ⊆ given ++ items := List.subset_append_left _ _
    have hold := h.justified M (hM.anti (statedFacts_mono hgiven) (properRules_mono hgiven))
    refine saturate_induction (P := Justified (given ++ items) M)
      (fun k item rest hk => hk.outcome hM (k.register_cases item))
      ⟨hold.coherent, hold.facts, fun r hr => (hold.rules r hr).mono hgiven, fun item hitem => ?_⟩
    exact Item.FollowsFrom.of_mem (List.mem_append_right _ hitem)

namespace IsClosure

variable {given : List Item} {k : Knowledge}

/-- Whatever resolution against known facts makes of a given rule is settled. -/
theorem settled_of_reduces (h : IsClosure given k) {r s : Rule} (hr : .rule r ∈ given)
    (hreduces : r.Reduces {a | a ∈ k.facts} s) : (Item.rule s).Settled k := by
  have settled : ∀ {item : Item}, k.Covered [] item → item.Settled k := fun hcovered =>
    hcovered.resolve_right List.not_mem_nil
  induction hreduces with
  | refl => exact settled (h.pending.given _ hr)
  | @tail t u _ hstep ih =>
    obtain ⟨a, ha, hresolvent⟩ := hstep
    -- A rule that has a resolvent has a body, so being settled means that it is known.
    have hbody : t.body ≠ [] := by
      obtain ⟨entry, hentry, -⟩ := hresolvent
      rintro hnil
      simp [hnil] at hentry
    exact settled (h.pending.resolvents t (ih.rule t rfl hbody) a ha u hresolvent)

theorem isModel (h : IsClosure given k) :
    IsModel (statedFacts given) (properRules given) {a | a ∈ k.facts} where
  ground := h.pending.coherent.ground
  stated := by
    rintro a ⟨hground, item, hitem, hstatement⟩
    exact ((h.pending.given item hitem).resolve_right List.not_mem_nil).fact a hstatement hground
  closed := by
    rintro r ⟨-, hr⟩ σ hbinds hbody hground
    have hreduces := (Rule.reduces_conclusion_iff h.pending.coherent.ground).mpr
      ⟨σ, hbinds, hbody, rfl⟩
    exact (h.settled_of_reduces hr hreduces).fact _
      (Item.statement?_rule_eq_some_iff.mpr rfl) hground

/-- The known facts are the least model of what was given. -/
theorem isLeast (h : IsClosure given k) :
    IsLeast {M | IsModel (statedFacts given) (properRules given) M} {a | a ∈ k.facts} :=
  ⟨h.isModel, fun M hM => (h.justified M hM).facts⟩

/-- The known rules are the residuals of the given rules against the known facts. -/
theorem mem_rules_iff (h : IsClosure given k) {s : Rule} :
    s ∈ k.rules ↔ ∃ r ∈ properRules given, r.IsResidual {a | a ∈ k.facts} s := by
  have hground := h.pending.coherent.ground
  constructor
  · intro hs
    -- The known facts are themselves a model, so known rules follow by resolution against them.
    obtain ⟨r, hr, hreduces⟩ := (h.justified _ h.isModel).rules s hs
    have hbody := h.pending.coherent.body_ne_nil s hs
    have hbody' : r.body ≠ [] := fun hnil => hbody (hreduces.eq_of_body_eq_nil hnil ▸ hnil)
    exact ⟨r, ⟨hbody', hr⟩, (Rule.isResidual_iff hground).mpr ⟨hreduces, hbody⟩⟩
  · rintro ⟨r, ⟨-, hr⟩, hresidual⟩
    obtain ⟨hreduces, hbody⟩ := (Rule.isResidual_iff hground).mp hresidual
    exact (h.settled_of_reduces hr hreduces).rule s rfl hbody

/-- The index lists the facts of the register. -/
theorem mem_listed_iff (h : IsClosure given k) {a : Atom} : a ∈ k.factIndex.facts ↔ a ∈ k.facts := by
  rw [h.pending.coherent.factIndex, FactIndex.mem_facts_ofFacts]

/-- A query is answered by the known facts that a substitution makes of it. -/
theorem mem_answers_iff (h : IsClosure given k) {query a : Atom} :
    a ∈ k.factIndex.answers query ↔ a ∈ k.facts ∧ ∃ σ, query.subst σ = a := by
  rw [h.pending.coherent.factIndex, FactIndex.mem_answers_ofFacts]
  constructor
  · rintro ⟨ha, -, hσ⟩
    exact ⟨ha, hσ⟩
  · rintro ⟨ha, hσ⟩
    exact ⟨ha, h.pending.coherent.ground a ha, hσ⟩

end IsClosure

end Knowledge

end Datalog
