import Datalog.Proofs.Engine.Batches

/-!
# What a push can touch

A push leads from one conclusion to the next, and each of them goes to the registers and the indices
that everything shares. Still it stays among the predicates that depend on what is pushed. A
conclusion has the predicate and the arity of a head, the head of a pushed rule or of a known one, and
for a known rule to conclude anything new, some atom of its body has to match a new fact. Queries for
other predicates, or for another number of arguments, are answered as before, down to the order of
the answers.

## Main definitions

* `IsAffected` — the predicates, with an arity, that depend on what is pushed
* `Knowledge.Confined` — the invariant: everything new is affected, and so is all that it leads to

## Main results

* `Knowledge.Confined.outcome` — registering an item does not leave the affected predicates
* `Engine.answers_of_not_affected` — a push does not change the answers to any other query
-/

namespace Datalog

/-- The signatures that depend on what is pushed: those of pushed facts and of the heads of pushed rules,
and, where `known` rules and pushed ones have an affected atom in the body, those of their heads. -/
inductive IsAffected (known : List Rule) (items : List Item) : String × Nat → Prop where
  /-- A fact is pushed. -/
  | fact {a : Atom} (ha : .fact a ∈ items) : IsAffected known items a.signature
  /-- A rule is pushed. -/
  | head {r : Rule} (hr : .rule r ∈ items) : IsAffected known items r.head.signature
  /-- A rule has an affected atom in its body. -/
  | depends {r : Rule} {b : Atom} (hr : r ∈ known ∨ .rule r ∈ items) (hb : b ∈ r.body)
      (h : IsAffected known items b.signature) : IsAffected known items r.head.signature

/-- What an item states, or what it concludes once its body has been matched. -/
def Item.conclusion : Item → Atom
  | .fact a => a
  | .rule r => r.head

theorem Item.conclusion_eq_of_statement {item : Item} {a : Atom} (h : item.statement? = some a) :
    item.conclusion = a := by
  cases item with
  | fact b => exact Option.some.inj h
  | rule r => rw [statement?_rule_eq_some_iff.mp h, conclusion]

theorem Rule.Resolvent.signature_head {r s : Rule} {a : Atom} (h : r.Resolvent a s) :
    s.head.signature = r.head.signature ∧ ∃ b ∈ r.body, b.signature = a.signature := by
  obtain ⟨entry, hentry, hs⟩ := h
  rw [resolveWith?] at hs
  split at hs
  · rename_i hsignature
    obtain ⟨σ, -, rfl⟩ := Option.map_eq_some_iff.mp hs
    have hbody : entry.1 ∈ r.body := List.mem_of_getElem? (List.mem_zipIdx_iff_getElem?.mp hentry)
    exact ⟨Atom.signature_subst σ r.head, entry.1, hbody, hsignature⟩
  · simp at hs

namespace Knowledge

/-- While the work goes on from `start`, everything new has a signature in `A`, and what it leads to has
one too. -/
structure Confined (A : Set (String × Nat)) (start k : Knowledge) (agenda : List Item) : Prop where
  /-- Registers and indices are in step. -/
  coherent : k.Coherent
  /-- A known rule with an atom in `A` has its head there. -/
  closed : ∀ r ∈ k.rules, ∀ b ∈ r.body, b.signature ∈ A → r.head.signature ∈ A
  /-- What waits concludes something in `A`. -/
  agenda : ∀ item ∈ agenda, item.conclusion.signature ∈ A
  /-- Queries for other signatures are answered as at the start. -/
  answers : ∀ query, query.signature ∉ A → k.factIndex.answers query = start.factIndex.answers query

variable {A : Set (String × Nat)} {start k k' : Knowledge} {item : Item} {rest : List Item}
  {derived : List Rule}

/-- Registering an item whose conclusion is in `A` does not leave `A`. -/
theorem Confined.outcome (hk : Confined A start k (item :: rest)) (h : Outcome k item k' derived) :
    Confined A start k' (derived.map Item.rule ++ rest) := by
  have hcoherent := hk.coherent.outcome h
  have hitem : item.conclusion.signature ∈ A := hk.agenda item List.mem_cons_self
  have hrest : ∀ other ∈ rest, other.conclusion.signature ∈ A := fun other hother =>
    hk.agenda other (List.mem_cons_of_mem _ hother)
  cases h with
  | settled => exact ⟨hcoherent, hk.closed, hrest, hk.answers⟩
  | newFact a hstatement hground =>
    have ha : a.signature ∈ A := Item.conclusion_eq_of_statement hstatement ▸ hitem
    refine ⟨hcoherent, hk.closed, List.forall_mem_append.mpr ⟨?yielded, hrest⟩, ?same⟩
    -- A rule that the fact resolves has an atom of its signature.
    case yielded =>
      refine List.forall_mem_map.mpr fun s hs => ?_
      rw [hk.coherent.ruleIndex, RuleIndex.mem_resolvents_ofRules hground] at hs
      obtain ⟨r, hr, hresolvent⟩ := hs
      obtain ⟨hhead, b, hb, hsignature⟩ := hresolvent.signature_head
      change s.head.signature ∈ A
      exact hhead ▸ hk.closed r hr b hb (hsignature ▸ ha)
    case same =>
      intro query hquery
      have hne : a.signature ≠ query.signature := fun same => hquery (same ▸ ha)
      exact (FactIndex.answers_insert_of_ne hne).trans (hk.answers query hquery)
  | newRule r hrule =>
    subst hrule
    refine ⟨hcoherent, ?closed, List.forall_mem_append.mpr ⟨?yielded, hrest⟩, hk.answers⟩
    case closed =>
      exact List.forall_mem_append.mpr
        ⟨hk.closed, List.forall_mem_singleton.mpr fun b _ _ => hitem⟩
    -- Whatever is left of a rule has its head, under a substitution.
    case yielded =>
      refine List.forall_mem_map.mpr fun s hs => ?_
      rw [hk.coherent.factIndex, FactIndex.mem_resolvents_ofFacts hk.coherent.ground] at hs
      obtain ⟨a, -, hresolvent⟩ := hs
      change s.head.signature ∈ A
      exact hresolvent.signature_head.1 ▸ hitem

/-- What is affected is closed under the known rules, and everything that is pushed lies in it. -/
theorem Coherent.confined_affected (hk : k.Coherent) (items : List Item) :
    Confined {signature | IsAffected k.rules items signature} k k items where
  coherent := hk
  closed _ hr _ hb h := .depends (Or.inl hr) hb h
  agenda item hitem := by
    cases item with
    | fact a => exact .fact hitem
    | rule r => exact .head hitem
  answers _ _ := rfl

end Knowledge

namespace Engine

/-- **A push only touches what depends on it.** After any calls, a further one leaves the answers to a
query as they were, the same facts in the same order, unless the predicate of the query with its arity
depends on what the call pushes. -/
theorem answers_of_not_affected (calls : List Call) (call : Call) (hcall : ∀ p, call ≠ .restart p)
    (query : Atom)
    (hquery : ¬ IsAffected (empty.applyAll calls).knowledge.rules call.items query.signature) :
    ((empty.applyAll calls).apply call).engine.answers query =
      (empty.applyAll calls).answers query := by
  have hstart := (coherent_applyAll calls).confined_affected call.items
  have hwork : Knowledge.Confined _ _ ((empty.applyAll calls).work call.items).knowledge [] :=
    saturate_induction (fun k item _ hk => hk.outcome (k.register_cases item)) hstart
  rw [engine_apply _ hcall]
  exact hwork.answers query hquery

/-- A path grows longer with an edge, but an edge with one end is told apart from it. -/
theorem answers_of_not_affected_edge :
    let edge (ts : List Term) : Atom := ⟨"edge", ts⟩
    let path (s t : Term) : Atom := ⟨"path", [s, t]⟩
    let base : Rule := ⟨path (.var "?x") (.var "?y"), [edge [.var "?x", .var "?y"]]⟩
    let step : Rule := ⟨path (.var "?x") (.var "?z"),
      [edge [.var "?x", .var "?y"], path (.var "?y") (.var "?z")]⟩
    let calls : List Call := [.pushRules [base, step],
      .pushFacts [edge [.const "a", .const "b"], edge [.const "a"], edge [.const "b"]]]
    let call : Call := .pushFact (edge [.const "b", .const "c"])
    ¬ IsAffected (empty.applyAll calls).knowledge.rules call.items ("edge", 1) ∧
      ((empty.applyAll calls).apply call).engine.answers (edge [.var "?x"]) =
        (empty.applyAll calls).answers (edge [.var "?x"]) := by
  intro edge path base step calls call
  have hrun : ((Worklist.start { knowledge := empty.knowledge } (pushedItems calls)).after 8).map
      (fun w => (w.stack, decide (∀ r ∈ w.run.knowledge.rules, r.head.signature = ("path", 2)))) =
        some ([], true) := by decide
  obtain ⟨w, hafter, hw⟩ := Option.map_eq_some_iff.mp hrun
  simp only [Prod.mk.injEq, decide_eq_true_eq] at hw
  have hknown := knowledge_applyAll_of_after hafter hw.1
  have haffected : ∀ signature,
      IsAffected (empty.applyAll calls).knowledge.rules call.items signature →
        signature = ("edge", 2) ∨ signature = ("path", 2) := by
    have hnorule : ∀ r, .rule r ∉ call.items := fun r hr => by simp [call, Call.items] at hr
    intro signature h
    cases h with
    | fact ha =>
      obtain rfl := Item.fact.inj (List.mem_singleton.mp ha)
      exact Or.inl rfl
    | head hr => exact absurd hr (hnorule _)
    | depends hr => exact Or.inr (hw.2 _ (hknown ▸ hr.resolve_right (hnorule _)))
  have hquery : ¬ IsAffected (empty.applyAll calls).knowledge.rules call.items ("edge", 1) := by
    intro h
    simpa using haffected _ h
  exact ⟨hquery, answers_of_not_affected calls call (fun _ => Call.noConfusion) _ hquery⟩

end Engine

end Datalog
