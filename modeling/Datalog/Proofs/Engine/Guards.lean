import Datalog.Proofs.Engine.Registers

/-!
# Guarded unification

The indices unify without looking whether they may: the second atom has to be ground, and it has to have
the predicate and the arity of the pattern. Here every such look-up is made once more with a guard before
each unification, which stops everything if one of the three does not hold, and with another where the
atom at a stored position of a body is taken. The machine that registers items with guarded look-ups
takes the same steps as the machine without guards, and guarded queries have the same answers, so no
guard ever stops anything. An index of facts that were not checked at all is no exception: its search
passes over the facts with variables.

## Main definitions

* `Atom.guardedUnify?` — unification that stops where it is not meant to be used
* `RuleIndex.guardedResolvents`, `FactIndex.guardedResolvents`, `FactIndex.guardedAnswers` — the
  look-ups with every unification guarded
* `Knowledge.guardedRegister`, `Worklist.guardedStep?`, `Worklist.guardedAfter` — the machine that makes
  guarded look-ups

## Main results

* `RuleIndex.guardedResolvents_ofRules`, `FactIndex.guardedResolvents_ofFacts`,
  `FactIndex.guardedAnswers_ofFacts` — no guard of a look-up fails
* `Knowledge.Coherent.guardedRegister` — so none fails when an item is registered
* `Engine.guards_hold` — nor in any run or query
-/

namespace Datalog

/-! ### Guarded look-ups -/

/-- Unification that stops, with no answer at all, unless the two atoms have the same predicate and
arity and the second one is ground. -/
def Atom.guardedUnify? (pattern ground : Atom) : Option (Option Substitution) :=
  if pattern.predicate = ground.predicate ∧ pattern.arity = ground.arity ∧ ground.isGround = true then
    some (pattern.unify? ground)
  else none

namespace RuleIndex

/-- The rule that is left when `fact` matches the atom at the position of the entry. It stops if the
body has no such position, and where unification does. -/
def guardedResolvent? (fact : Atom) (entry : Nat × Rule) : Option (Option Rule) :=
  match entry.2.body[entry.1]? with
  | some pattern => (pattern.guardedUnify? fact).map (Option.map (entry.2.resolve entry.1))
  | none => none

/-- The resolvents of a fact, unless a guard stops the search. -/
def guardedResolvents (index : RuleIndex) (fact : Atom) : Option (List Rule) :=
  (index.trie.generalizations fact).filterMapM (guardedResolvent? fact)

end RuleIndex

namespace FactIndex

/-- The resolvents of the body atom `pattern` at position `i`, unless a guard stops the search. -/
def guardedResolventsAt (index : FactIndex) (rule : Rule) (pattern : Atom) (i : Nat) :
    Option (List Rule) :=
  (index.candidates pattern).filterMapM fun fact =>
    (pattern.guardedUnify? fact).map (Option.map (rule.resolve i))

/-- The resolvents of a rule, unless a guard stops the search. -/
def guardedResolvents (index : FactIndex) (rule : Rule) : Option (List Rule) :=
  (rule.body.zipIdx.mapM fun entry => index.guardedResolventsAt rule entry.1 entry.2).map List.flatten

/-- The answers to a query, unless a guard stops the search. -/
def guardedAnswers (index : FactIndex) (query : Atom) : Option (List Atom) :=
  ((index.candidates query).filterMapM fun fact =>
    (query.guardedUnify? fact).map (Option.map query.subst)).map List.eraseDups

end FactIndex

section Lists

variable {α β : Type} {l : List α}

theorem mapM_eq_some_map {f : α → Option β} {g : α → β} (h : ∀ a ∈ l, f a = some (g a)) :
    l.mapM f = some (l.map g) := by
  induction l with
  | nil => rfl
  | cons a l ih =>
    rw [List.forall_mem_cons] at h
    simp [List.mapM_cons, h.1, ih h.2]

theorem filterMapM_eq_some_filterMap {f : α → Option (Option β)} {g : α → Option β}
    (h : ∀ a ∈ l, f a = some (g a)) : l.filterMapM f = some (l.filterMap g) := by
  induction l with
  | nil => rfl
  | cons a l ih =>
    rw [List.forall_mem_cons] at h
    cases hg : g a <;> simp [List.filterMapM_cons, h.1, hg, ih h.2]

end Lists

/-- The guard lets the atoms pass for which unification is meant. -/
theorem Atom.guardedUnify?_eq {pattern ground : Atom} (hground : ground.isGround = true)
    (hsignature : pattern.signature = ground.signature) :
    pattern.guardedUnify? ground = some (pattern.unify? ground) := by
  obtain ⟨hpredicate, harity⟩ := Prod.mk.inj hsignature
  exact if_pos ⟨hpredicate, harity, hground⟩

namespace RuleIndex

/-- No guard stops the search for a ground fact. -/
theorem guardedResolvents_ofRules (rules : List Rule) {a : Atom} (hground : a.isGround = true) :
    (ofRules rules).guardedResolvents a = some ((ofRules rules).resolvents a) := by
  refine filterMapM_eq_some_filterMap fun entry hentry => ?_
  obtain ⟨pattern, hpattern, hsignature⟩ := exists_pattern_of_mem_generalizations hentry
  simp only [guardedResolvent?, resolvent?, hpattern, Atom.guardedUnify?_eq hground hsignature,
    Option.map_some]

end RuleIndex

namespace FactIndex

variable (facts : List Atom)

/-- Whatever facts are stored, those that a search looks at are ground and have the signature of the
pattern. -/
theorem guardedUnify?_of_mem_candidates {facts : List Atom} {pattern fact : Atom}
    (h : fact ∈ (ofFacts facts).candidates pattern) :
    pattern.guardedUnify? fact = some (pattern.unify? fact) := by
  rw [(candidates_ofFacts facts pattern).mem_iff, List.mem_filter] at h
  have hrefines : fact.Refines pattern := of_decide_eq_true h.2
  exact Atom.guardedUnify?_eq hrefines.isGround hrefines.signature_eq

theorem guardedResolventsAt_ofFacts (rule : Rule) (pattern : Atom) (i : Nat) :
    (ofFacts facts).guardedResolventsAt rule pattern i =
      some ((ofFacts facts).resolventsAt rule pattern i) := by
  refine filterMapM_eq_some_filterMap fun fact hfact => ?_
  rw [guardedUnify?_of_mem_candidates hfact, Option.map_some]

/-- No guard stops the search for a rule. -/
theorem guardedResolvents_ofFacts (rule : Rule) :
    (ofFacts facts).guardedResolvents rule = some ((ofFacts facts).resolvents rule) := by
  rw [guardedResolvents, mapM_eq_some_map fun entry _ =>
    guardedResolventsAt_ofFacts facts rule entry.1 entry.2]
  rfl

/-- No guard stops the search for a query. -/
theorem guardedAnswers_ofFacts (query : Atom) :
    (ofFacts facts).guardedAnswers query = some ((ofFacts facts).answers query) := by
  have hfound : (((ofFacts facts).candidates query).filterMapM fun fact =>
      (query.guardedUnify? fact).map (Option.map query.subst)) =
        some (((ofFacts facts).candidates query).filterMap fun fact =>
          (query.unify? fact).map query.subst) := by
    refine filterMapM_eq_some_filterMap fun fact hfact => ?_
    rw [guardedUnify?_of_mem_candidates hfact, Option.map_some]
  rw [guardedAnswers, hfound]
  rfl

end FactIndex

/-! ### Guarded registration -/

namespace Knowledge

/-- Takes in a fact with a guarded look-up. -/
def guardedRegisterFact (k : Knowledge) (fact : Atom) : Option Registration :=
  if fact ∈ k.facts then
    some { knowledge := k }
  else if fact.isGround then
    (k.ruleIndex.guardedResolvents fact).map fun derived =>
      { knowledge := { k with facts := k.facts ++ [fact], factIndex := k.factIndex.insert fact }
        derived := derived
        events := [.newFact fact] }
  else
    some { knowledge := k, events := [.droppedFact fact] }

/-- Takes in a rule with a guarded look-up. -/
def guardedRegisterRule (k : Knowledge) (rule : Rule) : Option Registration :=
  if rule.isFact then
    k.guardedRegisterFact rule.head
  else if rule ∈ k.rules then
    some { knowledge := k }
  else
    (k.factIndex.guardedResolvents rule).map fun derived =>
      { knowledge := { k with rules := k.rules ++ [rule], ruleIndex := k.ruleIndex.insert rule }
        derived := derived
        events := [.newRule rule] }

/-- Takes in a fact or a rule with a guarded look-up. -/
def guardedRegister (k : Knowledge) : Item → Option Registration
  | .fact atom => k.guardedRegisterFact atom
  | .rule rule => k.guardedRegisterRule rule

variable {k : Knowledge}

theorem Coherent.guardedRegisterFact (hk : k.Coherent) (fact : Atom) :
    k.guardedRegisterFact fact = some (k.registerFact fact) := by
  rw [Knowledge.guardedRegisterFact, registerFact]
  split
  · rfl
  split
  -- Only a ground fact is looked up.
  · rename_i hground
    have hfound := RuleIndex.guardedResolvents_ofRules k.rules hground
    rw [← hk.ruleIndex] at hfound
    rw [hfound, Option.map_some]
  · rfl

/-- No guard stops the registration of an item, whatever the item is. -/
theorem Coherent.guardedRegister (hk : k.Coherent) (item : Item) :
    k.guardedRegister item = some (k.register item) := by
  cases item with
  | fact a => exact hk.guardedRegisterFact a
  | rule r =>
    rw [Knowledge.guardedRegister, guardedRegisterRule, register, registerRule]
    split
    · exact hk.guardedRegisterFact r.head
    split
    · rfl
    · have hfound := FactIndex.guardedResolvents_ofFacts k.facts r
      rw [← hk.factIndex] at hfound
      rw [hfound, Option.map_some]

end Knowledge

/-! ### Guarded runs -/

namespace Worklist

/-- One step with guarded look-ups. There is none when nothing waits, and when a guard stops it. -/
def guardedStep? (w : Worklist) : Option Worklist :=
  match w.stack.getLast? with
  | none => none
  | some item =>
    (w.run.knowledge.guardedRegister item).map fun registration =>
      { run := w.run.after registration
        stack := w.stack.dropLast ++ registration.derived.reverse.map Item.rule }

/-- The state after a number of steps with guarded look-ups, if there are that many. -/
def guardedAfter : Nat → Worklist → Option Worklist
  | 0, w => some w
  | n + 1, w => w.guardedStep?.bind (guardedAfter n)

variable {w w' : Worklist}

theorem guardedStep?_eq (hw : w.run.knowledge.Coherent) : w.guardedStep? = w.step? := by
  rw [guardedStep?, step?]
  cases w.stack.getLast? with
  | none => rfl
  | some item => simp only [hw.guardedRegister, Option.map_some]

/-- Guarded or not, the machine takes the same steps. -/
theorem guardedAfter_eq (hw : w.run.knowledge.Coherent) (n : Nat) :
    guardedAfter n w = after n w := by
  induction n generalizing w with
  | zero => rfl
  | succ n ih =>
    rw [guardedAfter, after, guardedStep?_eq hw]
    refine Option.bind_congr fun next hnext => ih ?_
    have hafter : w.after 1 = some next := by rw [after, hnext]; rfl
    exact after_induction (fun k item hk => hk.outcome (k.register_cases item)) hafter hw

end Worklist

namespace Engine

/-- No guard ever stops anything. In every run, every call is worked off to its end by the machine that
makes guarded look-ups, which takes the same steps as the machine without guards and leaves the engine
as the call does; every query has the same answers with guards; and look-ups in an index of any facts,
ground or not, find the same. -/
theorem guards_hold :
    (∀ calls call,
      let e := call.target (empty.applyAll calls)
      (∀ n, (e.worklist call.items).guardedAfter n = (e.worklist call.items).after n) ∧
        ∃ n run, (e.worklist call.items).guardedAfter n = some ⟨run, []⟩ ∧
          ((empty.applyAll calls).apply call).engine = { e with knowledge := run.knowledge }) ∧
    (∀ calls query, (empty.applyAll calls).knowledge.factIndex.guardedAnswers query =
      some ((empty.applyAll calls).answers query)) ∧
    ∀ facts,
      (∀ rule, (FactIndex.ofFacts facts).guardedResolvents rule =
        some ((FactIndex.ofFacts facts).resolvents rule)) ∧
      ∀ query, (FactIndex.ofFacts facts).guardedAnswers query =
        some ((FactIndex.ofFacts facts).answers query) := by
  refine ⟨fun calls call => ?run, fun calls query => ?query, fun facts => ⟨?rules, ?queries⟩⟩
  case run =>
    intro e
    have hcoherent : e.knowledge.Coherent := coherent_target (coherent_applyAll calls) call
    have hsame : ∀ n, (e.worklist call.items).guardedAfter n = (e.worklist call.items).after n :=
      Worklist.guardedAfter_eq hcoherent
    obtain ⟨n, hafter, -⟩ := Worklist.after_start (e.worklist call.items).run call.items
    refine ⟨hsame, n, _, (hsame n).trans hafter, ?_⟩
    rw [apply_eq]
    rfl
  case query =>
    have hanswers := FactIndex.guardedAnswers_ofFacts (empty.applyAll calls).knowledge.facts query
    rw [← (coherent_applyAll calls).factIndex] at hanswers
    exact hanswers
  case rules => exact FactIndex.guardedResolvents_ofFacts facts
  case queries => exact FactIndex.guardedAnswers_ofFacts facts

end Engine

end Datalog
