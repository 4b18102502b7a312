import Datalog.FactIndex
import Datalog.RuleIndex
import Datalog.Proofs.PatternTrie.History
import Datalog.Proofs.Unification

/-!
# Resolving rules against facts

Both indices find exactly the resolvents that a scan of everything stored finds, as often as the scan
does. One looks for body atoms that are more general than a fact and the other for facts that are more
special than a body atom, but unification succeeds only where the two agree.

## Main definitions

* `Rule.resolveWith?` — a body atom of a rule against an atom, with all conditions checked
* `Rule.Resolvent` — a rule is left when some body atom is matched
* `RuleIndex.ofRules`, `FactIndex.ofFacts` — the indices of some rules and facts

## Main results

* `RuleIndex.resolvents_ofRules`, `FactIndex.resolvents_ofFacts` — both indices agree with the scan
* `RuleIndex.resolvents_filter` — what the index of rules finds when some rules were left out
* `Rule.resolvent_iff` — resolvents in terms of substitutions
* `indices_agree` — so both indices yield the same, whichever side is stored and whichever is looked up
-/

namespace Datalog

/-! ### Matching atoms and the keys of a trie -/

namespace Atom

variable {p a : Atom} {σ : Substitution}

theorem signature_eq_of_forall₂ {R : Key → Term → Prop} (hpredicate : p.predicate = a.predicate)
    (h : List.Forall₂ R p.path a.terms) : p.signature = a.signature := by
  rw [signature, signature, hpredicate, arity, arity, ← h.length_eq, length_path]

theorem Covers.signature_eq (h : p.Covers a) : p.signature = a.signature :=
  signature_eq_of_forall₂ h.1 h.2

theorem Refines.signature_eq (h : a.Refines p) : p.signature = a.signature :=
  (signature_eq_of_forall₂ h.1 h.2).symm

/-- Only ground atoms are found as specialisations. -/
theorem Refines.isGround (h : a.Refines p) : a.isGround = true := by
  rw [isGround_iff]
  intro t ht
  -- The key of a variable is the wildcard, which refines nothing.
  have covered : ∀ {keys : List Key} {ts : List Term}, List.Forall₂ Key.Refines keys ts →
      ∀ key ∈ keys, key ≠ .wildcard := by
    intro keys ts h
    induction h with
    | nil => simp
    | cons hkey _ ih =>
      intro key hmem
      rcases List.mem_cons.mp hmem with rfl | hmem
      · exact hkey.1
      · exact ih key hmem
  cases t with
  | const c => rfl
  | var x => exact absurd rfl (covered h.2 .wildcard (List.mem_map.mpr ⟨_, ht, rfl⟩))

theorem covers_of_subst (h : p.subst σ = a) : p.Covers a := by
  subst h
  refine ⟨rfl, ?_⟩
  rw [path, Key.path, terms_subst, List.forall₂_map_left_iff, List.forall₂_map_right_iff]
  refine List.forall₂_same.mpr fun t _ => ?_
  cases t with
  | var x => exact Or.inl rfl
  | const c => exact Or.inr rfl

theorem refines_of_subst (hground : a.isGround = true) (h : p.subst σ = a) : a.Refines p := by
  subst h
  refine ⟨rfl, ?_⟩
  rw [path, Key.path, terms_subst, List.map_map, List.forall₂_map_left_iff]
  refine List.forall₂_same.mpr fun t ht => ?_
  have hconst := isGround_iff.mp hground (t.subst σ) (List.mem_map_of_mem ht)
  rw [Function.comp_apply, Term.isVar_eq_false_iff.mp hconst]
  refine ⟨Key.noConfusion, ?_⟩
  cases t with
  | var x => exact Or.inl rfl
  | const c => exact Or.inr rfl

end Atom

/-! ### Resolvents -/

namespace Rule

/-- The rule that is left when the body atom and position `entry` of `r` is matched by `a`, if the two
have the same predicate and arity and unify. -/
def resolveWith? (r : Rule) (entry : Atom × Nat) (a : Atom) : Option Rule :=
  if entry.1.signature = a.signature then (entry.1.unify? a).map (r.resolve entry.2) else none

/-- Some body atom of `r` is matched by `a`, and `s` is left. -/
def Resolvent (r : Rule) (a : Atom) (s : Rule) : Prop :=
  ∃ entry ∈ r.body.zipIdx, r.resolveWith? entry a = some s

/-- A rule is resolved by substituting in a body atom so that it becomes the fact. -/
theorem resolvent_iff {r s : Rule} {a : Atom} (hground : a.isGround = true) :
    r.Resolvent a s ↔ ∃ i p σ, r.body[i]? = some p ∧ p.subst σ = a ∧
      σ.domain = p.vars ∧ s = r.resolve i σ := by
  constructor
  · rintro ⟨⟨p, i⟩, hentry, hs⟩
    rw [resolveWith?] at hs
    split at hs
    · rename_i hsignature
      obtain ⟨σ, hσ, rfl⟩ := Option.map_eq_some_iff.mp hs
      obtain ⟨hsubst, hdomain⟩ := (Atom.unify?_eq_some_iff hground hsignature).mp hσ
      exact ⟨i, p, σ, List.mem_zipIdx_iff_getElem?.mp hentry, hsubst, hdomain, rfl⟩
    · simp at hs
  · rintro ⟨i, p, σ, hp, hsubst, hdomain, rfl⟩
    have hsignature : p.signature = a.signature := by rw [← hsubst, Atom.signature_subst]
    refine ⟨(p, i), List.mem_zipIdx_iff_getElem?.mpr hp, ?_⟩
    rw [resolveWith?, if_pos hsignature,
      (Atom.unify?_eq_some_iff hground hsignature).mpr ⟨hsubst, hdomain⟩]
    rfl

end Rule

/-- An index may leave out a body atom or a fact unless the two match. -/
theorem Rule.resolveWith?_eq_ite {r : Rule} {entry : Atom × Nat} {a : Atom} {found : Prop}
    [Decidable found] (hground : a.isGround = true)
    (hfound : found → entry.1.signature = a.signature)
    (hmatch : ∀ σ, entry.1.subst σ = a → found) :
    r.resolveWith? entry a =
      if found then (entry.1.unify? a).map (r.resolve entry.2) else none := by
  rw [resolveWith?]
  -- An atom that was not found has another signature or does not unify.
  by_cases h : found
  · rw [if_pos h, if_pos (hfound h)]
  · rw [if_neg h]
    split
    · rename_i hsignature
      refine Option.map_eq_none_iff.mpr (Option.eq_none_iff_forall_ne_some.mpr fun σ hσ => ?_)
      exact h (hmatch σ (Atom.unify?_sound hground hsignature hσ).1)
    · rfl

/-! ### The index of rules -/

/-- What the index of rules stores for a rule. -/
def Rule.entries (r : Rule) : List (Atom × (Nat × Rule)) :=
  r.body.zipIdx.map fun entry => (entry.1, (entry.2, r))

theorem Rule.mem_entries {r s : Rule} {p : Atom} {i : Nat} :
    (p, (i, s)) ∈ r.entries ↔ r.body[i]? = some p ∧ s = r := by
  simp only [entries, List.mem_map, Prod.exists, List.mem_zipIdx_iff_getElem?, Prod.mk.injEq]
  constructor
  · rintro ⟨p, i, hp, rfl, rfl, rfl⟩
    exact ⟨hp, rfl⟩
  · rintro ⟨hp, rfl⟩
    exact ⟨p, i, hp, rfl, rfl, rfl⟩

/-- The positions of a body are distinct. -/
theorem Rule.nodup_positions (r : Rule) : (r.body.zipIdx.map Prod.snd).Nodup := by
  rw [List.zipIdx_map_snd]
  exact List.nodup_range'

/-- Entries of one rule differ in the position, and those of several in the rule. -/
theorem Rule.nodup_entries {rules : List Rule} (h : rules.Nodup) :
    ((rules.flatMap entries).map Prod.snd).Nodup := by
  rw [List.map_flatMap, List.nodup_flatMap]
  constructor
  · intro r _
    have hentries : r.entries.map Prod.snd = (r.body.zipIdx.map Prod.snd).map (·, r) := by
      rw [entries, List.map_map, List.map_map]
      rfl
    rw [hentries]
    exact r.nodup_positions.map fun i j same => (Prod.mk.inj same).1
  · refine (List.nodup_iff_pairwise_ne.mp h).imp fun hne ⟨i, s⟩ hs hs' => hne ?_
    obtain ⟨⟨p, -⟩, hp, rfl⟩ := List.mem_map.mp hs
    obtain ⟨⟨p', -⟩, hp', rfl⟩ := List.mem_map.mp hs'
    exact (mem_entries.mp hp).2.symm.trans (mem_entries.mp hp').2

namespace RuleIndex

/-- The index of some rules. -/
def ofRules (rules : List Rule) : RuleIndex := rules.foldl insert empty

theorem ofRules_append_singleton (rules : List Rule) (r : Rule) :
    ofRules (rules ++ [r]) = (ofRules rules).insert r := by
  rw [ofRules, List.foldl_append]
  rfl

theorem trie_insert (index : RuleIndex) (r : Rule) :
    (index.insert r).trie = index.trie.insertAll r.entries := by
  rw [PatternTrie.insertAll, Rule.entries, List.foldl_map]
  rfl

theorem trie_ofRules (rules : List Rule) :
    (ofRules rules).trie = PatternTrie.ofEntries (rules.flatMap Rule.entries) := by
  induction rules using List.reverseRecOn with
  | nil => rfl
  | append_singleton rules r ih =>
    rw [ofRules_append_singleton, trie_insert, ih, List.flatMap_append, PatternTrie.ofEntries,
      PatternTrie.ofEntries, PatternTrie.insertAll_append, List.flatMap_singleton]

/-- The index finds, for a ground fact, the resolvents of all rules that it was given. -/
theorem resolvents_ofRules (rules : List Rule) {a : Atom} (hground : a.isGround = true) :
    ((ofRules rules).resolvents a).Perm
      (rules.flatMap fun r => r.body.zipIdx.filterMap fun entry => r.resolveWith? entry a) := by
  -- One rule at a time, what the trie finds of its entries is what the scan of its body finds.
  have scan : ∀ r : Rule, r.entries.filterMap
      (fun e => if e.1.Covers a then resolvent? a e.2 else none) =
        r.body.zipIdx.filterMap fun entry => r.resolveWith? entry a := by
    intro r
    rw [Rule.entries, List.filterMap_map]
    refine List.filterMap_congr fun entry hentry => ?_
    have hbody : r.body[entry.2]? = some entry.1 := List.mem_zipIdx_iff_getElem?.mp hentry
    rw [Rule.resolveWith?_eq_ite hground Atom.Covers.signature_eq fun _ => Atom.covers_of_subst]
    simp only [Function.comp_apply, resolvent?, hbody]
  rw [resolvents, trie_ofRules]
  refine ((PatternTrie.generalizations_ofEntries _ a).filterMap _).trans (List.Perm.of_eq ?_)
  rw [List.filterMap_map, List.filterMap_filter, List.filterMap_flatMap]
  refine List.flatMap_congr fun r _ => ?_
  rw [← scan]
  simp

theorem mem_resolvents_ofRules {rules : List Rule} {a : Atom} {s : Rule}
    (hground : a.isGround = true) :
    s ∈ (ofRules rules).resolvents a ↔ ∃ r ∈ rules, r.Resolvent a s := by
  rw [(resolvents_ofRules rules hground).mem_iff]
  simp only [List.mem_flatMap, List.mem_filterMap, Rule.Resolvent]

/-- What a search finds is stored with a position of the body, and the atom there has the signature of
what was searched for. -/
theorem exists_pattern_of_mem_generalizations {rules : List Rule} {a : Atom} {entry : Nat × Rule}
    (h : entry ∈ (ofRules rules).trie.generalizations a) :
    ∃ pattern, entry.2.body[entry.1]? = some pattern ∧ pattern.signature = a.signature := by
  obtain ⟨i, r⟩ := entry
  rw [trie_ofRules, (PatternTrie.generalizations_ofEntries _ a).mem_iff] at h
  obtain ⟨⟨p, -⟩, hfound, rfl⟩ := List.mem_map.mp h
  obtain ⟨hstored, hcovers⟩ := List.mem_filter.mp hfound
  obtain ⟨s, -, hstored⟩ := List.mem_flatMap.mp hstored
  obtain ⟨hbody, rfl⟩ := Rule.mem_entries.mp hstored
  exact ⟨p, hbody, Atom.Covers.signature_eq (of_decide_eq_true hcovers)⟩

/-- What is left where a search finds a rule is a resolvent of this rule. -/
theorem resolvent_of_mem_generalizations {rules : List Rule} {a : Atom} {entry : Nat × Rule}
    {s : Rule} (hentry : entry ∈ (ofRules rules).trie.generalizations a)
    (hs : resolvent? a entry = some s) : entry.2.Resolvent a s := by
  obtain ⟨pattern, hpattern, hsignature⟩ := exists_pattern_of_mem_generalizations hentry
  refine ⟨(pattern, entry.1), List.mem_zipIdx_iff_getElem?.mpr hpattern, ?_⟩
  rw [Rule.resolveWith?, if_pos hsignature, ← hs]
  simp only [resolvent?, hpattern]

/-- If a resolvent is kept exactly if its rule is, then leaving rules out leaves their resolvents out, and
the others stand in the same order. -/
theorem resolvents_filter {rules : List Rule} {keep : Rule → Bool} {a : Atom}
    (hkeep : ∀ r s, r.Resolvent a s → keep s = keep r) :
    (ofRules (rules.filter keep)).resolvents a = ((ofRules rules).resolvents a).filter keep := by
  have hentries : (rules.filter keep).flatMap Rule.entries =
      (rules.flatMap Rule.entries).filter fun e => keep e.2.2 := by
    induction rules with
    | nil => rfl
    | cons r rest ih =>
      cases hr : keep r <;> simp [hr, ih, Rule.entries, List.filter_map, Function.comp_def]
  have hfound := PatternTrie.generalizations_filter (rules.flatMap Rule.entries)
    (fun entry => keep entry.2) a
  rw [← hentries, ← trie_ofRules, ← trie_ofRules] at hfound
  rw [resolvents, resolvents, hfound, List.filterMap_filter, List.filter_filterMap]
  refine List.filterMap_congr fun entry hentry => ?_
  cases hs : resolvent? a entry with
  | none => simp
  | some s =>
    rw [Option.filter_some, hkeep _ _ (resolvent_of_mem_generalizations hentry hs)]

end RuleIndex

/-! ### The index of facts -/

namespace FactIndex

/-- The index of some facts. -/
def ofFacts (facts : List Atom) : FactIndex := facts.foldl insert empty

theorem ofFacts_append_singleton (facts : List Atom) (a : Atom) :
    ofFacts (facts ++ [a]) = (ofFacts facts).insert a := by
  rw [ofFacts, List.foldl_append]
  rfl

theorem trie_ofFacts (facts : List Atom) :
    (ofFacts facts).trie = PatternTrie.ofEntries (facts.map fun a => (a, a)) := by
  induction facts using List.reverseRecOn with
  | nil => rfl
  | append_singleton facts a ih =>
    rw [ofFacts_append_singleton, insert, ih, List.map_append, List.map_singleton,
      PatternTrie.ofEntries_append_singleton]

/-- The facts that may match a pattern are the stored facts that refine it. -/
theorem candidates_ofFacts (facts : List Atom) (pattern : Atom) :
    ((ofFacts facts).candidates pattern).Perm (facts.filter fun a => a.Refines pattern) := by
  rw [candidates, trie_ofFacts]
  refine (PatternTrie.specializations_ofEntries _ pattern).trans (List.Perm.of_eq ?_)
  rw [List.filter_map, List.map_map]
  exact List.map_id _

/-- The index finds, for a rule, its resolvents with all ground facts that it was given. -/
theorem resolvents_ofFacts (facts : List Atom) (r : Rule) :
    ((ofFacts facts).resolvents r).Perm
      (r.body.zipIdx.flatMap fun entry =>
        (facts.filter Atom.isGround).filterMap fun a => r.resolveWith? entry a) := by
  rw [resolvents]
  refine List.Perm.flatMap_left _ fun entry _ => ?_
  refine ((candidates_ofFacts facts entry.1).filterMap _).trans (List.Perm.of_eq ?_)
  rw [List.filterMap_filter, List.filterMap_filter]
  refine List.filterMap_congr fun a _ => ?_
  by_cases hground : a.isGround = true
  · rw [if_pos hground, Rule.resolveWith?_eq_ite hground Atom.Refines.signature_eq
      fun _ => Atom.refines_of_subst hground]
    simp
  -- Neither the search nor the scan looks at a fact with variables.
  · have hrefines : ¬ a.Refines entry.1 := fun h => hground h.isGround
    simp [hground, hrefines]

theorem mem_resolvents_ofFacts {facts : List Atom} {r s : Rule}
    (hground : ∀ a ∈ facts, a.isGround = true) :
    s ∈ (ofFacts facts).resolvents r ↔ ∃ a ∈ facts, r.Resolvent a s := by
  rw [(resolvents_ofFacts facts r).mem_iff, List.filter_eq_self.mpr hground]
  simp only [List.mem_flatMap, List.mem_filterMap, Rule.Resolvent]
  exact ⟨fun ⟨entry, hentry, a, ha, hs⟩ => ⟨a, ha, entry, hentry, hs⟩,
    fun ⟨a, ha, entry, hentry, hs⟩ => ⟨entry, hentry, a, ha, hs⟩⟩

end FactIndex

/-! ### Both directions -/

/-- Of the pairs from two lists, either list may be gone through first. -/
theorem flatMap_flatMap_perm {α β γ : Type} (l : List α) (m : List β) (f : α → β → List γ) :
    (l.flatMap fun a => m.flatMap fun b => f a b).Perm
      (m.flatMap fun b => l.flatMap fun a => f a b) := by
  induction l with
  | nil => simp
  | cons a rest ih =>
    rw [List.flatMap_cons]
    refine (ih.append_left _).trans ?_
    simpa only [List.flatMap_cons] using
      List.flatMap_append_perm m (f a) fun b => rest.flatMap fun a => f a b

/-- The index of rules finds for a ground fact, and the index of facts for a rule, what a scan of
everything stored finds: one resolvent for each atom of a body and each ground fact of its predicate
and arity that unifies with it. Looking up every fact among the rules therefore yields, up to order,
what looking up every rule among the facts yields. -/
theorem indices_agree :
    (∀ (rules : List Rule) (a : Atom), a.isGround = true →
      ((RuleIndex.ofRules rules).resolvents a).Perm
        (rules.flatMap fun r => r.body.zipIdx.filterMap fun entry => r.resolveWith? entry a)) ∧
    (∀ (facts : List Atom) (r : Rule),
      ((FactIndex.ofFacts facts).resolvents r).Perm
        (r.body.zipIdx.flatMap fun entry =>
          (facts.filter Atom.isGround).filterMap fun a => r.resolveWith? entry a)) ∧
    ∀ (rules : List Rule) (facts : List Atom), (∀ a ∈ facts, a.isGround = true) →
      (facts.flatMap (RuleIndex.ofRules rules).resolvents).Perm
        (rules.flatMap (FactIndex.ofFacts facts).resolvents) := by
  refine ⟨fun rules _ => RuleIndex.resolvents_ofRules rules, FactIndex.resolvents_ofFacts, ?_⟩
  intro rules facts hground
  calc
    List.Perm (facts.flatMap (RuleIndex.ofRules rules).resolvents)
      (facts.flatMap fun a => rules.flatMap fun r =>
        r.body.zipIdx.filterMap fun entry => r.resolveWith? entry a) :=
      List.Perm.flatMap_left _ fun a ha => RuleIndex.resolvents_ofRules rules (hground a ha)
    -- Rules come before facts, and then the atoms of a body before facts.
    List.Perm _ (rules.flatMap fun r => facts.flatMap fun a =>
        r.body.zipIdx.filterMap fun entry => r.resolveWith? entry a) :=
      flatMap_flatMap_perm _ _ _
    List.Perm _ (rules.flatMap fun r => r.body.zipIdx.flatMap fun entry =>
        facts.filterMap fun a => r.resolveWith? entry a) := by
      refine List.Perm.flatMap_left _ fun r _ => ?_
      simp only [List.filterMap_eq_flatMap_toList]
      exact flatMap_flatMap_perm _ _ _
    List.Perm _ (rules.flatMap (FactIndex.ofFacts facts).resolvents) := by
      refine List.Perm.flatMap_left _ fun r _ => ?_
      have hscan := FactIndex.resolvents_ofFacts facts r
      rw [List.filter_eq_self.mpr hground] at hscan
      exact hscan.symm

/-- A rule that was stored twice, with two atoms of one pattern, a repeated variable and two arities of
one predicate, and facts of which one is stored twice. -/
theorem indices_agree_on_loop :
    let edge (terms : List Term) : Atom := ⟨"edge", terms⟩
    let loop : Rule := ⟨⟨"loop", [.var "?x", .var "?y"]⟩,
      [edge [.var "?x", .var "?y"], edge [.var "?y", .var "?x"], edge [.var "?x", .var "?x"],
        edge [.var "?y"]]⟩
    let facts := [edge [.const "a", .const "a"], edge [.const "a", .const "b"], edge [.const "a"],
      edge [.const "a", .const "a"]]
    (∀ a ∈ facts, a.isGround = true) ∧
      ((RuleIndex.ofRules [loop, loop]).resolvents (edge [.const "a"])).Perm
        [⟨⟨"loop", [.var "?x", .const "a"]⟩, [edge [.var "?x", .const "a"],
            edge [.const "a", .var "?x"], edge [.var "?x", .var "?x"]]⟩,
          ⟨⟨"loop", [.var "?x", .const "a"]⟩, [edge [.var "?x", .const "a"],
            edge [.const "a", .var "?x"], edge [.var "?x", .var "?x"]]⟩] ∧
      (facts.flatMap (RuleIndex.ofRules [loop, loop]).resolvents).Perm
        ([loop, loop].flatMap (FactIndex.ofFacts facts).resolvents) ∧
      (facts.flatMap (RuleIndex.ofRules [loop, loop]).resolvents).length = 18 := by
  intro edge loop facts
  have hground : ∀ a ∈ facts, a.isGround = true := by decide
  have hscan := indices_agree.1 [loop, loop] (edge [.const "a"]) (by decide)
  exact ⟨hground, hscan.trans (List.Perm.of_eq (by decide)), indices_agree.2.2 _ facts hground,
    by decide⟩

end Datalog
