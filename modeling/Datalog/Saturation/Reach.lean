import Datalog.Atom.Groundings
import Datalog.Distinct
import Datalog.Knowledge

/-!
# Facts within reach

The facts that can become known when an agenda is worked off. Whatever is concluded is a ground
instance of a head that is at hand now, over the texts that occur now: resolving a rule substitutes
texts of a stored fact into its head, and so brings in neither a new head nor a new text. The facts
within reach are therefore finitely many, and no step adds to them.

## Main definitions

* `Knowledge.reachable` — the facts within reach of an agenda
* `Knowledge.unreached` — how many of them are not known

## Main results

* `Knowledge.reachable_subset` — what a step has to satisfy in order to stay within reach
* `Knowledge.unreached_le`, `Knowledge.unreached_lt` — such a step leaves no more facts unknown, and
  fewer if one of them becomes known
-/

namespace Datalog

/-- What the item states or concludes. -/
def Item.head : Item → Atom
  | .fact atom => atom
  | .rule r => r.head

namespace Knowledge

/-- The heads at hand: of the stored rules and of the agenda. -/
def heads (k : Knowledge) (agenda : List Item) : List Atom :=
  k.ruleIndex.trie.contents.map (fun entry => entry.2.head) ++ agenda.map Item.head

/-- The texts that occur in stored facts and in heads at hand. -/
def vocabulary (k : Knowledge) (agenda : List Item) : List String :=
  (k.factIndex.trie.contents ++ k.heads agenda).flatMap Atom.texts

/-- The ground instances of the heads at hand, over the texts that occur. -/
def reachable (k : Knowledge) (agenda : List Item) : List Atom :=
  (k.heads agenda).flatMap (Atom.groundings (k.vocabulary agenda))

/-- How many facts within reach are not known. -/
def unreached (k : Knowledge) (agenda : List Item) : Nat :=
  ((k.reachable agenda).filter fun a => a ∉ k.facts).eraseDups.length

/-- A step stays within reach if it stores only facts that were stored or at hand, and every head at
hand afterwards is an instance, over the texts that occurred, of a head that was at hand. -/
theorem reachable_subset {k k' : Knowledge} {agenda agenda' : List Item}
    (hfacts : ∀ a ∈ k'.factIndex.trie.contents,
      a ∈ k.factIndex.trie.contents ∨ a ∈ k.heads agenda)
    (hheads : ∀ h' ∈ k'.heads agenda', ∃ h ∈ k.heads agenda, ∃ σ : Substitution,
      h' = h.subst σ ∧ ∀ x c, σ.lookup? x = some c → c ∈ k.vocabulary agenda) :
    k'.reachable agenda' ⊆ k.reachable agenda := by
  have hvocabulary : k'.vocabulary agenda' ⊆ k.vocabulary agenda := by
    intro s hs
    obtain ⟨a, ha, hs⟩ := List.mem_flatMap.1 hs
    rcases List.mem_append.1 ha with ha | ha
    · exact List.mem_flatMap.2 ⟨a, List.mem_append.2 (hfacts a ha), hs⟩
    · obtain ⟨h, hh, σ, rfl, hσ⟩ := hheads a ha
      rcases Atom.texts_subst hs with hs | ⟨x, hx⟩
      · exact List.mem_flatMap.2 ⟨h, List.mem_append_right _ hh, hs⟩
      · exact hσ x s hx
  intro a ha
  obtain ⟨h', hh', ha⟩ := List.mem_flatMap.1 ha
  obtain ⟨h, hh, σ, rfl, hσ⟩ := hheads h' hh'
  exact List.mem_flatMap.2
    ⟨h, hh, Atom.groundings_subst_subset hσ h (Atom.groundings_mono hvocabulary _ ha)⟩

theorem heads_cons_subset (k : Knowledge) (item : Item) (rest : List Item) :
    k.heads rest ⊆ k.heads (item :: rest) := by
  simp only [heads, List.map_cons]
  exact List.append_subset.2 ⟨List.subset_append_left _ _,
    List.subset_append_of_subset_right _ (List.subset_cons_self _ _)⟩

theorem head_mem_heads (k : Knowledge) (item : Item) (rest : List Item) :
    item.head ∈ k.heads (item :: rest) := by
  simp [heads]

/-- A head that stays at hand is an instance of itself. -/
theorem instance_of_mem {k : Knowledge} {agenda : List Item} {h : Atom}
    (hh : h ∈ k.heads agenda) : ∃ h₀ ∈ k.heads agenda, ∃ σ : Substitution,
      h = h₀.subst σ ∧ ∀ x c, σ.lookup? x = some c → c ∈ k.vocabulary agenda :=
  ⟨h, hh, Substitution.empty, h.subst_empty.symm, by simp⟩

theorem unreached_le {k k' : Knowledge} {agenda agenda' : List Item}
    (hreach : k'.reachable agenda' ⊆ k.reachable agenda) (hfacts : k.facts ⊆ k'.facts) :
    k'.unreached agenda' ≤ k.unreached agenda := by
  refine length_eraseDups_le_of_subset fun b hb => ?_
  simp only [List.mem_filter, decide_eq_true_eq] at hb ⊢
  exact ⟨hreach hb.1, fun h => hb.2 (hfacts h)⟩

theorem unreached_lt {k k' : Knowledge} {agenda agenda' : List Item} {a : Atom}
    (hreach : k'.reachable agenda' ⊆ k.reachable agenda) (hfacts : k.facts ⊆ k'.facts)
    (ha : a ∈ k.reachable agenda) (hnew : a ∉ k.facts) (hknown : a ∈ k'.facts) :
    k'.unreached agenda' < k.unreached agenda := by
  refine length_eraseDups_lt_of_subset (a := a) (fun b hb => ?_) ?_ ?_
  · simp only [List.mem_filter, decide_eq_true_eq] at hb ⊢
    exact ⟨hreach hb.1, fun h => hb.2 (hfacts h)⟩
  · simp [ha, hnew]
  · simp [hknown]

end Knowledge

end Datalog
