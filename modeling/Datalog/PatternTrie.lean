import Datalog.Atom
import Datalog.PatternTrie.Level

/-!
# Pattern tries

A pattern trie stores values under atoms and finds them again by exact pattern, by generalisation and
by specialisation. The atoms are told apart by predicate and arity first and then argument by
argument, where all variables count as one wildcard. Nothing is deduplicated on the way in: a value
stored twice is found twice.

## Main definitions

* `Arities` — the levels of one predicate, one for each arity in use
* `PatternTrie` — the trie
* `PatternTrie.insert` — stores a value under an atom
* `PatternTrie.valuesAt`, `PatternTrie.generalizations`, `PatternTrie.specializations` — the three
  searches
* `PatternTrie.values` — every stored value once
* `PatternTrie.contents` — every stored value as often as it was stored

## Main results

* `PatternTrie.contents_insert` — inserting adds the value to the contents and loses nothing
* `PatternTrie.generalizations_subset`, `PatternTrie.specializations_subset`,
  `PatternTrie.length_specializations_le` — what a search finds is stored
-/

namespace Datalog

variable {α : Type}

/-- The levels of one predicate, one for each arity, in the order in which the arities were first
used. -/
abbrev Arities (α : Type) : Type := List (Σ n, Level α n)

namespace Arities

/-- The level for arity `n`, which is empty if the arity is not in use. -/
def level (n : Nat) : Arities α → Level α n
  | [] => Level.empty n
  | ⟨m, l⟩ :: rest => if h : m = n then h ▸ l else level n rest

/-- Changes the level for arity `n`. A new arity goes to the end. -/
def update (n : Nat) (f : Level α n → Level α n) : Arities α → Arities α
  | [] => [⟨n, f (Level.empty n)⟩]
  | ⟨m, l⟩ :: rest => if h : m = n then ⟨n, f (h ▸ l)⟩ :: rest else ⟨m, l⟩ :: update n f rest

/-- Everything stored, arity by arity. -/
def contents (arities : Arities α) : List α := arities.flatMap fun ⟨n, l⟩ => l.contents n

theorem contents_cons (entry : Σ n, Level α n) (rest : Arities α) :
    contents (entry :: rest) = entry.2.contents entry.1 ++ contents rest := rfl

theorem level_update (n m : Nat) (f : Level α n → Level α n) (arities : Arities α) :
    (arities.update n f).level m = if h : n = m then h ▸ f (arities.level n) else arities.level m := by
  induction arities with
  | nil => rfl
  | cons entry rest ih =>
    obtain ⟨k, l⟩ := entry
    by_cases hk : k = n
    · subst hk
      by_cases hm : k = m
      · subst hm
        simp [update, level]
      · simp [update, level, hm]
    · by_cases hn : n = m
      · subst hn
        simp only [update, hk, dite_false, level, ih]
      · by_cases hm : k = m
        · subst hm
          simp [update, level, hk, hn]
        · simp only [update, hk, dite_false, level, hm, ih, hn]

theorem contents_level_subset (n : Nat) (arities : Arities α) :
    (arities.level n).contents n ⊆ arities.contents := by
  induction arities with
  | nil => simp [level]
  | cons entry rest ih =>
    obtain ⟨m, l⟩ := entry
    rw [contents_cons]
    by_cases h : m = n
    · subst h
      simp [level]
    · simp only [level, h, dite_false]
      exact List.subset_append_of_subset_right _ ih

theorem length_contents_level_le (n : Nat) (arities : Arities α) :
    ((arities.level n).contents n).length ≤ arities.contents.length := by
  induction arities with
  | nil => simp [level]
  | cons entry rest ih =>
    obtain ⟨m, l⟩ := entry
    rw [contents_cons, List.length_append]
    by_cases h : m = n
    · subst h
      simp [level]
    · simp only [level, h, dite_false]
      omega

/-- A change that adds `v` to a level adds `v` to the contents. -/
theorem contents_update (n : Nat) (v : α) {f : Level α n → Level α n}
    (hf : ∀ l, ((f l).contents n).Perm (v :: l.contents n)) (arities : Arities α) :
    (arities.update n f).contents.Perm (v :: arities.contents) := by
  induction arities with
  | nil => simpa [update, contents] using hf (Level.empty n)
  | cons entry rest ih =>
    obtain ⟨m, l⟩ := entry
    by_cases h : m = n
    · subst h
      simpa [update, contents_cons] using (hf l).append_right (contents rest)
    · simp only [update, h, dite_false, contents_cons]
      exact (ih.append_left _).trans List.perm_middle

end Arities

/-- A trie from atoms to values. -/
structure PatternTrie (α : Type) where
  /-- The levels of every predicate, in the order in which the predicates were first used. -/
  predicates : List (String × Arities α) := []

namespace PatternTrie

/-- The trie that holds nothing. -/
def empty : PatternTrie α := {}

/-- The arities in use for a predicate. -/
def arities (trie : PatternTrie α) (predicate : String) : Arities α :=
  (trie.predicates.lookup predicate).getD []

/-- The level that holds what is stored under atoms with the predicate and the arity of `a`. -/
def root (trie : PatternTrie α) (a : Atom) : Level α a.terms.length :=
  (trie.arities a.predicate).level a.terms.length

/-- Stores `v` under the pattern of `a`. -/
def insert (trie : PatternTrie α) (a : Atom) (v : α) : PatternTrie α where
  predicates :=
    AssocList.upsert a.predicate
      (fun old => (old.getD []).update a.terms.length (Level.insert v a.terms)) trie.predicates

/-- The values stored under exactly the pattern of `a`, in the order in which they were stored. -/
def valuesAt (trie : PatternTrie α) (a : Atom) : List α := Level.valuesAt a.terms (trie.root a)

/-- The values stored under patterns that generalise `a`: at every position they have a variable, or
the constant that `a` has there. -/
def generalizations (trie : PatternTrie α) (a : Atom) : List α :=
  Level.generalizations a.terms (trie.root a)

/-- The values stored under ground patterns that specialise `a`: they agree with `a` wherever `a` has
a constant. -/
def specializations (trie : PatternTrie α) (a : Atom) : List α :=
  Level.specializations a.terms (trie.root a)

/-- Everything stored, predicate by predicate. -/
def contents (trie : PatternTrie α) : List α := trie.predicates.flatMap fun (_, arities) =>
  arities.contents

/-- Every stored value once, predicate by predicate, where it is met first. -/
def values [BEq α] (trie : PatternTrie α) : List α := trie.contents.eraseDups

@[simp] theorem contents_empty : (empty : PatternTrie α).contents = [] := rfl

theorem mem_values [BEq α] [LawfulBEq α] {trie : PatternTrie α} {v : α} :
    v ∈ trie.values ↔ v ∈ trie.contents := List.mem_eraseDups

/-- Inserting a value adds exactly that value to what is stored. -/
theorem contents_insert (trie : PatternTrie α) (a : Atom) (v : α) :
    (trie.insert a v).contents.Perm (v :: trie.contents) := by
  obtain ⟨predicates⟩ := trie
  have add := Arities.contents_update a.terms.length v (Level.contents_insert v a.terms)
  simp only [contents, insert]
  induction predicates with
  | nil => simpa [Arities.contents] using add []
  | cons entry rest ih =>
    obtain ⟨p, arities⟩ := entry
    rw [AssocList.upsert_cons]
    split
    · simpa using (add arities).append_right _
    · simp only [List.flatMap_cons]
      exact (ih.append_left _).trans List.perm_middle

theorem contents_root_subset (trie : PatternTrie α) (a : Atom) :
    (trie.root a).contents a.terms.length ⊆ trie.contents := by
  refine List.Subset.trans (Arities.contents_level_subset _ _) fun v hv => ?_
  rw [arities] at hv
  cases h : trie.predicates.lookup a.predicate with
  | none => simp [h, Arities.contents] at hv
  | some arities =>
    obtain ⟨l₁, l₂, hl, -⟩ := List.lookup_eq_some_iff.1 h
    simp only [h, Option.getD_some] at hv
    simp [contents, hl, hv]

theorem length_contents_root_le (trie : PatternTrie α) (a : Atom) :
    ((trie.root a).contents a.terms.length).length ≤ trie.contents.length := by
  refine Nat.le_trans (Arities.length_contents_level_le _ _) ?_
  rw [arities]
  cases h : trie.predicates.lookup a.predicate with
  | none => simp [Arities.contents]
  | some arities =>
    obtain ⟨l₁, l₂, hl, -⟩ := List.lookup_eq_some_iff.1 h
    simp only [Option.getD_some, contents, hl, List.flatMap_append, List.flatMap_cons,
      List.length_append]
    omega

theorem generalizations_subset (trie : PatternTrie α) (a : Atom) :
    trie.generalizations a ⊆ trie.contents :=
  List.Subset.trans (Level.generalizations_subset _ _) (trie.contents_root_subset a)

theorem specializations_subset (trie : PatternTrie α) (a : Atom) :
    trie.specializations a ⊆ trie.contents :=
  List.Subset.trans (Level.specializations_subset _ _) (trie.contents_root_subset a)

theorem length_specializations_le (trie : PatternTrie α) (a : Atom) :
    (trie.specializations a).length ≤ trie.contents.length :=
  Nat.le_trans (Level.length_specializations_le _ _) (trie.length_contents_root_le a)

end PatternTrie

end Datalog
