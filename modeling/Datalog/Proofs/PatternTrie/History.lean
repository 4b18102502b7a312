import Datalog.PatternTrie
import Datalog.Proofs.PatternTrie.Path
import Mathlib.Data.List.Induction
import Mathlib.Data.List.Perm.Basic

/-!
# What a pattern trie has been told

A trie answers from the history of its insertions. Both searches find, as often as it was inserted,
every value whose atom has the predicate of the query and a path of the right kind: for a
generalisation the keys cover the arguments of the query, for a specialisation they refine them.

## Main definitions

* `PatternTrie.ofEntries` — the trie after some insertions
* `PatternTrie.valuesUnder` — the values of a predicate and a path
* `Atom.SamePattern` — two atoms that are stored at one place

## Main results

* `PatternTrie.valuesUnder_ofEntries` — the values of a path, in the order of insertion
* `PatternTrie.valuesAt_ofEntries` — the values of a pattern, in the order of insertion
* `PatternTrie.contents_ofEntries` — nothing is lost and nothing is added
* `PatternTrie.generalizations_ofEntries`, `PatternTrie.specializations_ofEntries` — what the searches
  find, up to order
* `PatternTrie.generalizations_filter` — what a search finds when some values were left out
-/

namespace Datalog

/-- The path to what is stored under an atom of its predicate. -/
def Atom.path (a : Atom) : List Key := Key.path a.terms

@[simp] theorem Atom.length_path (a : Atom) : a.path.length = a.terms.length :=
  Key.length_path a.terms

instance (key : Key) (t : Term) : Decidable (key.Covers t) :=
  inferInstanceAs (Decidable (_ ∨ _))

instance (key : Key) (t : Term) : Decidable (key.Refines t) :=
  inferInstanceAs (Decidable (_ ∧ _))

/-- What is stored under `p` is found by a search for generalisations of `a`. -/
def Atom.Covers (p a : Atom) : Prop :=
  p.predicate = a.predicate ∧ List.Forall₂ Key.Covers p.path a.terms

/-- What is stored under `p` is found by a search for specialisations of `a`. -/
def Atom.Refines (p a : Atom) : Prop :=
  p.predicate = a.predicate ∧ List.Forall₂ Key.Refines p.path a.terms

instance (p a : Atom) : Decidable (p.Covers a) := inferInstanceAs (Decidable (_ ∧ _))

instance (p a : Atom) : Decidable (p.Refines a) := inferInstanceAs (Decidable (_ ∧ _))

/-- The two atoms are stored at one place: they have the same predicate, and at every position the same
constant or both a variable. -/
def Atom.SamePattern (p q : Atom) : Prop := p.predicate = q.predicate ∧ p.path = q.path

instance (p q : Atom) : Decidable (p.SamePattern q) := inferInstanceAs (Decidable (_ ∧ _))

/-- Collecting entries key by key finds every entry whose key is asked for. -/
theorem flatMap_filter_perm {κ β : Type} [DecidableEq κ] (key : β → κ) {keys : List κ}
    (hkeys : keys.Nodup) (entries : List β) :
    (keys.flatMap fun k => entries.filter fun e => key e = k).Perm
      (entries.filter fun e => key e ∈ keys) := by
  induction keys with
  | nil => simp
  | cons k rest ih =>
    rw [List.nodup_cons] at hkeys
    have first : (entries.filter fun e => key e ∈ k :: rest).filter (fun e => key e = k) =
        entries.filter fun e => key e = k := by
      rw [List.filter_filter]
      exact List.filter_congr fun e _ => by by_cases h : key e = k <;> simp [h]
    have others : (entries.filter fun e => key e ∈ k :: rest).filter (fun e => !decide (key e = k)) =
        entries.filter fun e => key e ∈ rest := by
      rw [List.filter_filter]
      refine List.filter_congr fun e _ => ?_
      by_cases h : key e = k
      · simp [h, hkeys.1]
      · simp [h]
    -- The entries with the first key come first, then those with one of the other keys.
    have split := List.filter_append_perm (fun e => decide (key e = k))
      (entries.filter fun e => key e ∈ k :: rest)
    rw [first, others] at split
    rw [List.flatMap_cons]
    exact ((ih hkeys.2).append_left _).trans split

/-- So it does among the entries that agree on another key. -/
theorem flatMap_filter_pair_perm {κ₁ κ₂ β : Type} [DecidableEq κ₁] [DecidableEq κ₂]
    (first : β → κ₁) (second : β → κ₂) (k₁ : κ₁) {keys : List κ₂} [DecidablePred (· ∈ keys)]
    (hkeys : keys.Nodup) (entries : List β) :
    (keys.flatMap fun k₂ => entries.filter fun e => (first e, second e) = (k₁, k₂)).Perm
      (entries.filter fun e => first e = k₁ ∧ second e ∈ keys) := by
  have same : ∀ k₂, (entries.filter fun e => (first e, second e) = (k₁, k₂)) =
      (entries.filter fun e => first e = k₁).filter fun e => second e = k₂ := by
    intro k₂
    rw [List.filter_filter]
    simp [Bool.and_comm]
  have collect := flatMap_filter_perm second hkeys (entries.filter fun e => first e = k₁)
  rw [List.filter_filter] at collect
  simp only [same]
  refine collect.trans (List.Perm.of_eq (List.filter_congr fun e _ => ?_))
  rw [Bool.eq_iff_iff]
  simp [and_comm]

/-- Changing one arity changes one path of that arity. -/
theorem Arities.valuesUnder_update {α : Type} (arities : Arities α) (v : α) (terms : List Term)
    {n : Nat} {path : List Key} (hlength : path.length = n) :
    Level.valuesUnder n path ((arities.update terms.length (Level.insert v terms)).level n) =
      if Key.path terms = path then Level.valuesUnder n path (arities.level n) ++ [v]
      else Level.valuesUnder n path (arities.level n) := by
  rw [level_update]
  by_cases h : terms.length = n
  · subst h
    rw [dif_pos rfl, Level.valuesUnder_insert]
    simp only [eq_comm]
  -- Arguments of another number have another path.
  · have hpath : Key.path terms ≠ path := fun same => h (by rw [← hlength, ← same, Key.length_path])
    rw [dif_neg h, if_neg hpath]

namespace PatternTrie

variable {α : Type}

/-- The values stored under a predicate at the end of a path. -/
def valuesUnder (trie : PatternTrie α) (predicate : String) (path : List Key) : List α :=
  Level.valuesUnder path.length path ((trie.arities predicate).level path.length)

theorem valuesUnder_of_length {trie : PatternTrie α} {predicate : String} {path : List Key} {n : Nat}
    (h : path.length = n) :
    Level.valuesUnder n path ((trie.arities predicate).level n) = trie.valuesUnder predicate path := by
  subst h
  rfl

@[simp] theorem valuesUnder_empty (predicate : String) (path : List Key) :
    (empty : PatternTrie α).valuesUnder predicate path = [] :=
  Level.valuesUnder_empty _ _

theorem arities_insert (trie : PatternTrie α) (a : Atom) (v : α) (predicate : String) :
    (trie.insert a v).arities predicate =
      if predicate = a.predicate then
        (trie.arities predicate).update a.terms.length (Level.insert v a.terms)
      else trie.arities predicate := by
  rw [arities, insert, AssocList.lookup_upsert]
  split
  · rename_i same
    rw [same]
    rfl
  · rfl

/-- Inserting a value leaves the levels of other predicates and of other arities alone. -/
theorem root_insert_of_ne (trie : PatternTrie α) {a b : Atom} (v : α)
    (h : a.predicate = b.predicate → a.terms.length ≠ b.terms.length) :
    (trie.insert a v).root b = trie.root b := by
  rw [root, arities_insert, root]
  by_cases hpredicate : a.predicate = b.predicate
  · rw [if_pos hpredicate.symm, Arities.level_update, dif_neg (h hpredicate)]
  · rw [if_neg (Ne.symm hpredicate)]

/-- Inserting a value adds it at the end of one path of one predicate. -/
theorem valuesUnder_insert (trie : PatternTrie α) (a : Atom) (v : α) (predicate : String)
    (path : List Key) :
    (trie.insert a v).valuesUnder predicate path =
      if a.predicate = predicate ∧ a.path = path then trie.valuesUnder predicate path ++ [v]
      else trie.valuesUnder predicate path := by
  by_cases hpredicate : a.predicate = predicate
  · subst hpredicate
    rw [valuesUnder, arities_insert, if_pos rfl, Arities.valuesUnder_update _ _ _ rfl]
    simp [valuesUnder, Atom.path]
  · have hne : predicate ≠ a.predicate := fun h => hpredicate h.symm
    rw [valuesUnder, arities_insert, if_neg hne]
    simp [hpredicate, valuesUnder]

/-! ### Histories -/

/-- Stores the values under their atoms, one after the other. -/
def insertAll (trie : PatternTrie α) (entries : List (Atom × α)) : PatternTrie α :=
  entries.foldl (fun trie entry => trie.insert entry.1 entry.2) trie

/-- The trie after some insertions. -/
def ofEntries (entries : List (Atom × α)) : PatternTrie α := empty.insertAll entries

theorem insertAll_append (trie : PatternTrie α) (first second : List (Atom × α)) :
    trie.insertAll (first ++ second) = (trie.insertAll first).insertAll second :=
  List.foldl_append

theorem ofEntries_append_singleton (entries : List (Atom × α)) (a : Atom) (v : α) :
    ofEntries (entries ++ [(a, v)]) = (ofEntries entries).insert a v := by
  rw [ofEntries, insertAll_append]
  rfl

/-- The values of a path are those that were inserted there, in order. -/
theorem valuesUnder_ofEntries (entries : List (Atom × α)) (predicate : String) (path : List Key) :
    (ofEntries entries).valuesUnder predicate path =
      (entries.filter fun e => (e.1.predicate, e.1.path) = (predicate, path)).map Prod.snd := by
  induction entries using List.reverseRecOn with
  | nil => exact valuesUnder_empty predicate path
  | append_singleton entries entry ih =>
    obtain ⟨a, v⟩ := entry
    rw [ofEntries_append_singleton, valuesUnder_insert, ih, List.filter_append, List.map_append]
    by_cases h : a.predicate = predicate ∧ a.path = path <;> simp [h]

theorem valuesAt_eq (trie : PatternTrie α) (q : Atom) :
    trie.valuesAt q = trie.valuesUnder q.predicate q.path := by
  rw [valuesAt, ← Level.valuesUnder_path]
  exact valuesUnder_of_length q.length_path

/-- The values of a pattern are those that were inserted under it, in order. -/
theorem valuesAt_ofEntries (entries : List (Atom × α)) (q : Atom) :
    (ofEntries entries).valuesAt q = (entries.filter fun e => e.1.SamePattern q).map Prod.snd := by
  rw [valuesAt_eq, valuesUnder_ofEntries]
  refine congrArg _ (List.filter_congr fun e _ => ?_)
  rw [decide_eq_decide, Prod.mk.injEq, Atom.SamePattern]

theorem mem_valuesAt_ofEntries {entries : List (Atom × α)} {q : Atom} {v : α} :
    v ∈ (ofEntries entries).valuesAt q ↔ ∃ e ∈ entries, e.1.SamePattern q ∧ e.2 = v := by
  simp only [valuesAt_ofEntries, List.mem_map, List.mem_filter, decide_eq_true_eq, and_assoc]

/-- Values that were inserted once are found once. -/
theorem nodup_valuesAt_ofEntries {entries : List (Atom × α)} (h : (entries.map Prod.snd).Nodup)
    (q : Atom) : ((ofEntries entries).valuesAt q).Nodup := by
  rw [valuesAt_ofEntries]
  exact h.sublist (List.filter_sublist.map _)

/-- Everything that was inserted is stored, as often as it was inserted. -/
theorem contents_ofEntries (entries : List (Atom × α)) :
    (ofEntries entries).contents.Perm (entries.map Prod.snd) := by
  induction entries using List.reverseRecOn with
  | nil => exact List.Perm.refl _
  | append_singleton entries entry ih =>
    obtain ⟨a, v⟩ := entry
    rw [ofEntries_append_singleton, List.map_append]
    exact (contents_insert _ a v).trans
      ((ih.cons v).trans (List.perm_append_singleton v _).symm)

theorem distinct_level_ofEntries (entries : List (Atom × α)) (predicate : String) (n : Nat) :
    Level.Distinct n (((ofEntries entries).arities predicate).level n) := by
  induction entries using List.reverseRecOn with
  | nil => exact Level.distinct_empty n
  | append_singleton entries entry ih =>
    obtain ⟨a, v⟩ := entry
    rw [ofEntries_append_singleton, arities_insert]
    split
    · rw [Arities.level_update]
      split
      · rename_i hlength
        subst hlength
        exact Level.distinct_insert v a.terms _ ih
      · exact ih
    · exact ih

/-- The values of some paths of a predicate, one path after the other, are up to order the values that
were inserted there. -/
theorem flatMap_valuesUnder_perm (entries : List (Atom × α)) (predicate : String)
    {paths : List (List Key)} (hpaths : paths.Nodup) :
    (paths.flatMap fun path => (ofEntries entries).valuesUnder predicate path).Perm
      ((entries.filter fun e => e.1.predicate = predicate ∧ e.1.path ∈ paths).map Prod.snd) := by
  simp only [valuesUnder_ofEntries, ← List.map_flatMap]
  exact (flatMap_filter_pair_perm (fun e => e.1.predicate) (fun e => e.1.path) predicate hpaths
    entries).map Prod.snd

theorem map_valuesUnder_root (trie : PatternTrie α) (a : Atom) {paths : List (List Key)}
    (h : ∀ path ∈ paths, path.length = a.terms.length) :
    (paths.flatMap fun path => Level.valuesUnder a.terms.length path (trie.root a)) =
      paths.flatMap fun path => trie.valuesUnder a.predicate path :=
  List.flatMap_congr fun path hpath => valuesUnder_of_length (h path hpath)

/-- A search for generalisations lists what is stored on its paths, one path after the other. -/
theorem generalizations_eq_flatMap (trie : PatternTrie α) (a : Atom) :
    trie.generalizations a =
      (Level.generalPaths a.terms).flatMap fun path => trie.valuesUnder a.predicate path := by
  rw [generalizations, Level.generalizations_eq, map_valuesUnder_root]
  exact fun path hpath => (Level.mem_generalPaths.mp hpath).length_eq

/-- A search for generalisations finds the values of the atoms whose keys cover the arguments. -/
theorem generalizations_ofEntries (entries : List (Atom × α)) (a : Atom) :
    ((ofEntries entries).generalizations a).Perm
      ((entries.filter fun e => e.1.Covers a).map Prod.snd) := by
  rw [generalizations_eq_flatMap]
  refine (flatMap_valuesUnder_perm entries a.predicate (Level.nodup_generalPaths a.terms)).trans
    (List.Perm.of_eq (congrArg _ (List.filter_congr fun e _ => ?_)))
  rw [decide_eq_decide, Level.mem_generalPaths, Atom.Covers]

/-- Values that were never inserted are missing from what is found, and the others stand in the same
order. -/
theorem generalizations_filter (entries : List (Atom × α)) (keep : α → Bool) (a : Atom) :
    (ofEntries (entries.filter fun e => keep e.2)).generalizations a =
      ((ofEntries entries).generalizations a).filter keep := by
  rw [generalizations_eq_flatMap, generalizations_eq_flatMap, List.filter_flatMap]
  refine List.flatMap_congr fun path _ => ?_
  rw [valuesUnder_ofEntries, valuesUnder_ofEntries, List.filter_map, List.filter_filter,
    List.filter_filter]
  simp [Bool.and_comm]

/-- A search for specialisations lists what was inserted on its paths, one path after the other. -/
theorem specializations_eq_flatMap (entries : List (Atom × α)) (a : Atom) :
    (ofEntries entries).specializations a =
      (Level.specialPaths a.terms ((ofEntries entries).root a)).flatMap fun path =>
        (ofEntries entries).valuesUnder a.predicate path := by
  have hdistinct := distinct_level_ofEntries entries a.predicate a.terms.length
  rw [specializations, root, Level.specializations_eq _ _ hdistinct, ← root, map_valuesUnder_root]
  exact fun path hpath => (Level.refines_of_mem_specialPaths hpath).length_eq

/-- Of the paths on which something was inserted, it visits those that refine the arguments. -/
theorem mem_specialPaths_ofEntries {entries : List (Atom × α)} {e : Atom × α} (he : e ∈ entries)
    (a : Atom) :
    e.1.predicate = a.predicate ∧ e.1.path ∈ Level.specialPaths a.terms ((ofEntries entries).root a) ↔
      e.1.Refines a := by
  have hdistinct := distinct_level_ofEntries entries a.predicate a.terms.length
  refine and_congr_right fun hpredicate => ⟨Level.refines_of_mem_specialPaths, fun hrefines => ?_⟩
  refine Level.mem_specialPaths_of_refines hdistinct hrefines ?_
  -- The value of the entry is stored at the end of its path.
  have hlength : e.1.path.length = a.terms.length := hrefines.length_eq
  have hstored : e.2 ∈ (ofEntries entries).valuesUnder a.predicate e.1.path := by
    rw [valuesUnder_ofEntries]
    exact List.mem_map.mpr ⟨e, List.mem_filter.mpr ⟨he, by simp [hpredicate]⟩, rfl⟩
  rw [root, valuesUnder_of_length hlength]
  exact List.ne_nil_of_mem hstored

/-- A search for specialisations finds the values of the atoms whose keys refine the arguments. -/
theorem specializations_ofEntries (entries : List (Atom × α)) (a : Atom) :
    ((ofEntries entries).specializations a).Perm
      ((entries.filter fun e => e.1.Refines a).map Prod.snd) := by
  have hdistinct := distinct_level_ofEntries entries a.predicate a.terms.length
  rw [specializations_eq_flatMap]
  refine (flatMap_valuesUnder_perm entries a.predicate (Level.nodup_specialPaths hdistinct)).trans
    (List.Perm.of_eq (congrArg _ (List.filter_congr fun e he => ?_)))
  rw [decide_eq_decide]
  exact mem_specialPaths_ofEntries he a

end PatternTrie

end Datalog
