import Datalog.Proofs.PatternTrie.History

/-!
# The order of what a search finds

A search goes through its paths one after the other and lists what was inserted there, in the order
of insertion. For generalisations the order of the paths is that of the patterns: at the first
position where two of them differ in kind, the one with the variable comes first.

## Main definitions

* `PatternTrie.Insertion` — an insertion with its number in the history
* `PatternTrie.insertions`, `PatternTrie.insertionsUnder` — the insertions of a history, and those
  at the end of a path
* `Atom.Generalizes` — a pattern has a variable or the same constant at every position
* `Atom.VarFirst`, `PatternTrie.Insertion.Before` — the order of patterns and of insertions

## Main results

* `PatternTrie.flatMap_insertionsUnder_perm`, `PatternTrie.pairwise_flatMap_insertionsUnder` — what
  is found on some paths, and in which order
* `Level.pairwise_generalPaths` — the order of the paths that a search for generalisations visits
* `PatternTrie.generalizations_sorted` — what a search for generalisations finds, and in which order
-/

namespace Datalog

namespace PatternTrie

variable {α : Type}

/-! ### Numbered insertions -/

/-- A value that was inserted under a pattern, as one of a number of insertions. -/
structure Insertion (α : Type) where
  /-- The pattern. -/
  pattern : Atom
  /-- The value. -/
  value : α
  /-- How many insertions there were before. -/
  number : Nat

/-- The insertions of a history, in order. -/
def insertions (entries : List (Atom × α)) : List (Insertion α) :=
  entries.zipIdx.map fun ((pattern, value), number) => ⟨pattern, value, number⟩

/-- The insertions at the end of a path of a predicate, in order. -/
def insertionsUnder (entries : List (Atom × α)) (predicate : String) (path : List Key) :
    List (Insertion α) :=
  (insertions entries).filter fun i => (i.pattern.predicate, i.pattern.path) = (predicate, path)

theorem map_insertions (entries : List (Atom × α)) :
    ((insertions entries).map fun i => (i.pattern, i.value)) = entries := by
  rw [insertions, List.map_map]
  exact List.zipIdx_map_fst 0 entries

/-- Later insertions have higher numbers. -/
theorem pairwise_insertions (entries : List (Atom × α)) :
    (insertions entries).Pairwise fun i j => i.number < j.number := by
  have hnumbers : (insertions entries).map Insertion.number = List.range' 0 entries.length := by
    rw [insertions, List.map_map]
    exact List.zipIdx_map_snd 0 entries
  rw [← List.pairwise_map (f := Insertion.number) (R := (· < ·)), hnumbers]
  exact List.pairwise_lt_range'

/-- The values at the end of a path are those of the insertions there. -/
theorem map_value_insertionsUnder (entries : List (Atom × α)) (predicate : String)
    (path : List Key) :
    (insertionsUnder entries predicate path).map Insertion.value =
      (ofEntries entries).valuesUnder predicate path := by
  have hfilter := List.filter_map (f := fun i : Insertion α => (i.pattern, i.value))
    (p := fun e => decide ((e.1.predicate, e.1.path) = (predicate, path))) (l := insertions entries)
  rw [map_insertions] at hfilter
  rw [valuesUnder_ofEntries, hfilter, List.map_map]
  rfl

/-- What is found on some paths of a predicate are the insertions there, whatever the order. -/
theorem flatMap_insertionsUnder_perm (entries : List (Atom × α)) (predicate : String)
    {paths : List (List Key)} (hpaths : paths.Nodup) :
    (paths.flatMap fun path => insertionsUnder entries predicate path).Perm
      ((insertions entries).filter fun i =>
        i.pattern.predicate = predicate ∧ i.pattern.path ∈ paths) :=
  flatMap_filter_pair_perm (fun i : Insertion α => i.pattern.predicate)
    (fun i => i.pattern.path) predicate hpaths (insertions entries)

/-- What is found on some paths stands in the order of the paths, and on one path in the order of
insertion. -/
theorem pairwise_flatMap_insertionsUnder (entries : List (Atom × α)) (predicate : String)
    {paths : List (List Key)} {R : List Key → List Key → Prop} (hpaths : paths.Pairwise R) :
    (paths.flatMap fun path => insertionsUnder entries predicate path).Pairwise fun i j =>
      R i.pattern.path j.pattern.path ∨ i.pattern.SamePattern j.pattern ∧ i.number < j.number := by
  have hunder : ∀ {path i}, i ∈ insertionsUnder entries predicate path →
      i.pattern.predicate = predicate ∧ i.pattern.path = path := by
    intro path i hi
    simpa [insertionsUnder] using (List.mem_filter.mp hi).2
  rw [List.pairwise_flatMap]
  constructor
  -- On one path the order is that of insertion, which leaving out the other paths does not change.
  · intro path _
    have hnumbers : (insertionsUnder entries predicate path).Pairwise fun i j =>
        i.number < j.number := (pairwise_insertions entries).sublist List.filter_sublist
    refine hnumbers.imp_of_mem fun {i j} hi hj hlt => Or.inr ⟨⟨?_, ?_⟩, hlt⟩
    · rw [(hunder hi).1, (hunder hj).1]
    · rw [(hunder hi).2, (hunder hj).2]
  · refine hpaths.imp fun {path path'} hR i hi j hj => Or.inl ?_
    rwa [(hunder hi).2, (hunder hj).2]

end PatternTrie

/-! ### The order of patterns -/

/-- The pattern generalises the query: it has the same predicate and as many arguments, and at every
position a variable or the constant that the query has there. -/
def Atom.Generalizes (p q : Atom) : Prop :=
  p.predicate = q.predicate ∧ List.Forall₂ (fun s t => s.isVar = true ∨ s = t) p.terms q.terms

instance (p q : Atom) : Decidable (p.Generalizes q) := inferInstanceAs (Decidable (_ ∧ _))

/-- At the first position where the patterns differ in kind, `p` has a variable and `q` a constant.
-/
def Atom.VarFirst (p q : Atom) : Prop :=
  ∃ (k : Nat) (x c : String), p.terms[k]? = some (.var x) ∧ q.terms[k]? = some (.const c) ∧
    ∀ i < k, (p.terms[i]?).map Term.isVar = (q.terms[i]?).map Term.isVar

theorem Key.covers_ofTerm_iff {s t : Term} : (Key.ofTerm s).Covers t ↔ s.isVar = true ∨ s = t := by
  cases s <;> cases t <;> simp [Key.Covers, Key.ofTerm]

theorem Atom.covers_iff_generalizes {p q : Atom} : p.Covers q ↔ p.Generalizes q := by
  rw [Covers, Generalizes, path, Key.path, List.forall₂_map_left_iff]
  simp only [Key.covers_ofTerm_iff]

theorem Atom.getElem?_path (p : Atom) (k : Nat) : p.path[k]? = (p.terms[k]?).map Key.ofTerm :=
  List.getElem?_map

/-- The kinds of the terms of a pattern can be told from its path. -/
theorem Atom.map_isVar_getElem? (p : Atom) (k : Nat) :
    (p.terms[k]?).map Term.isVar = (p.path[k]?).map Key.isWildcard := by
  have hkind : Key.isWildcard ∘ Key.ofTerm = Term.isVar := by
    funext t
    cases t <;> rfl
  rw [getElem?_path, Option.map_map, hkind]

namespace Atom.VarFirst

variable {p q : Atom}

theorem path_ne (h : p.VarFirst q) : p.path ≠ q.path := by
  obtain ⟨k, x, c, hp, hq, -⟩ := h
  intro same
  have hkey : p.path[k]? = q.path[k]? := congrArg (·[k]?) same
  simp [getElem?_path, hp, hq, Key.ofTerm] at hkey

/-- Two patterns do not each come before the other. -/
theorem asymm (h : p.VarFirst q) : ¬ q.VarFirst p := by
  obtain ⟨k, x, c, hp, hq, hbefore⟩ := h
  rintro ⟨k', x', c', hq', hp', hbefore'⟩
  -- At the smaller of the two positions the patterns would have the same kind and different kinds.
  rcases Nat.lt_trichotomy k k' with hlt | rfl | hlt
  · simpa [hp, hq] using hbefore' k hlt
  · simp [hp] at hp'
  · simpa [hp', hq'] using hbefore k' hlt

end Atom.VarFirst

namespace Level

/-- Where the paths part, the first goes on with the wildcard and the second with a constant. -/
def WildcardFirst (path path' : List Key) : Prop :=
  ∃ common c rest rest', path = common ++ .wildcard :: rest ∧ path' = common ++ .const c :: rest'

theorem WildcardFirst.cons {path path' : List Key} (h : WildcardFirst path path') (key : Key) :
    WildcardFirst (key :: path) (key :: path') := by
  obtain ⟨common, c, rest, rest', rfl, rfl⟩ := h
  exact ⟨key :: common, c, rest, rest', rfl, rfl⟩

/-- A search for generalisations visits the path with the wildcard first. -/
theorem pairwise_generalPaths (terms : List Term) :
    (generalPaths terms).Pairwise WildcardFirst := by
  have under : ∀ (key : Key) {paths : List (List Key)}, paths.Pairwise WildcardFirst →
      (paths.map (key :: ·)).Pairwise WildcardFirst := fun key paths h =>
    List.pairwise_map.mpr (h.imp fun hfirst => hfirst.cons key)
  induction terms with
  | nil => exact List.pairwise_singleton _ _
  | cons t ts ih =>
    cases t with
    | var x => exact under .wildcard ih
    | const c =>
      refine List.pairwise_append.mpr ⟨under .wildcard ih, under (.const c) ih, ?_⟩
      -- Paths of the two branches part at once.
      intro path hpath path' hpath'
      obtain ⟨rest, -, rfl⟩ := List.mem_map.mp hpath
      obtain ⟨rest', -, rfl⟩ := List.mem_map.mp hpath'
      exact ⟨[], c, rest, rest', rfl, rfl⟩

/-- Patterns differ in kind only after their paths have parted. -/
theorem WildcardFirst.varFirst {p q : Atom} (h : WildcardFirst p.path q.path) : p.VarFirst q := by
  obtain ⟨common, c, rest, rest', hp, hq⟩ := h
  obtain ⟨s, hs, hvar⟩ : ∃ s, p.terms[common.length]? = some s ∧ Key.ofTerm s = .wildcard := by
    rw [← Option.map_eq_some_iff, ← Atom.getElem?_path, hp]
    simp
  obtain ⟨t, ht, hconst⟩ : ∃ t, q.terms[common.length]? = some t ∧ Key.ofTerm t = .const c := by
    rw [← Option.map_eq_some_iff, ← Atom.getElem?_path, hq]
    simp
  cases s with
  | const d => cases hvar
  | var x =>
    cases t with
    | var y => cases hconst
    | const d =>
      refine ⟨common.length, x, d, hs, ht, fun i hi => ?_⟩
      rw [Atom.map_isVar_getElem?, Atom.map_isVar_getElem?, hp, hq, List.getElem?_append_left hi,
        List.getElem?_append_left hi]

end Level

namespace PatternTrie

variable {α : Type}

/-- The order of insertions: that of their patterns, and for one pattern that of insertion. -/
def Insertion.Before (i j : Insertion α) : Prop :=
  i.pattern.VarFirst j.pattern ∨ i.pattern.SamePattern j.pattern ∧ i.number < j.number

/-- Two insertions do not each come before the other. -/
theorem Insertion.Before.asymm {i j : Insertion α} (h : i.Before j) : ¬ j.Before i := by
  rintro (hfirst' | ⟨hsame', hlt'⟩)
  · rcases h with hfirst | ⟨hsame, -⟩
    · exact hfirst.asymm hfirst'
    · exact hfirst'.path_ne hsame.2.symm
  · rcases h with hfirst | ⟨-, hlt⟩
    · exact hfirst.path_ne hsame'.2.symm
    · exact Nat.lt_asymm hlt hlt'

/-- A search for generalisations lists the values that were inserted under a pattern that
generalises the query, one for each insertion. Of two patterns the one comes first that has a
variable where they first differ in kind, and values of one pattern stand in the order of insertion.
No other arrangement of these insertions is in this order. -/
theorem generalizations_sorted (entries : List (Atom × α)) (q : Atom) :
    ∃ found : List (Insertion α),
      found.Perm ((insertions entries).filter fun i => i.pattern.Generalizes q) ∧
        found.Pairwise Insertion.Before ∧
        (ofEntries entries).generalizations q = found.map Insertion.value ∧
        ∀ other : List (Insertion α), other.Perm found → other.Pairwise Insertion.Before →
          other = found := by
  -- The search goes through the paths that cover the query, in their order.
  let found := (Level.generalPaths q.terms).flatMap (insertionsUnder entries q.predicate)
  have hordered : found.Pairwise Insertion.Before :=
    (pairwise_flatMap_insertionsUnder entries q.predicate
      (Level.pairwise_generalPaths q.terms)).imp fun h => h.imp_left Level.WildcardFirst.varFirst
  refine ⟨found, ?_, hordered, ?_, fun other hperm hother => ?_⟩
  · refine (flatMap_insertionsUnder_perm entries q.predicate
      (Level.nodup_generalPaths q.terms)).trans (List.Perm.of_eq (List.filter_congr fun i _ => ?_))
    rw [decide_eq_decide, Level.mem_generalPaths, ← Atom.covers_iff_generalizes, Atom.Covers]
  · rw [generalizations, Level.generalizations_eq, map_valuesUnder_root, List.map_flatMap]
    · simp only [map_value_insertionsUnder]
    · exact fun path hpath => (Level.mem_generalPaths.mp hpath).length_eq
  · exact hperm.eq_of_pairwise (fun i j _ _ hij hji => absurd hji hij.asymm) hother hordered

/-- A variable comes before a constant, whenever it was inserted. Patterns that differ only in the
names of their variables stand as they were inserted. -/
example :
    let p (s t : Term) : Atom := ⟨"p", [s, t]⟩
    (ofEntries [(p (.const "a") (.const "b"), 0), (p (.const "a") (.var "?y"), 1),
        (p (.var "?x") (.const "b"), 2), (p (.var "?z") (.const "b"), 3),
        (p (.const "b") (.var "?y"), 4)]).generalizations (p (.const "a") (.const "b")) =
      [2, 3, 1, 0] := by
  decide

end PatternTrie

end Datalog
