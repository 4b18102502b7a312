import Datalog.Proofs.Distinct
import Datalog.Proofs.PatternTrie.Order

/-!
# Branches in the order of first use

A search for specialisations enters, where the query has a variable, every branch of a constant, and
the one that was used last comes first. Which one that is has been decided by the insertions: the
branches at a node are the keys that the insertions went on with there, each once, in the order in
which they were first used. It does not matter what these insertions went on with further down, so a
pattern with variables, which is never found, can still decide the order of those that are.

## Main definitions

* `Key.next?` — the key that a path goes on with after some keys
* `Level.branches`, `PatternTrie.branches` — the branches at the node that some keys lead to
* `Atom.Specializes` — a ground pattern agrees with the query wherever the query has a constant
* `PatternTrie.firstUse` — how many insertions there were before one with the first arguments of a
  pattern
* `PatternTrie.Insertion.Newer` — the order of insertions

## Main results

* `Level.branches_insert` — inserting adds at most one branch, at the end
* `PatternTrie.branches_ofEntries` — the branches at a node, told by the insertions
* `Level.pairwise_specialPaths` — the order of the paths that a search for specialisations visits
* `PatternTrie.specializations_sorted` — what a search for specialisations finds, and in which order
-/

namespace Datalog

/-! ### The branches at a node -/

/-- The key that a path goes on with after the keys `start`, if it starts with them. -/
def Key.next? : (start path : List Key) → Option Key
  | [], path => path.head?
  | _ :: _, [] => none
  | key :: start, key' :: path => if key = key' then next? start path else none

theorem Key.next?_eq_some_iff {start path : List Key} {key : Key} :
    Key.next? start path = some key ↔ path.take (start.length + 1) = start ++ [key] := by
  induction start generalizing path with
  | nil => cases path <;> simp [next?]
  | cons first start ih =>
    cases path with
    | nil => simp [next?]
    | cons first' path => by_cases h : first = first' <;> simp [next?, h, ih, eq_comm]

theorem Key.take_of_next?_eq_some {start path : List Key} {key : Key}
    (h : Key.next? start path = some key) : path.take start.length = start := by
  have hstart := congrArg (List.take start.length) (Key.next?_eq_some_iff.mp h)
  simpa [List.take_take] using hstart

namespace Level

variable {α : Type} {n : Nat}

/-- The keys of the branches at the node that the keys `start` lead to, in order. -/
def branches : (n : Nat) → (start : List Key) → Level α n → List Key
  | 0, _, _ => []
  | n + 1, [], children => (show List (Key × Level α n) from children).map Prod.fst
  | n + 1, key :: start, children =>
    ((show List (Key × Level α n) from children).lookup key).elim [] (branches n start)

theorem branches_nil (children : List (Key × Level α n)) :
    branches (n + 1) [] children = children.map Prod.fst := rfl

theorem branches_cons (key : Key) (start : List Key) (children : List (Key × Level α n)) :
    branches (n + 1) (key :: start) children = (children.lookup key).elim [] (branches n start) :=
  rfl

@[simp] theorem branches_empty (n : Nat) (start : List Key) :
    branches n start (empty n : Level α n) = [] := by
  cases n <;> cases start <;> rfl

theorem nodup_branches {level : Level α n} (h : Distinct n level) (start : List Key) :
    (branches n start level).Nodup := by
  induction n generalizing start with
  | zero => cases start <;> exact List.nodup_nil
  | succ n ih =>
    cases start with
    | nil => exact h.1
    | cons key start =>
      have step : ∀ children : List (Key × Level α n), Distinct (n + 1) children →
          (branches (n + 1) (key :: start) children).Nodup := by
        intro children hchildren
        rw [branches_cons]
        cases hchild : children.lookup key with
        | none => exact List.nodup_nil
        | some child => exact ih (hchildren.2 key child hchild) start
      exact step level h

/-- Inserting a value adds, at every node on its way, the branch that it takes there. A branch that is
new goes to the end. -/
theorem branches_insert (v : α) (terms : List Term) (level : Level α terms.length)
    (hdistinct : Distinct terms.length level) (start : List Key) :
    branches terms.length start (insert v terms level) =
      (branches terms.length start level ++
        (Key.next? start (Key.path terms)).toList).eraseDups := by
  induction terms generalizing start with
  | nil => cases start <;> rfl
  | cons t ts ih =>
    have step : ∀ children : List (Key × Level α ts.length), Distinct (ts.length + 1) children →
        branches (ts.length + 1) start (AssocList.upsert (Key.ofTerm t)
            (fun child => insert v ts (child.getD (empty ts.length))) children) =
          (branches (ts.length + 1) start children ++
            (Key.next? start (Key.path (t :: ts))).toList).eraseDups := by
      intro children hchildren
      cases start with
      | nil =>
        simp only [branches_nil, AssocList.keys_upsert, Key.next?, Key.path_cons, List.head?_cons,
          Option.toList_some]
        rw [eraseDups_append_singleton, eraseDups_of_nodup hchildren.1]
      | cons key start =>
        simp only [branches_cons, AssocList.lookup_upsert, Key.next?, Key.path_cons]
        split
        · rename_i hkey
          subst hkey
          rw [Option.elim_some]
          cases hchild : children.lookup (Key.ofTerm t) with
          | none => simpa using ih _ (distinct_empty _) start
          | some child => simpa using ih _ (hchildren.2 _ child hchild) start
        · have hnodup : (branches (ts.length + 1) (key :: start) children).Nodup :=
            nodup_branches hchildren _
          rw [branches_cons] at hnodup
          simpa using (eraseDups_of_nodup hnodup).symm
    exact step level hdistinct

/-! ### The order of the visited paths -/

/-- Where the paths part, the second goes on with a branch that stands before that of the first. -/
def NewerFirst (level : Level α n) (path path' : List Key) : Prop :=
  ∃ start key key', Key.next? start path = some key ∧ Key.next? start path' = some key' ∧
    [key', key].Sublist (branches n start level)

theorem NewerFirst.cons {children : List (Key × Level α n)} {key : Key} {child : Level α n}
    {path path' : List Key} (h : NewerFirst child path path')
    (hchild : children.lookup key = some child) :
    NewerFirst (n := n + 1) children (key :: path) (key :: path') := by
  obtain ⟨start, k, k', hk, hk', hbranches⟩ := h
  refine ⟨key :: start, k, k', ?_, ?_, ?_⟩
  · rwa [Key.next?, if_pos rfl]
  · rwa [Key.next?, if_pos rfl]
  · rwa [branches_cons, hchild]

/-- A search for specialisations visits the path with the newer branch first. -/
theorem pairwise_specialPaths {terms : List Term} {level : Level α terms.length}
    (hdistinct : Distinct terms.length level) :
    (specialPaths terms level).Pairwise (NewerFirst level) := by
  have under : ∀ {n : Nat} {children : List (Key × Level α n)} {key : Key} {child : Level α n}
      {paths : List (List Key)}, children.lookup key = some child →
      paths.Pairwise (NewerFirst child) →
      (paths.map (key :: ·)).Pairwise (NewerFirst (n := n + 1) children) := fun hchild h =>
    List.pairwise_map.mpr (h.imp fun hfirst => hfirst.cons hchild)
  induction terms with
  | nil => exact List.pairwise_singleton _ _
  | cons t ts ih =>
    cases t with
    | const c =>
      have step : ∀ children : List (Key × Level α ts.length), Distinct (ts.length + 1) children →
          (specialPaths (.const c :: ts) children).Pairwise
            (NewerFirst (n := ts.length + 1) children) := by
        intro children hchildren
        rw [specialPaths_const]
        cases hchild : children.lookup (.const c) with
        | none => exact List.Pairwise.nil
        | some child => exact under hchild (ih (hchildren.2 _ child hchild))
      exact step level hdistinct
    | var x =>
      have step : ∀ children : List (Key × Level α ts.length), Distinct (ts.length + 1) children →
          (specialPaths (.var x :: ts) children).Pairwise
            (NewerFirst (n := ts.length + 1) children) := by
        intro children hchildren
        rw [specialPaths_var, List.pairwise_flatMap]
        constructor
        · intro entry hentry
          have hchild := lookup_of_mem_branches hchildren hentry
          exact under hchild (ih (hchildren.2 _ _ hchild))
        -- Paths of two branches part at once, and the branches are entered from the last to the first.
        · rw [List.pairwise_reverse, List.pairwise_iff_forall_sublist]
          intro a b hab path hpath path' hpath'
          obtain ⟨_, -, rfl⟩ := List.mem_map.mp hpath
          obtain ⟨_, -, rfl⟩ := List.mem_map.mp hpath'
          refine ⟨[], _, _, rfl, rfl, ?_⟩
          exact (hab.trans List.filter_sublist).map Prod.fst
      exact step level hdistinct

end Level

/-! ### Branches and insertions -/

/-- The key that the atom goes on with after the keys `start`, if it has the predicate and the number of
arguments. -/
def Atom.next? (predicate : String) (n : Nat) (start : List Key) (a : Atom) : Option Key :=
  if a.predicate = predicate ∧ a.terms.length = n then Key.next? start a.path else none

namespace PatternTrie

variable {α : Type}

/-- The keys of the branches at the node that `start` leads to below a predicate and an arity. -/
def branches (trie : PatternTrie α) (predicate : String) (n : Nat) (start : List Key) : List Key :=
  Level.branches n start ((trie.arities predicate).level n)

theorem branches_insert (entries : List (Atom × α)) (a : Atom) (v : α) (predicate : String) (n : Nat)
    (start : List Key) :
    ((ofEntries entries).insert a v).branches predicate n start =
      ((ofEntries entries).branches predicate n start ++
        (a.next? predicate n start).toList).eraseDups := by
  have hdistinct := distinct_level_ofEntries entries predicate n
  have hkept := eraseDups_of_nodup (Level.nodup_branches hdistinct start)
  rw [branches, branches, arities_insert, Atom.next?]
  by_cases hpredicate : a.predicate = predicate
  · subst hpredicate
    rw [if_pos rfl, Arities.level_update]
    by_cases hlength : a.terms.length = n
    · subst hlength
      rw [dif_pos rfl, if_pos ⟨rfl, rfl⟩]
      exact Level.branches_insert v a.terms _ hdistinct start
    · rw [dif_neg hlength, if_neg (fun h => hlength h.2)]
      simpa using hkept.symm
  · rw [if_neg (Ne.symm hpredicate), if_neg (fun h => hpredicate h.1)]
    simpa using hkept.symm

/-- The branches at a node are the keys that the insertions went on with there, each once, in the order
of their first use. -/
theorem branches_ofEntries (entries : List (Atom × α)) (predicate : String) (n : Nat)
    (start : List Key) :
    (ofEntries entries).branches predicate n start =
      (entries.filterMap fun e => e.1.next? predicate n start).eraseDups := by
  induction entries using List.reverseRecOn with
  | nil => exact Level.branches_empty n start
  | append_singleton entries entry ih =>
    obtain ⟨a, v⟩ := entry
    rw [ofEntries_append_singleton, branches_insert, ih, eraseDups_eraseDups_append,
      List.filterMap_append]
    cases h : a.next? predicate n start <;> simp [h]

end PatternTrie

/-! ### The order of ground patterns -/

/-- The pattern is ground and specialises the query: it has the same predicate and as many arguments,
and the constant of the query at every position where the query has one. -/
def Atom.Specializes (p q : Atom) : Prop :=
  p.isGround = true ∧ p.predicate = q.predicate ∧
    List.Forall₂ (fun s t => t.isVar = true ∨ s = t) p.terms q.terms

instance (p q : Atom) : Decidable (p.Specializes q) := inferInstanceAs (Decidable (_ ∧ _ ∧ _))

theorem Key.refines_ofTerm_iff {s t : Term} :
    (Key.ofTerm s).Refines t ↔ s.isVar = false ∧ (t.isVar = true ∨ s = t) := by
  cases s <;> cases t <;> simp [Key.Refines, Key.ofTerm]

theorem Atom.refines_iff_specializes {p q : Atom} : p.Refines q ↔ p.Specializes q := by
  rw [Refines, Specializes, path, Key.path, List.forall₂_map_left_iff, isGround_iff]
  simp only [Key.refines_ofTerm_iff, List.forall₂_and_left]
  exact and_left_comm

/-- Constants can be told from their keys. -/
theorem Key.path_eq_iff {terms terms' : List Term} (hconst : ∀ t ∈ terms, t.isVar = false) :
    Key.path terms' = Key.path terms ↔ terms' = terms := by
  refine ⟨fun h => ?_, congrArg _⟩
  induction terms generalizing terms' with
  | nil => exact List.map_eq_nil_iff.mp h
  | cons t ts ih =>
    cases terms' with
    | nil => cases h
    | cons t' ts' =>
      obtain ⟨ht, hts⟩ := List.cons.inj h
      rw [ih (fun t ht => hconst t (List.mem_cons_of_mem _ ht)) hts]
      have hkey := hconst t List.mem_cons_self
      cases t <;> cases t' <;> simp_all [Key.ofTerm]

/-- The first arguments of a ground atom can be told from its path. -/
theorem Atom.take_path_eq_iff {p p' : Atom} (hground : p.isGround = true) (k : Nat) :
    p'.path.take k = p.path.take k ↔ p'.terms.take k = p.terms.take k := by
  rw [path, path, Key.path, Key.path, ← List.map_take, ← List.map_take]
  exact Key.path_eq_iff fun t ht => isGround_iff.mp hground t (List.mem_of_mem_take ht)

/-- So can a ground atom, if its predicate is known. -/
theorem Atom.SamePattern.eq_of_isGround {p p' : Atom} (h : p'.SamePattern p)
    (hground : p.isGround = true) : p' = p := by
  have hterms := (Key.path_eq_iff (isGround_iff.mp hground)).mp h.2
  cases p
  cases p'
  exact (Atom.mk.injEq _ _ _ _).mpr ⟨h.1, hterms⟩

/-- The patterns agree before position `k`, and not there. -/
def Atom.FirstDifferAt (p q : Atom) (k : Nat) : Prop :=
  p.terms.take k = q.terms.take k ∧ p.terms.take (k + 1) ≠ q.terms.take (k + 1)

/-- Patterns first differ at one position. -/
theorem Atom.FirstDifferAt.le {p q : Atom} {k k' : Nat} (h : p.FirstDifferAt q k)
    (h' : q.FirstDifferAt p k') : k' ≤ k := by
  by_contra hlt
  refine h.2 ?_
  have hagree := congrArg (List.take (k + 1)) h'.1
  rw [List.take_take, List.take_take, Nat.min_eq_left (by omega)] at hagree
  exact hagree.symm

namespace PatternTrie

variable {α : Type}

/-- How many insertions there were before the first one under an atom that has the predicate, the number
of arguments, and the arguments up to position `k` of `p`. -/
def firstUse (entries : List (Atom × α)) (p : Atom) (k : Nat) : Nat :=
  entries.findIdx fun e => e.1.predicate = p.predicate ∧ e.1.terms.length = p.terms.length ∧
    e.1.terms.take (k + 1) = p.terms.take (k + 1)

/-- For a ground pattern, that is the first insertion that took the branch of the pattern. -/
theorem firstUse_eq (entries : List (Atom × α)) {p : Atom} (hground : p.isGround = true)
    {start : List Key} {key : Key} (hnext : Key.next? start p.path = some key) :
    firstUse entries p start.length = entries.findIdx fun e =>
      e.1.next? p.predicate p.terms.length start = some key := by
  rw [Key.next?_eq_some_iff] at hnext
  refine congrArg (List.findIdx · entries) (funext fun e => ?_)
  rw [decide_eq_decide, Atom.next?, Option.ite_none_right_eq_some, Key.next?_eq_some_iff, ← hnext,
    Atom.take_path_eq_iff hground, and_assoc]

/-- The order of insertions under ground patterns: at the first position where the patterns differ,
the one comes first that was first used later up to there, and for one pattern that of insertion. -/
def Insertion.Newer (entries : List (Atom × α)) (i j : Insertion α) : Prop :=
  (∃ k, i.pattern.FirstDifferAt j.pattern k ∧
      firstUse entries j.pattern k < firstUse entries i.pattern k) ∨
    i.pattern = j.pattern ∧ i.number < j.number

/-- Two insertions do not each come before the other. -/
theorem Insertion.Newer.asymm {entries : List (Atom × α)} {i j : Insertion α}
    (h : i.Newer entries j) : ¬ j.Newer entries i := by
  have differ : ∀ {p q : Atom} {k : Nat}, p.FirstDifferAt q k → p ≠ q := by
    rintro p _ k h rfl
    exact h.2 rfl
  rintro (⟨k', hdiffer', hlt'⟩ | ⟨hsame', hlt'⟩)
  · rcases h with ⟨k, hdiffer, hlt⟩ | ⟨hsame, -⟩
    · obtain rfl := Nat.le_antisymm (hdiffer'.le hdiffer) (hdiffer.le hdiffer')
      exact Nat.lt_asymm hlt hlt'
    · exact differ hdiffer' hsame.symm
  · rcases h with ⟨k, hdiffer, -⟩ | ⟨-, hlt⟩
    · exact differ hdiffer hsame'.symm
    · exact Nat.lt_asymm hlt hlt'

/-- Of two ground patterns, the one whose branch is newer was first used later. -/
theorem exists_firstUse_lt {entries : List (Atom × α)} {q p p' : Atom} (hp : p.Specializes q)
    (hp' : p'.Specializes q)
    (h : Level.NewerFirst ((ofEntries entries).root q) p.path p'.path) :
    ∃ k, p.FirstDifferAt p' k ∧ firstUse entries p' k < firstUse entries p k := by
  obtain ⟨start, key, key', hkey, hkey', hbranches⟩ := h
  have hlt : firstUse entries p' start.length < firstUse entries p start.length := by
    change [key', key].Sublist
      ((ofEntries entries).branches q.predicate q.terms.length start) at hbranches
    rw [branches_ofEntries] at hbranches
    have hfirst := List.pairwise_iff_forall_sublist.mp
      (pairwise_eraseDups_filterMap _ entries) hbranches
    rw [firstUse_eq entries hp.1 hkey, firstUse_eq entries hp'.1 hkey', hp.2.1, hp'.2.1,
      hp.2.2.length_eq, hp'.2.2.length_eq]
    exact hfirst
  refine ⟨start.length, ⟨?_, fun same => Nat.ne_of_lt hlt ?_⟩, hlt⟩
  · rw [← Atom.take_path_eq_iff hp'.1, Key.take_of_next?_eq_some hkey,
      Key.take_of_next?_eq_some hkey']
  · rw [firstUse, firstUse, same, hp.2.1, hp'.2.1, hp.2.2.length_eq, hp'.2.2.length_eq]

/-- A search for specialisations lists the values that were inserted under a ground pattern that
specialises the query, one for each insertion. Of two patterns that first differ at some position, the
one comes first whose arguments up to there were first used later, by whatever insertion, and values of
one pattern stand in the order of insertion. No other arrangement of these insertions is in this
order. -/
theorem specializations_sorted (entries : List (Atom × α)) (q : Atom) :
    ∃ found : List (Insertion α),
      found.Perm ((insertions entries).filter fun i => i.pattern.Specializes q) ∧
        found.Pairwise (Insertion.Newer entries) ∧
        (ofEntries entries).specializations q = found.map Insertion.value ∧
        ∀ other : List (Insertion α), other.Perm found →
          other.Pairwise (Insertion.Newer entries) → other = found := by
  have hdistinct := distinct_level_ofEntries entries q.predicate q.terms.length
  let paths := Level.specialPaths q.terms ((ofEntries entries).root q)
  let found := paths.flatMap (insertionsUnder entries q.predicate)
  have hperm : found.Perm ((insertions entries).filter fun i => i.pattern.Specializes q) := by
    refine (flatMap_insertionsUnder_perm entries q.predicate
      (Level.nodup_specialPaths hdistinct)).trans (List.Perm.of_eq (List.filter_congr fun i hi => ?_))
    have hentry : (i.pattern, i.value) ∈ entries :=
      map_insertions entries ▸ List.mem_map_of_mem (f := fun i => (i.pattern, i.value)) hi
    rw [decide_eq_decide]
    exact (mem_specialPaths_ofEntries hentry q).trans Atom.refines_iff_specializes
  have hspecializes : ∀ i ∈ found, i.pattern.Specializes q := fun i hi =>
    of_decide_eq_true (List.mem_filter.mp (hperm.mem_iff.mp hi)).2
  have hordered : found.Pairwise (Insertion.Newer entries) := by
    refine (pairwise_flatMap_insertionsUnder entries q.predicate
      (Level.pairwise_specialPaths hdistinct)).imp_of_mem fun {i j} hi hj h => ?_
    have hi := hspecializes i hi
    have hj := hspecializes j hj
    exact h.imp (exists_firstUse_lt hi hj) fun ⟨hsame, hlt⟩ => ⟨hsame.eq_of_isGround hj.1, hlt⟩
  refine ⟨found, hperm, hordered, ?_, fun other hother hnewer => ?_⟩
  · rw [specializations_eq_flatMap, List.map_flatMap]
    simp only [map_value_insertionsUnder, paths]
  · exact hother.eq_of_pairwise (fun i j _ _ hij hji => absurd hji hij.asymm) hnewer hordered

/-- The branch of the constant `b` is the newer one at the first position, as `a` was used there before by a
pattern that is not found itself. Within one branch the constants that were used last come first. -/
example :
    let p (s t : Term) : Atom := ⟨"p", [s, t]⟩
    (ofEntries [(p (.const "a") (.var "?y"), 0), (p (.const "b") (.const "c"), 1),
        (p (.const "a") (.const "c"), 2), (p (.const "b") (.const "d"), 3),
        (p (.const "b") (.const "c"), 4)]).specializations (p (.var "?x") (.var "?y")) =
      [3, 1, 4, 2] := by
  decide

end PatternTrie

end Datalog
