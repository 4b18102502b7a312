import Datalog.Proofs.PatternTrie.Shape
import Mathlib.Logic.Relation

/-!
# Searching a pattern trie with a stack

The two searches of a pattern trie are defined by recursion on the arguments. Here they are done step by
step, on nodes without their types. A stack holds the nodes that wait, each with its depth, and the last
one is next: a leaf gives its values, and of the children of a branch some are put on the stack. Which
children these are, and in what order, is all that tells one search from the other. Such a search could
get stuck, at a leaf before the last argument or at a branch after it, and so could a search for one
exact pattern. On a trie none of them does: each ends with an empty stack, and with what the recursion
finds.

## Main definitions

* `Choice` — the children to go on with, `Choice.covering` and `Choice.refining` for the two searches
* `Search`, `Search.step?`, `Search.Ends` — a search, one step of it, and where it ends
* `Node.valuesAt?`, `Roots.valuesAt?` — the values of one exact pattern, unless the search gets stuck
* `Level.search` — the recursion that both searches are

## Main results

* `Search.steps_node` — a node is searched to the end before the ones below it on the stack
* `PatternTrie.valuesAt?_roots`, `PatternTrie.ends_covering_iff`, `PatternTrie.ends_refining_iff` — no
  search on a trie gets stuck, and what each of them finds
-/

namespace Datalog

open Relation (ReflTransGen)

/-! ### Which children to go on with -/

/-- A choice of branches for a term, in the order in which they are put on the stack. It looks at the
keys only, and not at what the branches hold. -/
structure Choice where
  /-- The branches that are chosen. -/
  choose : ∀ {β : Type}, Term → List (Key × β) → List β
  /-- What the branches hold makes no difference. -/
  choose_map : ∀ {β γ : Type} (f : β → γ) (t : Term) (branches : List (Key × β)),
    choose t (branches.map (Prod.map id f)) = (choose t branches).map f

namespace Choice

/-- A search for generalisations goes on with the branch of the constant, if there is one, and with the
branch of variables, which comes on top. -/
def covering : Choice where
  choose t branches :=
    (match t with
      | .var _ => []
      | .const c => (branches.lookup (.const c)).toList) ++ (branches.lookup .wildcard).toList
  choose_map f t branches := by
    cases t <;> simp [AssocList.lookup_map_id, Option.toList_map]

/-- A search for specialisations goes on with the branch of the constant, or with the branches of all
constants for a variable. -/
def refining : Choice where
  choose t branches :=
    match t with
    | .var _ => (branches.filter fun (key, _) => !key.isWildcard).map Prod.snd
    | .const c => (branches.lookup (.const c)).toList
  choose_map f t branches := by
    cases t with
    | var x => simp [List.filter_map, Function.comp_def]
    | const c => simp [AssocList.lookup_map_id, Option.toList_map]

/-- Where there are no branches, none are chosen. -/
theorem choose_nil {β : Type} (choice : Choice) (t : Term) :
    choice.choose t ([] : List (Key × β)) = [] := by
  have hmap := choice.choose_map (Empty.elim : Empty → β) t []
  cases hchosen : choice.choose t ([] : List (Key × Empty)) with
  | nil => rwa [hchosen] at hmap
  | cons e _ => exact e.elim

end Choice

/-! ### Steps -/

/-- A search that has come some way. -/
structure Search (α : Type) where
  /-- The nodes that wait, each with the number of arguments before it; the last one is next. -/
  pending : List (Node α × Nat)
  /-- The values that have been found. -/
  found : List α

namespace Search

variable {α : Type} {choice : Choice} {terms : List Term}

/-- Takes the next node off the stack. A leaf after the last argument gives its values, and a branch
before an argument is replaced by the children that are chosen. There is no step when nothing waits, and
none when the search is stuck: at a leaf before the last argument, or at a branch after it. -/
def step? (choice : Choice) (terms : List Term) (s : Search α) : Option (Search α) :=
  match s.pending.getLast? with
  | none => none
  | some (.leaf values, depth) =>
    if depth = terms.length then
      some { pending := s.pending.dropLast, found := s.found ++ values }
    else none
  | some (.branch children, depth) =>
    terms[depth]?.map fun t =>
      { pending := s.pending.dropLast ++ (choice.choose t children).map (·, depth + 1)
        found := s.found }

/-- One step leads from the first search to the second. -/
def Step (choice : Choice) (terms : List Term) (s s' : Search α) : Prop :=
  s.step? choice terms = some s'

/-- The search ends in the given state, where there is no further step. -/
def Ends (choice : Choice) (terms : List Term) (s s' : Search α) : Prop :=
  ReflTransGen (Step choice terms) s s' ∧ s'.step? choice terms = none

theorem step_leaf (waiting : List (Node α × Nat)) (found values : List α) :
    Step choice terms ⟨waiting ++ [(.leaf values, terms.length)], found⟩ ⟨waiting, found ++ values⟩ := by
  simp [Step, step?]

theorem step_branch {depth : Nat} {t : Term} (ht : terms[depth]? = some t)
    (waiting : List (Node α × Nat)) (found : List α) (children : List (Key × Node α)) :
    Step choice terms ⟨waiting ++ [(.branch children, depth)], found⟩
      ⟨waiting ++ (choice.choose t children).map (·, depth + 1), found⟩ := by
  simp [Step, step?, ht]

/-- Where nothing waits, the search is at its end. -/
theorem step?_nil (found : List α) : step? choice terms ⟨[], found⟩ = none := rfl

/-- There is one way to go, so a search that comes to an empty stack ends there and nowhere else. -/
theorem ends_iff {s : Search α} {found : List α}
    (h : ReflTransGen (Step choice terms) s ⟨[], found⟩) {s' : Search α} :
    Ends choice terms s s' ↔ s' = ⟨[], found⟩ := by
  constructor
  · rintro ⟨hs', hend⟩
    have hunique : Relator.RightUnique (Step (α := α) choice terms) :=
      fun _ _ _ h₁ h₂ => Option.some.inj (h₁.symm.trans h₂)
    -- One of the two ends is reached from the other, and neither goes on.
    obtain hreach | hreach := ReflTransGen.total_of_right_unique hunique hs' h
    · obtain heq | ⟨next, hstep, -⟩ := hreach.cases_head
      · exact heq
      · exact absurd (hend.symm.trans hstep) (by simp)
    · obtain heq | ⟨next, hstep, -⟩ := hreach.cases_head
      · exact heq.symm
      · exact absurd hstep (by simp [Step, step?_nil])
  · rintro rfl
    exact ⟨h, step?_nil found⟩

end Search

/-! ### The recursion that both searches are -/

theorem reverse_toList {β : Type} (o : Option β) : o.toList.reverse = o.toList := by
  cases o <;> rfl

namespace Level

variable {α : Type}

/-- The values that are found by going on with the chosen branches, the last one first. -/
def search (choice : Choice) : (terms : List Term) → Level α terms.length → List α
  | [], values => values
  | t :: ts, children =>
    (choice.choose t (show List (Key × Level α ts.length) from children)).reverse.flatMap
      (search choice ts)

theorem search_cons (choice : Choice) (t : Term) (ts : List Term)
    (children : List (Key × Level α ts.length)) :
    search choice (t :: ts) children =
      (choice.choose t children).reverse.flatMap (search choice ts) := rfl

theorem search_empty (choice : Choice) (terms : List Term) :
    search choice terms (empty terms.length : Level α terms.length) = [] := by
  cases terms with
  | nil => rfl
  | cons t ts =>
    have hnone := choice.choose_nil (β := Level α ts.length) t
    exact (search_cons choice t ts []).trans (by rw [hnone]; rfl)

theorem inBranch_eq_flatMap {n : Nat} (key : Key) (find : Level α n → List α)
    (children : List (Key × Level α n)) :
    inBranch key find children = (children.lookup key).toList.flatMap find := by
  rw [inBranch_eq_elim]
  cases children.lookup key <;> simp

theorem search_covering (terms : List Term) (level : Level α terms.length) :
    search .covering terms level = generalizations terms level := by
  induction terms with
  | nil => rfl
  | cons t ts ih =>
    have step : ∀ children : List (Key × Level α ts.length),
        search .covering (t :: ts) children = generalizations (t :: ts) children := by
      intro children
      rw [search_cons, funext ih]
      cases t <;> simp [generalizations, Choice.covering, inBranch_eq_flatMap, reverse_toList]
    exact step level

theorem search_refining (terms : List Term) (level : Level α terms.length) :
    search .refining terms level = specializations terms level := by
  induction terms with
  | nil => rfl
  | cons t ts ih =>
    have step : ∀ children : List (Key × Level α ts.length),
        search .refining (t :: ts) children = specializations (t :: ts) children := by
      intro children
      rw [search_cons, funext ih]
      cases t with
      | var x => simp [specializations, Choice.refining, List.flatMap_map, ← List.map_reverse]
      | const c => simp [specializations, Choice.refining, inBranch_eq_flatMap, reverse_toList]
    exact step level

end Level

/-! ### Searches from a node -/

namespace Search

variable {α : Type} {choice : Choice} {terms : List Term}

/-- Where the nodes of several levels wait, all of them are searched, the last one first. -/
theorem steps_nodes {depth n : Nat} {find : Level α n → List α}
    (hfind : ∀ level waiting found,
      ReflTransGen (Step choice terms) ⟨waiting ++ [(Level.node n level, depth)], found⟩
        ⟨waiting, found ++ find level⟩)
    (levels : List (Level α n)) (waiting : List (Node α × Nat)) (found : List α) :
    ReflTransGen (Step choice terms)
      ⟨waiting ++ levels.map fun level => (Level.node n level, depth), found⟩
      ⟨waiting, found ++ levels.reverse.flatMap find⟩ := by
  induction levels using List.reverseRecOn generalizing found with
  | nil => simpa using ReflTransGen.refl
  | append_singleton levels level ih =>
    have hlast := hfind level (waiting ++ levels.map fun level => (Level.node n level, depth)) found
    rw [List.map_append, List.map_singleton, ← List.append_assoc, List.reverse_append,
      List.reverse_singleton, List.flatMap_append, List.flatMap_singleton, ← List.append_assoc]
    exact hlast.trans (ih _)

/-- A node is searched to the end before what waits below it, and what is found there is what the
recursion finds. -/
theorem steps_node {ts : List Term} {before : List Term} (hterms : terms = before ++ ts)
    (level : Level α ts.length) (waiting : List (Node α × Nat)) (found : List α) :
    ReflTransGen (Step choice terms)
      ⟨waiting ++ [(Level.node ts.length level, before.length)], found⟩
      ⟨waiting, found ++ level.search choice ts⟩ := by
  induction ts generalizing before waiting found with
  | nil =>
    have hdepth : before.length = terms.length := by rw [hterms, List.append_nil]
    rw [hdepth]
    exact .single (step_leaf waiting found level)
  | cons t ts ih =>
    have ht : terms[before.length]? = some t := by simp [hterms]
    have hnext : terms = (before ++ [t]) ++ ts := by simp [hterms]
    have hdepth : (before ++ [t]).length = before.length + 1 := by simp
    have step : ∀ children : List (Key × Level α ts.length),
        ReflTransGen (Step choice terms)
          ⟨waiting ++ [(Level.node (ts.length + 1) children, before.length)], found⟩
          ⟨waiting, found ++ Level.search choice (t :: ts) children⟩ := by
      intro children
      refine .head (step_branch ht waiting found _) ?_
      rw [choice.choose_map, List.map_map, Level.search_cons]
      have hchildren := ih hnext
      rw [hdepth] at hchildren
      exact steps_nodes hchildren _ waiting found
    exact step level

end Search

/-! ### One exact pattern -/

/-- The values under exactly the arguments, where there is nothing if a branch is missing. The search is
stuck at a leaf before the last argument and at a branch after it. -/
def Node.valuesAt? {α : Type} : List Term → Node α → Option (List α)
  | [], .leaf values => some values
  | t :: ts, .branch children =>
    match children.lookup (Key.ofTerm t) with
    | some child => valuesAt? ts child
    | none => some []
  | _ :: _, .leaf _ => none
  | [], .branch _ => none

namespace Level

variable {α : Type}

theorem valuesAt_empty (terms : List Term) :
    valuesAt terms (empty terms.length : Level α terms.length) = [] := by
  cases terms <;> rfl

theorem valuesAt?_node (terms : List Term) (level : Level α terms.length) :
    (node terms.length level).valuesAt? terms = some (valuesAt terms level) := by
  induction terms with
  | nil => rfl
  | cons t ts ih =>
    have step : ∀ children : List (Key × Level α ts.length),
        (node (ts.length + 1) children).valuesAt? (t :: ts) = some (valuesAt (t :: ts) children) := by
      intro children
      rw [node_succ, Node.valuesAt?, AssocList.lookup_map_id]
      cases hchild : children.lookup (Key.ofTerm t) with
      | none => simp [valuesAt, inBranch, hchild]
      | some child => simpa [valuesAt, inBranch, hchild] using ih child
    exact step level

end Level

/-! ### The searches of a trie -/

namespace Roots

variable {α : Type}

/-- The node for the predicate of `a` and the number of its arguments. -/
def root? (roots : Roots α) (a : Atom) : Option (Node α) :=
  ((roots.lookup a.predicate).getD []).lookup a.arity

/-- The values under exactly the pattern of `a`, unless the search gets stuck. -/
def valuesAt? (roots : Roots α) (a : Atom) : Option (List α) :=
  match roots.root? a with
  | some root => root.valuesAt? a.terms
  | none => some []

end Roots

/-- A search for the arguments of `a` begins with the node for its predicate and their number. -/
def Search.start {α : Type} (roots : Roots α) (a : Atom) : Search α where
  pending := (roots.root? a).toList.map (·, 0)
  found := []

/-- The level of a node that holds nothing holds nothing. -/
theorem Level.eq_empty_of_node_eq {α : Type} {n : Nat} {level : Level α n}
    (h : node n level = Node.empty n) : level = empty n := by
  cases n with
  | zero => exact Node.leaf.inj h
  | succ n => exact List.map_eq_nil_iff.mp (Node.branch.inj h)

namespace PatternTrie

variable {α : Type}

/-- There is a node for the atom, which is its level; or there is none, and the level holds nothing. -/
theorem root?_cases (trie : PatternTrie α) (a : Atom) :
    trie.roots.root? a = some (Level.node a.terms.length (trie.root a)) ∨
      trie.roots.root? a = none ∧ trie.root a = Level.empty a.terms.length := by
  have hroot := Arities.lookup_roots a.terms.length (trie.arities a.predicate)
  rw [Roots.root?, getD_lookup_roots, Atom.arity]
  cases hlookup : (trie.arities a.predicate).roots.lookup a.terms.length with
  | some node =>
    rw [hlookup] at hroot
    exact Or.inl (congrArg some hroot)
  | none =>
    rw [hlookup] at hroot
    exact Or.inr ⟨rfl, Level.eq_empty_of_node_eq hroot.symm⟩

/-- The search for one exact pattern does not get stuck, and it finds what the recursion finds. -/
theorem valuesAt?_roots (trie : PatternTrie α) (a : Atom) :
    trie.roots.valuesAt? a = some (trie.valuesAt a) := by
  rw [Roots.valuesAt?, valuesAt]
  obtain hroot | ⟨hroot, hlevel⟩ := trie.root?_cases a
  · rw [hroot]
    exact Level.valuesAt?_node a.terms (trie.root a)
  · rw [hroot, hlevel, Level.valuesAt_empty]

/-- Whichever children are chosen, a search comes to an empty stack with what the recursion finds. -/
theorem steps_start (choice : Choice) (trie : PatternTrie α) (a : Atom) :
    ReflTransGen (Search.Step choice a.terms) (.start trie.roots a)
      ⟨[], Level.search choice a.terms (trie.root a)⟩ := by
  rw [Search.start]
  obtain hroot | ⟨hroot, hlevel⟩ := trie.root?_cases a
  · rw [hroot]
    exact Search.steps_node (List.nil_append a.terms).symm (trie.root a) [] []
  · rw [hroot, hlevel, Level.search_empty]
    exact .refl

/-- **The search for generalisations** ends, and in one state only: nothing waits, and the values found
are those of all generalisations, where at every position the variable comes first. -/
theorem ends_covering_iff (trie : PatternTrie α) (a : Atom) (s : Search α) :
    Search.Ends .covering a.terms (.start trie.roots a) s ↔ s = ⟨[], trie.generalizations a⟩ := by
  have hsteps := trie.steps_start .covering a
  rw [Level.search_covering] at hsteps
  exact Search.ends_iff hsteps

/-- **The search for specialisations** ends, and in one state only: nothing waits, and the values found
are those of all specialisations, where the constant that was used last comes first. -/
theorem ends_refining_iff (trie : PatternTrie α) (a : Atom) (s : Search α) :
    Search.Ends .refining a.terms (.start trie.roots a) s ↔ s = ⟨[], trie.specializations a⟩ := by
  have hsteps := trie.steps_start .refining a
  rw [Level.search_refining] at hsteps
  exact Search.ends_iff hsteps

end PatternTrie

end Datalog
