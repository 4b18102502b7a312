import Datalog.AssocList
import Datalog.Term

/-!
# Levels of a pattern trie

The part of a pattern trie that distinguishes patterns by their arguments. A level with `n` arguments
to go branches on the next argument: on the constant there, or on a wildcard that all variables
share. With no argument to go it holds the stored values. The number of arguments to go is part of
the type, so every path to a value has the same length.

## Main definitions

* `Key` — what a level branches on
* `Level` — a trie over argument lists of one length
* `Level.insert` — stores a value under an argument list
* `Level.valuesAt` — the values under exactly an argument list
* `Level.generalizations` — the values under argument lists that are at least as general
* `Level.specializations` — the values under constants that agree with an argument list
* `Level.contents` — everything stored

## Main results

* `Level.contents_insert` — inserting adds the value to the contents and loses nothing
* `Level.specializations_subset`, `Level.length_specializations_le`, `Level.generalizations_subset` —
  what a search finds is stored
-/

namespace Datalog

/-- What a level of a pattern trie branches on. -/
inductive Key where
  /-- A variable, whatever its name. -/
  | wildcard
  /-- A constant. -/
  | const (value : String)
  deriving DecidableEq

/-- The branch that a term is stored under. -/
def Key.ofTerm : Term → Key
  | .var _ => .wildcard
  | .const c => .const c

/-- The branch is one for variables. -/
def Key.isWildcard : Key → Bool
  | .wildcard => true
  | .const _ => false

/-- A trie over the argument lists of length `n`. The branches of a level stand in the order in which
they were first used, and the values at an end in the order in which they were stored. -/
def Level (α : Type) : Nat → Type
  | 0 => List α
  | n + 1 => List (Key × Level α n)

namespace Level

variable {α : Type}

/-- The trie that holds nothing. -/
def empty : (n : Nat) → Level α n
  | 0 => ([] : List α)
  | n + 1 => ([] : List (Key × Level α n))

/-- Stores `v` under the arguments, after whatever is stored there. -/
def insert (v : α) : (terms : List Term) → Level α terms.length → Level α terms.length
  | [], values => (show List α from values) ++ [v]
  | t :: ts, children =>
    AssocList.upsert (Key.ofTerm t) (fun child => insert v ts (child.getD (empty ts.length))) children

/-- What `search` finds in the branch of `key`, which is nothing if there is no such branch. -/
def inBranch {n : Nat} (key : Key) (search : Level α n → List α)
    (children : List (Key × Level α n)) : List α :=
  match children.lookup key with
  | some child => search child
  | none => []

/-- The values stored under exactly these arguments, where any two variables are the same. -/
def valuesAt : (terms : List Term) → Level α terms.length → List α
  | [], values => values
  | t :: ts, children => inBranch (Key.ofTerm t) (valuesAt ts) children

/-- The values under argument lists that have, at every position, a variable or the same constant as
`terms`. At every position the variables come first. -/
def generalizations : (terms : List Term) → Level α terms.length → List α
  | [], values => values
  | .var _ :: ts, children => inBranch .wildcard (generalizations ts) children
  | .const c :: ts, children =>
    inBranch .wildcard (generalizations ts) children ++
      inBranch (.const c) (generalizations ts) children

/-- The values under lists of constants that agree with the constants of `terms`. Where `terms` has a
variable, the constants that were used last come first. -/
def specializations : (terms : List Term) → Level α terms.length → List α
  | [], values => values
  | .const c :: ts, children => inBranch (.const c) (specializations ts) children
  | .var _ :: ts, children =>
    ((show List (Key × Level α ts.length) from children).filter
      fun (key, _) => !key.isWildcard).reverse.flatMap fun (_, child) => specializations ts child

/-- Everything stored, branch by branch. -/
def contents : (n : Nat) → Level α n → List α
  | 0, values => values
  | n + 1, children =>
    (show List (Key × Level α n) from children).flatMap fun (_, child) => contents n child

@[simp] theorem contents_zero (values : List α) : contents 0 values = values := rfl

theorem contents_succ {n : Nat} (children : List (Key × Level α n)) :
    contents (n + 1) children = children.flatMap fun entry => contents n entry.2 := rfl

@[simp] theorem contents_empty (n : Nat) : contents n (empty n : Level α n) = [] := by
  cases n <;> rfl

theorem inBranch_subset {n : Nat} {key : Key} {search : Level α n → List α}
    {children : List (Key × Level α n)} (h : ∀ child, search child ⊆ contents n child) :
    inBranch key search children ⊆ contents (n + 1) children := by
  intro v hv
  rw [inBranch] at hv
  split at hv
  · rename_i child hchild
    obtain ⟨l₁, l₂, rfl, -⟩ := List.lookup_eq_some_iff.1 hchild
    simp [contents_succ, h child hv]
  · simp at hv

theorem length_inBranch_le {n : Nat} {key : Key} {search : Level α n → List α}
    {children : List (Key × Level α n)}
    (h : ∀ child, (search child).length ≤ (contents n child).length) :
    (inBranch key search children).length ≤ (contents (n + 1) children).length := by
  rw [inBranch]
  split
  · rename_i child hchild
    obtain ⟨l₁, l₂, rfl, -⟩ := List.lookup_eq_some_iff.1 hchild
    have := h child
    simp only [contents_succ, List.flatMap_append, List.flatMap_cons, List.length_append]
    omega
  · exact Nat.zero_le _

/-- Inserting a value adds exactly that value to what is stored. -/
theorem contents_insert (v : α) (terms : List Term) (level : Level α terms.length) :
    (contents terms.length (insert v terms level)).Perm (v :: contents terms.length level) := by
  induction terms with
  | nil => exact List.perm_append_singleton v level
  | cons t ts ih =>
    change (contents (ts.length + 1) (AssocList.upsert (Key.ofTerm t) _ level)).Perm
      (v :: contents (ts.length + 1) level)
    induction (show List (Key × Level α ts.length) from level) with
    | nil =>
      simpa [AssocList.upsert_nil, contents_succ] using ih (empty ts.length)
    | cons entry rest ihr =>
      obtain ⟨key, child⟩ := entry
      rw [AssocList.upsert_cons]
      split
      · simpa [contents_succ] using (ih child).append_right _
      · simp only [contents_succ, List.flatMap_cons] at ihr ⊢
        exact (ihr.append_left _).trans List.perm_middle

theorem generalizations_subset (terms : List Term) (level : Level α terms.length) :
    generalizations terms level ⊆ contents terms.length level := by
  induction terms with
  | nil => exact List.Subset.refl _
  | cons t ts ih =>
    cases t with
    | var x => exact inBranch_subset ih
    | const c => exact List.append_subset.2 ⟨inBranch_subset ih, inBranch_subset ih⟩

theorem specializations_subset (terms : List Term) (level : Level α terms.length) :
    specializations terms level ⊆ contents terms.length level := by
  induction terms with
  | nil => exact List.Subset.refl _
  | cons t ts ih =>
    cases t with
    | const c => exact inBranch_subset ih
    | var x =>
      intro v hv
      obtain ⟨entry, hentry, hv⟩ := List.mem_flatMap.1 hv
      exact List.mem_flatMap.2
        ⟨entry, (List.mem_filter.1 (List.mem_reverse.1 hentry)).1, ih _ hv⟩

theorem length_specializations_le (terms : List Term) (level : Level α terms.length) :
    (specializations terms level).length ≤ (contents terms.length level).length := by
  induction terms with
  | nil => exact Nat.le_refl _
  | cons t ts ih =>
    cases t with
    | const c => exact length_inBranch_le ih
    | var x =>
      change (((show List (Key × Level α ts.length) from level).filter _).reverse.flatMap
        _).length ≤ (contents (ts.length + 1) level).length
      induction (show List (Key × Level α ts.length) from level) with
      | nil => exact Nat.zero_le _
      | cons entry rest ihr =>
        have hentry := ih entry.2
        simp only [contents_succ, List.flatMap_cons, List.length_append] at ihr ⊢
        rw [List.filter_cons]
        split
        · simp only [List.reverse_cons, List.flatMap_append, List.flatMap_cons, List.flatMap_nil,
            List.append_nil, List.length_append]
          omega
        · omega

end Level

end Datalog
