import Datalog.Substitution

/-!
# Atoms

A predicate applied to terms. An atom without variables is ground and states a fact; one with
variables is a pattern for facts.

## Main definitions

* `Atom` — a predicate name with its arguments
* `Atom.isGround`, `Atom.vars` — which variables an atom has
* `Atom.subst` — the atom with the bound variables replaced
* `Atom.render` — the written form `p(a, ?x)`
* `Atom.sort` — atoms in their order, by predicate and then by arguments
-/

namespace Datalog

/-- A predicate applied to arguments. -/
structure Atom where
  /-- The predicate's name. -/
  predicate : String
  /-- The arguments in positional order. -/
  terms : List Term
  deriving DecidableEq, Ord

namespace Atom

/-- The number of arguments. -/
def arity (a : Atom) : Nat := a.terms.length

/-- No argument is a variable. -/
def isGround (a : Atom) : Bool := a.terms.all fun t => !t.isVar

/-- The names of the variables, each once, in the order of their first occurrences. -/
def vars (a : Atom) : List String :=
  (a.terms.filterMap fun
    | .var x => some x
    | .const _ => none).eraseDups

/-- The texts of the arguments. -/
def texts (a : Atom) : List String := a.terms.map Term.text

/-- Replaces the bound variables by their constants. -/
def subst (σ : Substitution) (a : Atom) : Atom := { a with terms := a.terms.map (Term.subst σ) }

/-- The written form: the predicate, and the arguments in parentheses, separated by commas. -/
def render (a : Atom) : String :=
  a.predicate ++ "(" ++ ", ".intercalate (a.terms.map Term.render) ++ ")"

/-- Arranges atoms in order: by predicate, then by arguments from left to right. -/
def sort (atoms : List Atom) : List Atom := atoms.mergeSort fun a b => (compare a b).isLE

@[simp] theorem predicate_subst (σ : Substitution) (a : Atom) :
    (a.subst σ).predicate = a.predicate := rfl

@[simp] theorem terms_subst (σ : Substitution) (a : Atom) :
    (a.subst σ).terms = a.terms.map (Term.subst σ) := rfl

@[simp] theorem arity_subst (σ : Substitution) (a : Atom) : (a.subst σ).arity = a.arity := by
  simp [arity]

@[simp] theorem subst_empty (a : Atom) : a.subst Substitution.empty = a := by
  have same : a.terms.map (Term.subst Substitution.empty) = a.terms := by
    simp [List.map_congr_left fun t _ => Term.subst_empty t]
  rw [subst, same]

theorem mem_vars {a : Atom} {x : String} : x ∈ a.vars ↔ Term.var x ∈ a.terms := by
  rw [vars, List.mem_eraseDups, List.mem_filterMap]
  constructor
  · rintro ⟨t, ht, hx⟩
    cases t with
    | var y => simp only [Option.some.injEq] at hx; exact hx ▸ ht
    | const c => simp at hx
  · exact fun h => ⟨_, h, rfl⟩

/-- Substituting brings in only the constants of the substitution. -/
theorem texts_subst {σ : Substitution} {a : Atom} {s : String} (h : s ∈ (a.subst σ).texts) :
    s ∈ a.texts ∨ ∃ x, σ.lookup? x = some s := by
  simp only [texts, terms_subst, List.map_map, List.mem_map, Function.comp_apply] at h ⊢
  obtain ⟨t, ht, rfl⟩ := h
  cases t with
  | const c => exact Or.inl ⟨_, ht, rfl⟩
  | var x =>
    rw [Term.subst]
    split
    · rename_i c hc
      exact Or.inr ⟨x, hc⟩
    · exact Or.inl ⟨_, ht, rfl⟩

theorem isGround_iff {a : Atom} : a.isGround = true ↔ ∀ t ∈ a.terms, t.isVar = false := by
  simp [isGround]

end Atom

/-- Arranges terms in order: variables before constants, each kind by its text. -/
def Term.sort (terms : List Term) : List Term := terms.mergeSort fun s t => (compare s t).isLE

end Datalog
