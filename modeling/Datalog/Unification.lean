import Datalog.Atom

/-!
# Unification with ground atoms

Facts are ground, so unification is one-sided: a pattern unifies with a ground atom when some
substitution of its variables makes the two equal. The arguments are compared from left to right,
and each variable is bound where it first occurs.

## Main definitions

* `Atom.unify?` — the substitution, for a ground atom of the pattern's predicate and arity
* `UnificationError` — the reasons for which a pattern fails to unify with an atom
* `Atom.unify` — the substitution for an arbitrary atom, or the first reason for which there is none

## Main results

* `Atom.mem_texts_of_unify?` — variables are bound to texts of the ground atom only
-/

namespace Datalog

/-- Extends `σ` so that it makes the patterns equal to the values, position by position. Positions
past the end of the shorter list are not compared. -/
def unifyTerms? (σ : Substitution) : List Term → List Term → Option Substitution
  | .const c :: patterns, value :: values =>
    if c = value.text then unifyTerms? σ patterns values else none
  | .var x :: patterns, value :: values =>
    match σ.lookup? x with
    | some c => if c = value.text then unifyTerms? σ patterns values else none
    | none => unifyTerms? (σ.bind x value.text) patterns values
  | _, _ => some σ

/-- The substitution that makes the pattern equal to `ground`, if there is one. It is meant for a
ground atom with the predicate and the arity of the pattern, and checks neither. -/
def Atom.unify? (pattern ground : Atom) : Option Substitution :=
  unifyTerms? Substitution.empty pattern.terms ground.terms

theorem lookup?_of_unifyTerms? {values : List Term} {σ τ : Substitution} {patterns : List Term}
    {x c : String} (h : unifyTerms? σ patterns values = some τ) (hx : τ.lookup? x = some c) :
    σ.lookup? x = some c ∨ c ∈ values.map Term.text := by
  induction patterns generalizing σ values with
  | nil =>
    cases values <;> simp only [unifyTerms?, Option.some.injEq] at h <;> exact Or.inl (h ▸ hx)
  | cons t ts ih =>
    cases values with
    | nil =>
      cases t <;> simp only [unifyTerms?, Option.some.injEq] at h <;> exact Or.inl (h ▸ hx)
    | cons value values =>
      have step : ∀ {ρ}, unifyTerms? ρ ts values = some τ →
          ρ.lookup? x = some c ∨ c ∈ (value :: values).map Term.text := fun hρ =>
        (ih hρ).imp_right (List.mem_cons_of_mem _)
      cases t with
      | const d =>
        simp only [unifyTerms?] at h
        split at h
        · exact step h
        · simp at h
      | var y =>
        simp only [unifyTerms?] at h
        split at h
        · split at h
          · exact step h
          · simp at h
        · rcases step h with hb | hb
          · rw [Substitution.lookup?_bind] at hb
            split at hb
            · simp only [Option.some.injEq] at hb
              exact Or.inr (by simp [hb])
            · exact Or.inl hb
          · exact Or.inr hb

/-- Unification binds variables to texts of the ground atom only. -/
theorem Atom.mem_texts_of_unify? {pattern ground : Atom} {σ : Substitution} {x c : String}
    (h : pattern.unify? ground = some σ) (hx : σ.lookup? x = some c) : c ∈ ground.texts := by
  rcases lookup?_of_unifyTerms? h hx with hx | hx
  · simp at hx
  · exact hx

/-- Why a pattern does not unify with an atom. -/
inductive UnificationError where
  /-- The predicates differ. -/
  | predicateMismatch (expected found : String)
  /-- The numbers of arguments differ. -/
  | arityMismatch (expected found : Nat)
  /-- The atom to unify with has a variable. -/
  | notGround (atom : Atom)
  /-- A variable that is bound to one constant meets another. -/
  | conflictingBinding (variableName bound found : String)
  /-- The arguments at a position, counted from zero, are different constants. -/
  | constantMismatch (position : Nat) (expected found : String)
  deriving DecidableEq

/-- The wording of an error. -/
def UnificationError.message : UnificationError → String
  | predicateMismatch expected found =>
    s!"predicate mismatch: expected `{expected}`, found `{found}`"
  | arityMismatch expected found =>
    s!"arity mismatch: expected {expected} arguments, found {found}"
  | notGround atom => s!"`{atom.render}` is not ground"
  | conflictingBinding variableName bound found =>
    s!"variable `{variableName}` is bound to `{bound}` but must also match `{found}`"
  | constantMismatch position expected found =>
    s!"argument {position}: `{expected}` does not match `{found}`"

/-- Extends `σ` so that it makes the patterns equal to the values, or tells where that first fails.
The first pattern stands at position `i`. -/
def unifyTerms (i : Nat) (σ : Substitution) :
    List Term → List Term → Except UnificationError Substitution
  | .const c :: patterns, value :: values =>
    if c = value.text then unifyTerms (i + 1) σ patterns values
    else .error (.constantMismatch i c value.text)
  | .var x :: patterns, value :: values =>
    match σ.lookup? x with
    | some c =>
      if c = value.text then unifyTerms (i + 1) σ patterns values
      else .error (.conflictingBinding x c value.text)
    | none => unifyTerms (i + 1) (σ.bind x value.text) patterns values
  | _, _ => .ok σ

/-- The substitution that makes the pattern equal to `atom`, or the first reason for which there is
none: a different predicate, a different arity, a variable in `atom`, or the first position that does
not fit. -/
def Atom.unify (pattern atom : Atom) : Except UnificationError Substitution :=
  if pattern.predicate ≠ atom.predicate then
    .error (.predicateMismatch pattern.predicate atom.predicate)
  else if pattern.arity ≠ atom.arity then
    .error (.arityMismatch pattern.arity atom.arity)
  else if !atom.isGround then
    .error (.notGround atom)
  else
    unifyTerms 0 Substitution.empty pattern.terms atom.terms

end Datalog
