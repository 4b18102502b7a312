import Datalog.AssocList
import Datalog.Term

/-!
# Substitutions

A substitution binds finitely many variables to constants, never to other variables. Bindings are
kept in the order in which they were made, and no variable is bound twice.

## Main definitions

* `Substitution` — bindings in order, with distinct variables
* `Substitution.lookup?` — the constant that a variable is bound to
* `Substitution.bind` — binds a variable, in its old place if it was bound before
* `Term.subst` — the term with a bound variable replaced by its constant
-/

namespace Datalog

/-- Bindings of distinct variables to constants, in the order in which the variables were first
bound. -/
structure Substitution where
  /-- The bound variables with their constants. -/
  bindings : List (String × String) := []
  /-- No variable is bound twice. -/
  nodup : (bindings.map Prod.fst).Nodup := by simp
  deriving DecidableEq

namespace Substitution

/-- The substitution that binds nothing. -/
def empty : Substitution := {}

/-- The constant that `x` is bound to, if it is bound. -/
def lookup? (σ : Substitution) (x : String) : Option String := σ.bindings.lookup x

/-- The bound variables, in order. -/
def domain (σ : Substitution) : List String := σ.bindings.map Prod.fst

/-- Binds `x` to `c`. A variable that was bound keeps its place and takes the new constant. -/
def bind (σ : Substitution) (x c : String) : Substitution where
  bindings := AssocList.upsert x (fun _ => c) σ.bindings
  nodup := AssocList.nodup_keys_upsert x _ σ.nodup

/-- Makes the given bindings one after the other. -/
def ofList (bindings : List (String × String)) : Substitution :=
  bindings.foldl (fun σ (x, c) => σ.bind x c) empty

@[simp] theorem lookup?_empty (x : String) : empty.lookup? x = none := rfl

theorem lookup?_bind (σ : Substitution) (x c y : String) :
    (σ.bind x c).lookup? y = if y = x then some c else σ.lookup? y :=
  AssocList.lookup_upsert x y _ σ.bindings

theorem domain_bind (σ : Substitution) (x c : String) :
    (σ.bind x c).domain = if x ∈ σ.domain then σ.domain else σ.domain ++ [x] :=
  AssocList.keys_upsert x _ σ.bindings

end Substitution

/-- Replaces a bound variable by its constant. Unbound variables and constants stay. -/
def Term.subst (σ : Substitution) : Term → Term
  | .var x => match σ.lookup? x with
    | some c => .const c
    | none => .var x
  | .const c => .const c

@[simp] theorem Term.subst_const (σ : Substitution) (c : String) :
    (Term.const c).subst σ = .const c := rfl

@[simp] theorem Term.subst_empty (t : Term) : t.subst Substitution.empty = t := by
  cases t <;> rfl

end Datalog
