import Datalog.Program
import Datalog.Proofs.AssocList
import Datalog.Proofs.Unification
import Mathlib.Data.List.InsertIdx
import Mathlib.Data.List.Nodup

/-!
# Renaming

Predicates, variables and constants may be renamed, each kind by an injective function of its own. No
text is special: a constant may be renamed to the name of a variable, or to the empty text. Renaming
commutes with substitution, with unification and with resolution, because none of these looks at a
text in any other way than by comparing it with another one of its kind.

## Main definitions

* `Renaming` — injective functions for predicates, variables and constants
* `Term.rename`, `Atom.rename`, `Rule.rename`, `Program.rename`, `Substitution.rename` — what becomes of
  terms, atoms, rules, programs and bindings

## Main results

* `Atom.rename_subst`, `Rule.rename_resolve` — renaming after a substitution, or before it
* `Atom.unify?_rename` — renamed atoms unify exactly if the atoms do, by the renamed substitution
-/

namespace Datalog

/-- New names for predicates, variables and constants. Different names of one kind stay different. -/
structure Renaming where
  /-- The new name of a predicate. -/
  predicate : String → String
  /-- The new name of a variable. -/
  var : String → String
  /-- The new text of a constant. -/
  const : String → String
  /-- Different predicates stay different. -/
  predicate_injective : Function.Injective predicate
  /-- Different variables stay different. -/
  var_injective : Function.Injective var
  /-- Different constants stay different. -/
  const_injective : Function.Injective const

/-- Puts a text before every name, a text of its own for each kind. -/
def Renaming.prepend (predicate var const : String) : Renaming where
  predicate name := predicate ++ name
  var name := var ++ name
  const name := const ++ name
  predicate_injective _ _ h := (String.append_right_inj predicate).mp h
  var_injective _ _ h := (String.append_right_inj var).mp h
  const_injective _ _ h := (String.append_right_inj const).mp h

variable (ρ : Renaming)

/-! ### Terms, atoms and rules -/

/-- The term under new names. -/
def Term.rename (ρ : Renaming) : Term → Term
  | .var x => .var (ρ.var x)
  | .const c => .const (ρ.const c)

@[simp] theorem Term.rename_const (c : String) : (Term.const c).rename ρ = .const (ρ.const c) := rfl

@[simp] theorem Term.isVar_rename (t : Term) : (t.rename ρ).isVar = t.isVar := by
  cases t <;> rfl

theorem Term.rename_injective : Function.Injective (Term.rename ρ) := by
  intro s t h
  cases s with
  | var x =>
    cases t with
    | var y => exact congrArg var (ρ.var_injective (Term.var.inj h))
    | const d => simp [rename] at h
  | const c =>
    cases t with
    | var y => simp [rename] at h
    | const d => exact congrArg const (ρ.const_injective (Term.const.inj h))

/-- The atom under new names. -/
def Atom.rename (ρ : Renaming) (a : Atom) : Atom where
  predicate := ρ.predicate a.predicate
  terms := a.terms.map (Term.rename ρ)

@[simp] theorem Atom.predicate_rename (a : Atom) :
    (a.rename ρ).predicate = ρ.predicate a.predicate := rfl

@[simp] theorem Atom.terms_rename (a : Atom) : (a.rename ρ).terms = a.terms.map (Term.rename ρ) := rfl

@[simp] theorem Atom.isGround_rename (a : Atom) : (a.rename ρ).isGround = a.isGround := by
  simp [isGround, Function.comp_def]

theorem Atom.rename_injective : Function.Injective (Atom.rename ρ) := by
  intro a b h
  have hpredicate := congrArg Atom.predicate h
  have hterms := congrArg Atom.terms h
  exact Atom.ext (ρ.predicate_injective hpredicate)
    ((Term.rename_injective ρ).list_map hterms)

/-- The rule under new names. -/
def Rule.rename (ρ : Renaming) (r : Rule) : Rule where
  head := r.head.rename ρ
  body := r.body.map (Atom.rename ρ)

@[simp] theorem Rule.body_rename (r : Rule) : (r.rename ρ).body = r.body.map (Atom.rename ρ) := rfl

@[simp] theorem Rule.isFact_rename (r : Rule) : (r.rename ρ).isFact = r.isFact := by
  simp [isFact]

theorem Rule.rename_injective : Function.Injective (Rule.rename ρ) := by
  intro r s h
  have hhead := congrArg Rule.head h
  have hbody := congrArg Rule.body h
  exact eq_iff_body_head.mpr
    ⟨(Atom.rename_injective ρ).list_map hbody, Atom.rename_injective ρ hhead⟩

/-- The program under new names. -/
def Program.rename (ρ : Renaming) (p : Program) : Program where
  rules := p.rules.map (Rule.rename ρ)
  facts := p.facts.map (Atom.rename ρ)

theorem Program.rename_merge (p q : Program) :
    (p.merge q).rename ρ = (p.rename ρ).merge (q.rename ρ) := by
  simp [rename, merge]

/-! ### Substitutions -/

namespace Substitution

/-- The bindings under new names. -/
def rename (ρ : Renaming) (σ : Substitution) : Substitution where
  bindings := σ.bindings.map (Prod.map ρ.var ρ.const)
  nodup := by
    have hkeys : (σ.bindings.map (Prod.map ρ.var ρ.const)).map Prod.fst =
        (σ.bindings.map Prod.fst).map ρ.var := by
      simp [Function.comp_def]
    rw [hkeys]
    exact σ.nodup.map ρ.var_injective

theorem lookup?_rename (σ : Substitution) (x : String) :
    (σ.rename ρ).lookup? (ρ.var x) = (σ.lookup? x).map ρ.const :=
  AssocList.lookup_map ρ.var_injective ρ.const σ.bindings x

theorem rename_bind (σ : Substitution) (x c : String) :
    (σ.bind x c).rename ρ = (σ.rename ρ).bind (ρ.var x) (ρ.const c) := by
  simp only [rename, bind, Substitution.mk.injEq]
  exact (AssocList.upsert_map ρ.var_injective ρ.const σ.bindings x c).symm

end Substitution

open Substitution

theorem Term.rename_subst (σ : Substitution) (t : Term) :
    (t.subst σ).rename ρ = (t.rename ρ).subst (σ.rename ρ) := by
  cases t with
  | const c => rfl
  | var x =>
    rw [rename, subst, subst, lookup?_rename]
    cases σ.lookup? x <;> rfl

/-- Substituting and then renaming is renaming first and then substituting under new names. -/
theorem Atom.rename_subst (σ : Substitution) (a : Atom) :
    (a.subst σ).rename ρ = (a.rename ρ).subst (σ.rename ρ) := by
  ext1
  · rfl
  · simp [Term.rename_subst]

/-- So is resolving a body atom away. -/
theorem Rule.rename_resolve (r : Rule) (i : Nat) (σ : Substitution) :
    (r.resolve i σ).rename ρ = (r.rename ρ).resolve i (σ.rename ρ) := by
  simp [resolve, rename, Atom.rename_subst, List.eraseIdx_map, Function.comp_def]

/-! ### Unification -/

theorem matchTerm?_rename (σ : Substitution) (t : Term) (c : String) :
    matchTerm? (σ.rename ρ) (t.rename ρ) (ρ.const c) =
      (matchTerm? σ t c).map (Substitution.rename ρ) := by
  cases t with
  | const d => by_cases h : d = c <;> simp [Term.rename, matchTerm?, h, ρ.const_injective.eq_iff]
  | var x =>
    rw [Term.rename, matchTerm?, matchTerm?, lookup?_rename]
    cases σ.lookup? x with
    | none => exact congrArg some (rename_bind ρ σ x c).symm
    | some d => by_cases h : d = c <;> simp [h, ρ.const_injective.eq_iff]

theorem unifyTerms?_rename (σ : Substitution) (ts : List Term) (values : List String) :
    unifyTerms? (σ.rename ρ) (ts.map (Term.rename ρ)) ((values.map ρ.const).map .const) =
      (unifyTerms? σ ts (values.map .const)).map (Substitution.rename ρ) := by
  induction ts generalizing σ values with
  | nil => cases values <;> rfl
  | cons t ts ih =>
    cases values with
    | nil => cases t <;> rfl
    | cons c values =>
      simp only [List.map_cons, unifyTerms?_cons, Term.text_const, matchTerm?_rename]
      cases matchTerm? σ t c with
      | none => rfl
      | some τ => exact ih τ values

/-- Renamed atoms unify exactly if the atoms do, and by the renamed substitution. -/
theorem Atom.unify?_rename {ground : Atom} (h : ground.isGround = true) (pattern : Atom) :
    (pattern.rename ρ).unify? (ground.rename ρ) =
      (pattern.unify? ground).map (Substitution.rename ρ) := by
  have hterms := terms_eq_map_const h
  have hrenamed : (ground.rename ρ).terms = (ground.texts.map ρ.const).map .const := by
    rw [terms_rename, hterms]
    simp
  rw [unify?, unify?, hrenamed, hterms]
  exact unifyTerms?_rename ρ Substitution.empty pattern.terms ground.texts

end Datalog
