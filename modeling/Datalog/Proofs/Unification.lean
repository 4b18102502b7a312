import Datalog.Unification
import Datalog.Proofs.Distinct
import Datalog.Proofs.Substitution

/-!
# What unification computes

A pattern unifies with a ground atom of its predicate and arity exactly if some substitution makes
the two equal. The substitution that is returned binds the variables of the pattern and no others, in
the order of their first occurrences, and these bindings are forced.

## Main definitions

* `matchTerm?` — what unification does at one position
* `Atom.IsLeastUnifier` — a substitution that makes a pattern equal to an atom and does no more

## Main results

* `Atom.unify?_eq_some_iff` — the substitution is the one that makes the pattern equal to the atom and
  binds the variables of the pattern in order
* `Atom.exists_unify?` — unification finds a substitution if there is one
* `Atom.unify?_finds_least` — it finds the least one, and fails only if there is none
-/

namespace Datalog

open Substitution

/-- The name of a variable. -/
def Term.name? : Term → Option String
  | .var x => some x
  | .const _ => none

/-! ### One position -/

/-- Extends `σ` so that it makes one pattern equal to the constant `c`. -/
def matchTerm? (σ : Substitution) : Term → String → Option Substitution
  | .const d, c => if d = c then some σ else none
  | .var x, c => match σ.lookup? x with
    | some d => if d = c then some σ else none
    | none => some (σ.bind x c)

theorem unifyTerms?_cons (σ : Substitution) (t value : Term) (ts values : List Term) :
    unifyTerms? σ (t :: ts) (value :: values) =
      (matchTerm? σ t value.text).bind fun ρ => unifyTerms? ρ ts values := by
  cases t with
  | const d =>
    rw [unifyTerms?, matchTerm?]
    split <;> rfl
  | var x =>
    rw [unifyTerms?, matchTerm?]
    cases σ.lookup? x with
    | none => rfl
    | some d => by_cases h : d = value.text <;> simp [h]

section Position

variable {σ ρ : Substitution} {t : Term} {c : String}

/-- The three ways in which a position can match. -/
theorem matchTerm?_cases (h : matchTerm? σ t c = some ρ) :
    (t = .const c ∧ ρ = σ) ∨ (∃ x, t = .var x ∧ σ.lookup? x = some c ∧ ρ = σ) ∨
      ∃ x, t = .var x ∧ σ.lookup? x = none ∧ ρ = σ.bind x c := by
  cases t with
  | const d =>
    by_cases hd : d = c
    · simp only [matchTerm?, hd, if_true, Option.some.injEq] at h
      exact Or.inl ⟨congrArg _ hd, h.symm⟩
    · simp [matchTerm?, hd] at h
  | var x =>
    cases hx : σ.lookup? x with
    | none =>
      simp only [matchTerm?, hx, Option.some.injEq] at h
      exact Or.inr (Or.inr ⟨x, rfl, hx, h.symm⟩)
    | some d =>
      by_cases hd : d = c
      · simp only [matchTerm?, hx, hd, if_true, Option.some.injEq] at h
        exact Or.inr (Or.inl ⟨x, rfl, hd ▸ hx, h.symm⟩)
      · simp [matchTerm?, hx, hd] at h

theorem within_of_matchTerm? (h : matchTerm? σ t c = some ρ) : σ.Within ρ := by
  rcases matchTerm?_cases h with ⟨-, rfl⟩ | ⟨x, -, -, rfl⟩ | ⟨x, -, hx, rfl⟩
  · exact within_refl ρ
  · exact within_refl ρ
  · exact within_bind hx c

theorem subst_of_matchTerm? (h : matchTerm? σ t c = some ρ) : t.subst ρ = .const c := by
  rcases matchTerm?_cases h with ⟨rfl, -⟩ | ⟨x, rfl, hx, rfl⟩ | ⟨x, rfl, -, rfl⟩
  · rfl
  · simp [Term.subst, hx]
  · simp [Term.subst, lookup?_bind]

theorem domain_of_matchTerm? (h : matchTerm? σ t c = some ρ) :
    ρ.domain = (σ.domain ++ t.name?.toList).eraseDups := by
  have keep := eraseDups_of_nodup σ.nodup_domain
  rcases matchTerm?_cases h with ⟨rfl, rfl⟩ | ⟨x, rfl, hx, rfl⟩ | ⟨x, rfl, hx, rfl⟩
  · simp [Term.name?, keep]
  · have bound : x ∈ ρ.domain := mem_domain_iff.mpr ⟨c, hx⟩
    simp [Term.name?, eraseDups_append_singleton, keep, bound]
  · have unbound : x ∉ σ.domain := lookup?_eq_none_iff.mp hx
    simp [Term.name?, eraseDups_append_singleton, keep, unbound, domain_bind]

/-- A position matches whenever a substitution with the bindings made so far fits there. -/
theorem exists_matchTerm? {τ : Substitution} (hwithin : σ.Within τ) (h : t.subst τ = .const c) :
    ∃ ρ, matchTerm? σ t c = some ρ ∧ ρ.Within τ := by
  cases t with
  | const d =>
    obtain rfl : d = c := by simpa using h
    exact ⟨σ, by simp [matchTerm?], hwithin⟩
  | var x =>
    have hτ : τ.lookup? x = some c := by
      rw [Term.subst] at h
      split at h
      · rename_i d hd
        rw [hd, Term.const.inj h]
      · simp at h
    cases hx : σ.lookup? x with
    | none => exact ⟨σ.bind x c, by simp [matchTerm?, hx], bind_within hwithin hτ⟩
    | some d =>
      -- What is bound already is bound by `τ` too, so it cannot conflict.
      obtain rfl : d = c := Option.some.inj ((hwithin x d hx).symm.trans hτ)
      exact ⟨σ, by simp [matchTerm?, hx], hwithin⟩

end Position

theorem Term.subst_const_of_within {σ τ : Substitution} {t : Term} {c : String}
    (hwithin : σ.Within τ) (h : t.subst σ = .const c) : t.subst τ = .const c := by
  cases t with
  | const d => exact h
  | var x =>
    rw [Term.subst] at h
    split at h
    · rename_i d hd
      rw [Term.subst, hwithin x d hd]
      exact h
    · simp at h

/-! ### All positions -/

section Positions

variable {σ τ : Substitution} {ts : List Term} {values : List String}

theorem unifyTerms?_sound (hlength : ts.length = values.length)
    (h : unifyTerms? σ ts (values.map .const) = some τ) :
    σ.Within τ ∧ ts.map (Term.subst τ) = values.map .const ∧
      τ.domain = (σ.domain ++ ts.filterMap Term.name?).eraseDups := by
  induction ts generalizing σ values with
  | nil =>
    obtain rfl : values = [] := List.length_eq_zero_iff.mp hlength.symm
    obtain rfl : σ = τ := by simpa [unifyTerms?] using h
    exact ⟨within_refl σ, rfl, by simp [eraseDups_of_nodup σ.nodup_domain]⟩
  | cons t ts ih =>
    obtain ⟨c, values, rfl⟩ := List.exists_cons_of_length_eq_add_one hlength.symm
    rw [List.map_cons, unifyTerms?_cons, Option.bind_eq_some_iff] at h
    obtain ⟨ρ, hρ, h⟩ := h
    obtain ⟨hwithin, hterms, hdomain⟩ := ih (by simpa using hlength) h
    refine ⟨(within_of_matchTerm? hρ).trans hwithin, ?_, ?_⟩
    -- Later positions only add bindings, so the first argument keeps its constant.
    · have here := Term.subst_const_of_within hwithin (subst_of_matchTerm? hρ)
      simp only [Term.text_const] at here
      rw [List.map_cons, List.map_cons, here, hterms]
    · rw [hdomain, domain_of_matchTerm? hρ, eraseDups_eraseDups_append, List.append_assoc]
      cases t <;> rfl

theorem exists_unifyTerms? (hwithin : σ.Within τ)
    (h : ts.map (Term.subst τ) = values.map .const) :
    ∃ ρ, unifyTerms? σ ts (values.map .const) = some ρ := by
  -- The bindings made on the way stay within `τ`.
  induction ts generalizing σ values with
  | nil => exact ⟨σ, by simp [unifyTerms?]⟩
  | cons t ts ih =>
    cases values with
    | nil => simp at h
    | cons c values =>
      rw [List.map_cons, List.map_cons, List.cons.injEq] at h
      obtain ⟨ρ, hρ, hwithin⟩ := exists_matchTerm? hwithin h.1
      obtain ⟨ρ', hρ'⟩ := ih hwithin h.2
      refine ⟨ρ', ?_⟩
      rw [List.map_cons, unifyTerms?_cons, Term.text_const, hρ]
      exact hρ'

end Positions

namespace Atom

/-- What tells apart the atoms that can never be equal: predicate and number of arguments. -/
def signature (a : Atom) : String × Nat := (a.predicate, a.arity)

@[simp] theorem signature_subst (σ : Substitution) (a : Atom) :
    (a.subst σ).signature = a.signature := by
  simp [signature]

theorem terms_eq_map_const {a : Atom} (h : a.isGround = true) : a.terms = a.texts.map .const := by
  have same : ∀ t ∈ a.terms, Term.const t.text = t := fun t ht =>
    (Term.isVar_eq_false_iff.mp (isGround_iff.mp h t ht)).symm
  rw [texts, List.map_map]
  exact (List.map_id' a.terms).symm.trans (List.map_congr_left fun t ht => (same t ht).symm)

variable {pattern ground : Atom} {σ : Substitution}

theorem unify?_sound (hground : ground.isGround = true)
    (hsignature : pattern.signature = ground.signature) (h : pattern.unify? ground = some σ) :
    pattern.subst σ = ground ∧ σ.domain = pattern.vars := by
  obtain ⟨hpredicate, hlength⟩ := Prod.mk.inj hsignature
  have hterms := terms_eq_map_const hground
  rw [unify?, hterms] at h
  obtain ⟨-, hsubst, hdomain⟩ := unifyTerms?_sound (by simpa [arity, texts] using hlength) h
  exact ⟨Atom.ext hpredicate (hsubst.trans hterms.symm), hdomain⟩

/-- Unification finds a substitution whenever there is one. -/
theorem exists_unify? (hground : ground.isGround = true) (h : pattern.subst σ = ground) :
    ∃ τ, pattern.unify? ground = some τ := by
  have hterms := terms_eq_map_const hground
  rw [unify?, hterms]
  refine exists_unifyTerms? (empty_within σ) ?_
  rw [← hterms, ← h, terms_subst]

/-- Unification with a ground atom returns the substitution that makes the two equal and binds the
variables of the pattern, in the order of their first occurrences. -/
theorem unify?_eq_some_iff (hground : ground.isGround = true)
    (hsignature : pattern.signature = ground.signature) :
    pattern.unify? ground = some σ ↔ pattern.subst σ = ground ∧ σ.domain = pattern.vars := by
  refine ⟨unify?_sound hground hsignature, fun ⟨hsubst, hdomain⟩ => ?_⟩
  obtain ⟨τ, hτ⟩ := exists_unify? hground hsubst
  obtain ⟨hsubst', hdomain'⟩ := unify?_sound hground hsignature hτ
  -- Both bind the variables of the pattern, and both make it equal to the ground atom.
  have hσbinds : σ.BindsExactly [pattern] := fun x => by simp [hdomain]
  have hτbinds : τ.BindsExactly [pattern] := fun x => by simp [hdomain']
  have same : σ = τ := ext_lookup? (hdomain.trans hdomain'.symm) <|
    hσbinds.lookup?_eq hτbinds (by simp [hsubst, hsubst'])
  rw [same, hτ]

/-! ### Least unifiers -/

/-- The variables of an atom stand in the order of their first occurrences. -/
theorem pairwise_vars (a : Atom) :
    a.vars.Pairwise fun x y => a.terms.idxOf (.var x) < a.terms.idxOf (.var y) := by
  have first : ∀ x, a.terms.findIdx (fun t => t.name? = some x) = a.terms.idxOf (.var x) := by
    intro x
    refine congrArg (List.findIdx · a.terms) (funext fun t => Bool.eq_iff_iff.mpr ?_)
    cases t <;> simp [Term.name?]
  have hsorted := pairwise_eraseDups_filterMap Term.name? a.terms
  simp only [first] at hsorted
  exact hsorted

/-- The substitution makes the pattern equal to the atom and does no more: it binds the variables of the
pattern, each once and in the order of their first occurrences, and binds them as every substitution
does that makes the two equal. -/
structure IsLeastUnifier (pattern ground : Atom) (σ : Substitution) : Prop where
  /-- The pattern becomes the atom. -/
  subst_eq : pattern.subst σ = ground
  /-- The bound variables are the variables of the pattern, as they are listed. -/
  domain_eq : σ.domain = pattern.vars
  /-- No variable is bound twice. -/
  nodup_domain : σ.domain.Nodup
  /-- A variable is bound if it occurs in the pattern. -/
  mem_domain_iff : ∀ x, x ∈ σ.domain ↔ .var x ∈ pattern.terms
  /-- What occurs first is bound first. -/
  pairwise_domain :
    σ.domain.Pairwise fun x y => pattern.terms.idxOf (.var x) < pattern.terms.idxOf (.var y)
  /-- The bindings are forced. -/
  forced : ∀ τ, pattern.subst τ = ground → ∀ x ∈ σ.domain, τ.lookup? x = σ.lookup? x

/-- What binds the variables of the pattern in order and makes it equal to the atom is least. -/
theorem isLeastUnifier_iff :
    IsLeastUnifier pattern ground σ ↔ pattern.subst σ = ground ∧ σ.domain = pattern.vars := by
  refine ⟨fun h => ⟨h.subst_eq, h.domain_eq⟩, fun ⟨hsubst, hdomain⟩ => ?_⟩
  refine ⟨hsubst, hdomain, σ.nodup_domain, ?_, ?_, ?_⟩
  · exact fun x => hdomain ▸ mem_vars
  · exact hdomain ▸ pattern.pairwise_vars
  · intro τ hτ x hx
    exact subst_eq_subst_iff.mp (hτ.trans hsubst.symm) x (hdomain ▸ hx)

/-- A pattern unifies with a ground atom of its predicate and arity exactly if some substitution makes the
two equal. The least such substitution is what is found, and nothing has to be bound if the two are
equal already. -/
theorem unify?_finds_least (hground : ground.isGround = true)
    (hsignature : pattern.signature = ground.signature) :
    ((∃ σ, pattern.unify? ground = some σ) ↔ ∃ τ, pattern.subst τ = ground) ∧
      (∀ σ, pattern.unify? ground = some σ ↔ IsLeastUnifier pattern ground σ) ∧
      (pattern = ground → pattern.unify? ground = some Substitution.empty) := by
  refine ⟨⟨?sound, ?complete⟩, ?least, ?ground⟩
  case sound => exact fun ⟨σ, hσ⟩ => ⟨σ, (unify?_sound hground hsignature hσ).1⟩
  case complete => exact fun ⟨τ, hτ⟩ => exists_unify? hground hτ
  case least =>
    exact fun σ => (unify?_eq_some_iff hground hsignature).trans isLeastUnifier_iff.symm
  case ground =>
    rintro rfl
    have hvars : pattern.vars = [] :=
      List.eq_nil_iff_forall_not_mem.mpr (isGround_iff_vars.mp hground)
    exact (unify?_eq_some_iff hground rfl).mpr ⟨subst_empty pattern, hvars.symm⟩

/-- A constant, a variable that occurs twice and one that occurs in between. -/
theorem unify?_finds_least_repeated :
    let pattern : Atom := ⟨"p", [.var "?y", .const "a", .var "?x", .var "?y"]⟩
    let ground : Atom := ⟨"p", [.const "b", .const "a", .const "a", .const "b"]⟩
    ground.isGround = true ∧ pattern.signature = ground.signature ∧
      (∃ τ, pattern.subst τ = ground) ∧
      IsLeastUnifier pattern ground (.ofList [("?y", "b"), ("?x", "a")]) := by
  intro pattern ground
  have hground : ground.isGround = true := by decide
  have hsignature : pattern.signature = ground.signature := by decide
  have hunify : pattern.unify? ground = some (.ofList [("?y", "b"), ("?x", "a")]) := by decide
  obtain ⟨hfound, hleast, -⟩ := unify?_finds_least hground hsignature
  exact ⟨hground, hsignature, hfound.mp ⟨_, hunify⟩, (hleast _).mp hunify⟩

end Atom

end Datalog
