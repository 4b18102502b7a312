import Datalog.Atom
import Mathlib.Data.List.Basic

/-!
# Substitutions as partial functions

A substitution acts on terms and atoms only through the constants that it looks up, and two of them
that look up the same constants differ at most in the order of their bindings. Applying one
substitution after another is applying a single one, in which the first has precedence.

## Main definitions

* `Substitution.Within` — every binding of one substitution is a binding of the other
* `Substitution.orElse` — the bindings of one substitution, and for other variables those of another
* `Substitution.BindsExactly` — the bound variables are those of some atoms

## Main results

* `Substitution.ext_lookup?` — order and looked up constants determine a substitution
* `Atom.subst_subst` — substituting twice
* `Atom.subst_eq_subst_iff` — when two substitutions have the same effect on an atom
* `Substitution.within_of_subst_eq`, `Substitution.BindsExactly.lookup?_eq` — bindings that are determined
  by their effect
* `Atom.isGround_subst_iff` — substituting makes an atom ground if it binds all its variables
-/

namespace Datalog

namespace Substitution

variable {σ τ : Substitution} {x c : String}

theorem lookup?_eq_none_iff : σ.lookup? x = none ↔ x ∉ σ.domain := by
  rw [lookup?, List.lookup_eq_none_iff, domain, List.mem_map]
  constructor
  · rintro h ⟨b, hb, rfl⟩
    simpa using h b hb
  · intro h b hb
    rw [bne_iff_ne]
    rintro rfl
    exact h ⟨b, hb, rfl⟩

theorem mem_domain_iff : x ∈ σ.domain ↔ ∃ c, σ.lookup? x = some c := by
  rw [← Option.isSome_iff_exists, ← not_iff_not, Option.not_isSome_iff_eq_none,
    lookup?_eq_none_iff]

theorem nodup_domain (σ : Substitution) : σ.domain.Nodup := σ.nodup

/-- Every binding of `σ` is a binding of `τ`. -/
def Within (σ τ : Substitution) : Prop := ∀ x c, σ.lookup? x = some c → τ.lookup? x = some c

theorem within_refl (σ : Substitution) : σ.Within σ := fun _ _ h => h

theorem empty_within (σ : Substitution) : empty.Within σ := by
  intro x c h
  simp at h

theorem Within.trans {ρ : Substitution} (h : σ.Within τ) (h' : τ.Within ρ) : σ.Within ρ :=
  fun x c hx => h' x c (h x c hx)

/-- A new binding loses none of the old ones. -/
theorem within_bind (hx : σ.lookup? x = none) (c : String) : σ.Within (σ.bind x c) := by
  intro y d hy
  rw [lookup?_bind]
  split
  · rename_i same
    rw [same, hx] at hy
    simp at hy
  · exact hy

theorem bind_within (h : σ.Within τ) (hx : τ.lookup? x = some c) : (σ.bind x c).Within τ := by
  intro y d hy
  rw [lookup?_bind] at hy
  split at hy
  · rename_i same
    rw [same, hx, ← hy]
  · exact h y d hy

/-- Where both are bound, a substitution agrees with one that it is within. -/
theorem Within.lookup?_eq (h : σ.Within τ) (hx : x ∈ σ.domain) : σ.lookup? x = τ.lookup? x := by
  obtain ⟨c, hc⟩ := mem_domain_iff.mp hx
  rw [hc, h x c hc]

theorem bindings_eq_map (σ : Substitution) :
    σ.bindings = σ.domain.map fun x => (x, (σ.lookup? x).getD "") := by
  obtain ⟨bindings, distinct⟩ := σ
  simp only [domain, lookup?, List.map_map]
  induction bindings with
  | nil => rfl
  | cons entry rest ih =>
    obtain ⟨x, c⟩ := entry
    rw [List.map_cons, List.nodup_cons] at distinct
    -- No variable is bound twice, so the first binding hides none of the others.
    have tail : ∀ b ∈ rest, ((x, c) :: rest).lookup b.1 = rest.lookup b.1 := by
      intro b hb
      have hne : b.1 ≠ x := fun h => distinct.1 (List.mem_map.mpr ⟨b, hb, h⟩)
      rw [List.lookup_cons, beq_false_of_ne hne]
    rw [List.map_cons]
    refine congrArg₂ List.cons (by simp) ?_
    refine (ih distinct.2).trans (List.map_congr_left fun b hb => ?_)
    simp only [Function.comp_apply, tail b hb]

/-- A substitution is determined by its variables, in order, and what it looks up. -/
theorem ext_lookup? (hdomain : σ.domain = τ.domain) (hlookup : ∀ x, σ.lookup? x = τ.lookup? x) :
    σ = τ := by
  have same : σ.bindings = τ.bindings := by
    rw [bindings_eq_map σ, bindings_eq_map τ, hdomain]
    exact List.map_congr_left fun x _ => by rw [hlookup x]
  cases σ
  cases τ
  simp_all

/-- The bindings of `σ`, followed by those of `τ` for variables that `σ` leaves unbound. -/
def orElse (σ τ : Substitution) : Substitution where
  bindings := σ.bindings ++ τ.bindings.filter fun b => b.1 ∉ σ.domain
  nodup := by
    rw [List.map_append, List.nodup_append]
    refine ⟨σ.nodup, τ.nodup.sublist (List.filter_sublist.map _), fun x hx y hy same => ?_⟩
    obtain ⟨b, hb, rfl⟩ := List.mem_map.mp hy
    have unbound := (List.mem_filter.mp hb).2
    simp only [decide_eq_true_eq] at unbound
    exact unbound (same ▸ hx)

theorem lookup?_orElse (σ τ : Substitution) (x : String) :
    (σ.orElse τ).lookup? x = (σ.lookup? x).or (τ.lookup? x) := by
  -- The filter only drops bindings of variables that `σ` binds.
  have remaining : ∀ bindings : List (String × String), x ∉ σ.domain →
      (bindings.filter fun b => b.1 ∉ σ.domain).lookup x = bindings.lookup x := by
    intro bindings hx
    induction bindings with
    | nil => rfl
    | cons b rest ih => by_cases hb : b.1 = x <;> grind
  rw [lookup?, orElse, List.lookup_append]
  by_cases hx : x ∈ σ.domain
  · obtain ⟨c, hc⟩ := mem_domain_iff.mp hx
    rw [lookup?] at hc ⊢
    rw [hc, Option.some_or, Option.some_or]
  · rw [remaining _ hx]
    rfl

theorem mem_domain_orElse : x ∈ (σ.orElse τ).domain ↔ x ∈ σ.domain ∨ x ∈ τ.domain := by
  simp only [← not_iff_not (a := x ∈ (σ.orElse τ).domain), ← lookup?_eq_none_iff, not_or,
    lookup?_orElse, Option.or_eq_none_iff]

theorem within_orElse (σ τ : Substitution) : σ.Within (σ.orElse τ) := by
  intro x c hx
  rw [lookup?_orElse, hx, Option.some_or]

theorem orElse_within {ρ : Substitution} (hσ : σ.Within ρ) (hτ : τ.Within ρ) :
    (σ.orElse τ).Within ρ := by
  intro x c h
  rw [lookup?_orElse, Option.or_eq_some_iff] at h
  rcases h with h | ⟨-, h⟩
  · exact hσ x c h
  · exact hτ x c h

/-- The bound variables are those of the atoms, and no others. -/
def BindsExactly (σ : Substitution) (atoms : List Atom) : Prop :=
  ∀ x, x ∈ σ.domain ↔ ∃ a ∈ atoms, x ∈ a.vars

end Substitution

open Substitution

attribute [ext] Atom

theorem Term.subst_subst (σ τ : Substitution) (t : Term) :
    (t.subst σ).subst τ = t.subst (σ.orElse τ) := by
  cases t with
  | const c => rfl
  | var x =>
    simp only [Term.subst, lookup?_orElse]
    cases σ.lookup? x <;> rfl

theorem Term.subst_eq_subst_iff {σ τ : Substitution} {t : Term} :
    t.subst σ = t.subst τ ↔ ∀ x, t = .var x → σ.lookup? x = τ.lookup? x := by
  cases t with
  | const c => simp
  | var x =>
    simp only [Term.var.injEq, forall_eq', Term.subst]
    cases σ.lookup? x <;> cases τ.lookup? x <;> simp

theorem Term.isVar_subst {σ : Substitution} {t : Term} :
    (t.subst σ).isVar = false ↔ ∀ x, t = .var x → x ∈ σ.domain := by
  cases t with
  | const c => simp
  | var x =>
    simp only [Term.var.injEq, forall_eq', mem_domain_iff, Term.subst]
    cases σ.lookup? x <;> simp

theorem Term.subst_eq_var_iff {σ : Substitution} {t : Term} {x : String} :
    t.subst σ = .var x ↔ t = .var x ∧ x ∉ σ.domain := by
  cases t with
  | const c => simp
  | var y =>
    rw [← lookup?_eq_none_iff, Term.subst]
    cases h : σ.lookup? y with
    | none =>
      simp only [Term.var.injEq, iff_self_and]
      rintro rfl
      exact h
    | some c =>
      simp only [reduceCtorEq, Term.var.injEq, false_iff, not_and]
      rintro rfl
      simp [h]

namespace Atom

variable {σ τ : Substitution} {a : Atom} {x : String}

/-- Substituting twice is substituting once, where the first substitution has precedence. -/
theorem subst_subst (σ τ : Substitution) (a : Atom) :
    (a.subst σ).subst τ = a.subst (σ.orElse τ) := by
  ext1
  · rfl
  · simp [Term.subst_subst]

theorem subst_eq_subst_iff :
    a.subst σ = a.subst τ ↔ ∀ x ∈ a.vars, σ.lookup? x = τ.lookup? x := by
  -- Substituting keeps the predicate, so only the arguments matter.
  have terms : a.subst σ = a.subst τ ↔ ∀ t ∈ a.terms, t.subst σ = t.subst τ := by
    rw [subst, subst, Atom.mk.injEq, List.map_inj_left]
    simp
  rw [terms]
  simp only [Term.subst_eq_subst_iff, mem_vars]
  exact ⟨fun h x hx => h _ hx x rfl, fun h t ht x hx => h x (hx ▸ ht)⟩

theorem isGround_iff_vars : a.isGround = true ↔ ∀ x, x ∉ a.vars := by
  simp only [isGround_iff, mem_vars]
  constructor
  · intro h x hx
    simpa using h _ hx
  · intro h t ht
    cases t with
    | const c => rfl
    | var x => exact absurd ht (h x)

theorem isGround_subst_iff : (a.subst σ).isGround = true ↔ ∀ x ∈ a.vars, x ∈ σ.domain := by
  simp only [isGround_iff, terms_subst, List.forall_mem_map, Term.isVar_subst, mem_vars]
  exact ⟨fun h x hx => h _ hx x rfl, fun h t ht x hx => h x (hx ▸ ht)⟩

theorem mem_vars_subst : x ∈ (a.subst σ).vars ↔ x ∈ a.vars ∧ x ∉ σ.domain := by
  simp only [mem_vars, terms_subst, List.mem_map, Term.subst_eq_var_iff]
  constructor
  · rintro ⟨t, ht, rfl, hx⟩
    exact ⟨ht, hx⟩
  · exact fun ⟨ht, hx⟩ => ⟨_, ht, rfl, hx⟩

/-- Substitutions that look up the same constants have the same effect. -/
theorem subst_congr (h : ∀ x, σ.lookup? x = τ.lookup? x) : subst σ = subst τ :=
  funext fun _ => subst_eq_subst_iff.mpr fun x _ => h x

/-- More bindings have no effect on an atom whose variables are all bound. -/
theorem subst_eq_of_within (h : σ.Within τ) (hvars : ∀ x ∈ a.vars, x ∈ σ.domain) :
    a.subst σ = a.subst τ :=
  subst_eq_subst_iff.mpr fun x hx => h.lookup?_eq (hvars x hx)

/-- Some of the bindings may be applied first. -/
theorem subst_subst_of_within (h : σ.Within τ) (a : Atom) : (a.subst σ).subst τ = a.subst τ := by
  rw [subst_subst, subst_eq_subst_iff]
  intro x _
  rw [lookup?_orElse]
  cases hx : σ.lookup? x with
  | none => rfl
  | some c => rw [Option.some_or, h x c hx]

end Atom

namespace Substitution

variable {σ τ : Substitution}

/-- Bindings of variables of an atom are determined by their effect on it. -/
theorem within_of_subst_eq {a : Atom} (hdomain : σ.domain ⊆ a.vars)
    (h : a.subst σ = a.subst τ) : σ.Within τ := by
  intro x c hx
  rw [← Atom.subst_eq_subst_iff.mp h x (hdomain (mem_domain_iff.mpr ⟨c, hx⟩)), hx]

/-- Substitutions that bind the variables of some atoms, and have the same effect on these, look up the
same constants. -/
theorem BindsExactly.lookup?_eq {atoms : List Atom} (hσ : σ.BindsExactly atoms)
    (hτ : τ.BindsExactly atoms) (h : ∀ a ∈ atoms, a.subst σ = a.subst τ) (x : String) :
    σ.lookup? x = τ.lookup? x := by
  by_cases hx : ∃ a ∈ atoms, x ∈ a.vars
  · obtain ⟨a, ha, hx⟩ := hx
    exact Atom.subst_eq_subst_iff.mp (h a ha) x hx
  · rw [lookup?_eq_none_iff.mpr (mt (hσ x).mp hx), lookup?_eq_none_iff.mpr (mt (hτ x).mp hx)]

end Substitution

end Datalog
