import Datalog.Proofs.Residual

/-!
# Range restriction

A rule is range-restricted if every variable of its head occurs in its body. Resolving an atom of the
body away neither gives a rule this property nor takes it away: the variables that leave the body
with the atom leave the head as well, and the others occur where they did. When the body is used up,
being range-restricted means that the head is ground. So the rule tells, without any facts, whether
its conclusions are ground: either all of them are, or none is.

## Main definitions

* `Substitution.collapse` — binds every variable of some atoms to one constant

## Main results

* `Rule.isRangeRestricted_resolve` — resolving a matched atom away keeps the property, and its absence
* `Rule.Reduces.isRangeRestricted_eq` — so do any number of steps
* `Rule.Reduces.isGround_eq` — conclusions are ground exactly if the rule is range-restricted
* `Rule.isRangeRestricted_iff_concludes` — range-restricted rules are those that can conclude something
-/

namespace Datalog

open Substitution

/-- Binds every variable of some atoms to one constant. -/
def Substitution.collapse (atoms : List Atom) (c : String) : Substitution where
  bindings := (atoms.flatMap Atom.vars).eraseDups.map (·, c)
  nodup := by
    rw [List.map_map]
    exact (nodup_eraseDups _).map Function.injective_id

theorem Substitution.collapse_bindsExactly (atoms : List Atom) (c : String) :
    (collapse atoms c).BindsExactly atoms := by
  intro x
  simp [domain, collapse]

namespace Rule

variable {r s : Rule} {facts : Set Atom}

/-- A rule without a body is range-restricted if it states a ground atom. -/
theorem isRangeRestricted_of_body_eq_nil (h : r.body = []) :
    r.isRangeRestricted = r.head.isGround := by
  rw [Bool.eq_iff_iff, isRangeRestricted_iff, Atom.isGround_iff_vars, h]
  simp

/-- Resolving away an atom whose variables are bound keeps the property, and its absence. -/
theorem isRangeRestricted_resolve {i : Nat} {p : Atom} {σ : Substitution}
    (hp : r.body[i]? = some p) (hdomain : σ.domain = p.vars) :
    (r.resolve i σ).isRangeRestricted = r.isRangeRestricted := by
  obtain ⟨hi, rfl⟩ := List.getElem?_eq_some_iff.mp hp
  have hmem : ∀ b, b ∈ r.body ↔ b = r.body[i] ∨ b ∈ r.body.eraseIdx i := fun b => by
    rw [← (List.getElem_cons_eraseIdx_perm hi).mem_iff, List.mem_cons]
  -- Apart from the bound variables, what is left has the variables of the rule.
  have hvars : ∀ x, x ∉ σ.domain →
      ((∃ b ∈ (r.resolve i σ).body, x ∈ b.vars) ↔ ∃ b ∈ r.body, x ∈ b.vars) := by
    intro x hx
    have hatom : x ∉ r.body[i].vars := hdomain ▸ hx
    simp [Atom.mem_vars_subst, hx, hmem, hatom]
  rw [Bool.eq_iff_iff, isRangeRestricted_iff, isRangeRestricted_iff]
  simp only [head_resolve, Atom.mem_vars_subst]
  constructor
  · intro h x hx
    by_cases hbound : x ∈ σ.domain
    · exact ⟨_, List.getElem_mem hi, hdomain ▸ hbound⟩
    · exact (hvars x hbound).mp (h x ⟨hx, hbound⟩)
  · exact fun h x ⟨hx, hunbound⟩ => (hvars x hunbound).mpr (h x hx)

theorem Resolvent.isRangeRestricted_eq {a : Atom} (h : r.Resolvent a s)
    (hground : a.isGround = true) : s.isRangeRestricted = r.isRangeRestricted := by
  obtain ⟨i, p, σ, hp, -, hdomain, rfl⟩ := (resolvent_iff hground).mp h
  exact isRangeRestricted_resolve hp hdomain

/-- Any number of steps keep the property, and its absence. -/
theorem Reduces.isRangeRestricted_eq (h : r.Reduces facts s)
    (hground : ∀ a ∈ facts, a.isGround = true) : s.isRangeRestricted = r.isRangeRestricted := by
  induction h with
  | refl => rfl
  | tail _ hstep ih =>
    obtain ⟨a, ha, hresolvent⟩ := hstep
    exact (hresolvent.isRangeRestricted_eq (hground a ha)).trans ih

/-- What is concluded from a rule is ground exactly if the rule is range-restricted. -/
theorem Reduces.isGround_eq {a : Atom} (h : r.Reduces facts ⟨a, []⟩)
    (hground : ∀ a ∈ facts, a.isGround = true) : a.isGround = r.isRangeRestricted :=
  (isRangeRestricted_of_body_eq_nil rfl).symm.trans (h.isRangeRestricted_eq hground)

/-- Every rule can be used up. -/
theorem exists_conclusion (r : Rule) :
    ∃ facts : Set Atom, (∀ a ∈ facts, a.isGround = true) ∧ ∃ a, r.Reduces facts ⟨a, []⟩ := by
  have hbinds := collapse_bindsExactly r.body "a"
  let facts : Set Atom := {a | ∃ b ∈ r.body, b.subst (collapse r.body "a") = a}
  have hground : ∀ a ∈ facts, a.isGround = true := by
    rintro a ⟨b, hb, rfl⟩
    exact Atom.isGround_subst_iff.mpr fun x hx => (hbinds x).mpr ⟨b, hb, hx⟩
  exact ⟨facts, hground, _,
    (reduces_conclusion_iff hground).mpr ⟨_, hbinds, fun b hb => ⟨b, hb, rfl⟩, rfl⟩⟩

/-- A rule is range-restricted exactly if some ground atom is concluded from it and some ground atoms.
-/
theorem isRangeRestricted_iff_concludes :
    r.isRangeRestricted = true ↔ ∃ facts : Set Atom, (∀ a ∈ facts, a.isGround = true) ∧
      ∃ a, a.isGround = true ∧ r.Reduces facts ⟨a, []⟩ := by
  constructor
  · intro h
    obtain ⟨facts, hground, a, hreduces⟩ := exists_conclusion r
    exact ⟨facts, hground, a, (hreduces.isGround_eq hground).trans h, hreduces⟩
  · rintro ⟨facts, hground, a, ha, hreduces⟩
    exact (hreduces.isGround_eq hground).symm.trans ha

end Rule

end Datalog
