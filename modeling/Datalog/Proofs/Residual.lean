import Datalog.Proofs.Resolution
import Mathlib.Data.Finset.Range
import Mathlib.Logic.Relation

/-!
# Residual rules

A rule is resolved one body atom at a time, against one fact at a time. What is left after some steps
does not depend on their order: it is determined by the positions that have been resolved away and by
one substitution, which binds the variables of the atoms at these positions and makes each of them a
fact. Conversely every such choice is reached.

## Main definitions

* `Rule.Reduces` — some steps of resolution against facts lead from one rule to another
* `Rule.residual` — a rule without the atoms at some positions, under a substitution
* `Rule.Matches` — a substitution makes the atoms at some positions facts
* `Rule.IsResidual` — what can be left of a rule while its body is not used up

## Main results

* `Rule.reduces_iff` — the rules that are reached are the residuals of matched positions
* `Rule.isResidual_iff` — residuals are what is reached with a body
* `Rule.reduces_conclusion_iff` — what is reached without a body
-/

namespace Datalog

open Substitution

/-- If no key occurs twice, leaving out a position is leaving out its key. -/
theorem eraseIdx_eq_filter_ne {β κ : Type} [DecidableEq κ] (key : β → κ) {l : List β}
    (hkeys : (l.map key).Nodup) {i : Nat} {e : β} (hi : l[i]? = some e) :
    l.eraseIdx i = l.filter fun e' => key e' ≠ key e := by
  induction l generalizing i with
  | nil => simp at hi
  | cons first rest ih =>
    rw [List.map_cons, List.nodup_cons] at hkeys
    cases i with
    | zero =>
      obtain rfl : first = e := by simpa using hi
      have keep : (rest.filter fun e' => key e' ≠ key first) = rest := by
        refine List.filter_eq_self.mpr fun e' he' => decide_eq_true fun same => ?_
        exact hkeys.1 (same ▸ List.mem_map_of_mem he')
      rw [List.eraseIdx_cons_zero, List.filter_cons_of_neg (by simp), keep]
    | succ i =>
      rw [List.getElem?_cons_succ] at hi
      have hne : key first ≠ key e := fun same =>
        hkeys.1 (same ▸ List.mem_map_of_mem (List.mem_of_getElem? hi))
      rw [List.eraseIdx_cons_succ, List.filter_cons_of_pos (by simpa using hne), ih hkeys.2 hi]

namespace Rule

variable {r s : Rule} {facts : Set Atom} {S : Finset Nat} {σ τ : Substitution}

/-- One body atom of the rule is matched by one of the facts. -/
def StepsTo (facts : Set Atom) (r s : Rule) : Prop := ∃ a ∈ facts, r.Resolvent a s

/-- Body atoms of the rule are matched by facts, one after the other. -/
def Reduces (facts : Set Atom) : Rule → Rule → Prop := Relation.ReflTransGen (StepsTo facts)

/-! ### Positions -/

/-- The atoms of the body outside the positions `S`, with their positions. -/
def unresolved (r : Rule) (S : Finset Nat) : List (Atom × Nat) :=
  r.body.zipIdx.filter fun entry => entry.2 ∉ S

/-- The atoms of the body at the positions `S`, in their order. -/
def selected (r : Rule) (S : Finset Nat) : List Atom :=
  (r.body.zipIdx.filter fun entry => entry.2 ∈ S).map Prod.fst

/-- The rule without the atoms at the positions `S`, under `σ`. -/
def residual (r : Rule) (S : Finset Nat) (σ : Substitution) : Rule where
  head := r.head.subst σ
  body := (r.unresolved S).map fun entry => entry.1.subst σ

theorem mem_unresolved {entry : Atom × Nat} :
    entry ∈ r.unresolved S ↔ r.body[entry.2]? = some entry.1 ∧ entry.2 ∉ S := by
  rw [unresolved, List.mem_filter, List.mem_zipIdx_iff_getElem?, decide_eq_true_eq]

theorem mem_selected {a : Atom} : a ∈ r.selected S ↔ ∃ i ∈ S, r.body[i]? = some a := by
  simp only [selected, List.mem_map, List.mem_filter, decide_eq_true_eq,
    List.mem_zipIdx_iff_getElem?]
  constructor
  · rintro ⟨⟨b, i⟩, ⟨hb, hi⟩, rfl⟩
    exact ⟨i, hi, hb⟩
  · exact fun ⟨i, hi, ha⟩ => ⟨(a, i), ⟨ha, hi⟩, rfl⟩

theorem mem_selected_insert {i : Nat} {a b : Atom} (hb : r.body[i]? = some b) :
    a ∈ r.selected (insert i S) ↔ a = b ∨ a ∈ r.selected S := by
  simp only [mem_selected, Finset.mem_insert, or_and_right, exists_or, exists_eq_left, hb,
    Option.some.injEq, eq_comm (a := b)]

theorem unresolved_insert {i j : Nat} {b : Atom} (h : (r.unresolved S)[i]? = some (b, j)) :
    (r.unresolved S).eraseIdx i = r.unresolved (insert j S) := by
  -- The positions of the atoms are distinct, so they tell which atom to leave out.
  have hkeys : ((r.unresolved S).map Prod.snd).Nodup := by
    refine List.Nodup.sublist (List.filter_sublist.map _) ?_
    rw [List.zipIdx_map_snd]
    exact List.nodup_range'
  rw [eraseIdx_eq_filter_ne Prod.snd hkeys h, unresolved, unresolved, List.filter_filter]
  refine List.filter_congr fun entry _ => ?_
  simp [Finset.mem_insert]

@[simp] theorem residual_empty (r : Rule) : r.residual ∅ Substitution.empty = r := by
  have hbody : (r.unresolved ∅).map (fun entry => entry.1.subst Substitution.empty) = r.body := by
    simp [unresolved]
  rw [residual, hbody, Atom.subst_empty]

theorem residual_congr (h : ∀ x, σ.lookup? x = τ.lookup? x) : r.residual S σ = r.residual S τ := by
  rw [residual, residual, Atom.subst_congr h]

/-- Resolving an atom of a residual away gives the residual with one position more. -/
theorem resolve_residual {i j : Nat} {b : Atom} (h : (r.unresolved S)[i]? = some (b, j)) :
    (r.residual S σ).resolve i τ = r.residual (insert j S) (σ.orElse τ) := by
  simp only [resolve, residual, ← unresolved_insert h, Atom.subst_subst, List.eraseIdx_map,
    List.map_map, Function.comp_def]

/-! ### Residuals are what resolution reaches -/

/-- The substitution makes the atoms at the positions `S` facts, and binds their variables and no
others. -/
structure Matches (facts : Set Atom) (r : Rule) (S : Finset Nat) (σ : Substitution) : Prop where
  /-- The bound variables are those of the atoms. -/
  binds : σ.BindsExactly (r.selected S)
  /-- Every atom becomes a fact. -/
  mem : ∀ a ∈ r.selected S, a.subst σ ∈ facts

theorem matches_empty (facts : Set Atom) (r : Rule) : r.Matches facts ∅ Substitution.empty where
  binds x := by simp [mem_selected, mem_domain_iff]
  mem a ha := by simp [mem_selected] at ha

/-- Matching one more atom of a residual matches one more position of the rule. -/
theorem Matches.insert {j : Nat} {b a : Atom} (h : r.Matches facts S σ) (hb : r.body[j]? = some b)
    (hsubst : (b.subst σ).subst τ = a) (hdomain : τ.domain = (b.subst σ).vars) (ha : a ∈ facts) :
    r.Matches facts (insert j S) (σ.orElse τ) where
  binds x := by
    simp only [mem_domain_orElse, h.binds x, hdomain, Atom.mem_vars_subst, mem_selected_insert hb,
      or_and_right, exists_or, exists_eq_left]
    -- A variable of `b` that `τ` leaves unbound is bound by `σ` already.
    generalize (∃ c ∈ r.selected S, x ∈ c.vars) = bound
    tauto
  mem c hc := by
    rcases (mem_selected_insert hb).mp hc with rfl | hc
    · rw [← Atom.subst_subst, hsubst]
      exact ha
    · rw [← Atom.subst_eq_of_within (within_orElse σ τ) fun x hx => (h.binds x).mpr ⟨c, hc, hx⟩]
      exact h.mem c hc

/-- Every rule that is reached is a residual of matched positions. -/
theorem exists_matches_of_reduces (hground : ∀ a ∈ facts, a.isGround = true)
    (h : Reduces facts r s) :
    ∃ S ⊆ Finset.range r.body.length, ∃ σ, r.Matches facts S σ ∧ s = r.residual S σ := by
  -- Each step resolves away one more position of the rule that the steps started from.
  induction h with
  | refl => exact ⟨∅, Finset.empty_subset _, Substitution.empty, matches_empty facts r, by simp⟩
  | tail _ hstep ih =>
    obtain ⟨S, hS, σ, hmatches, rfl⟩ := ih
    obtain ⟨a, ha, hresolvent⟩ := hstep
    obtain ⟨i, p, τ, hp, hsubst, hdomain, rfl⟩ := (resolvent_iff (hground a ha)).mp hresolvent
    obtain ⟨⟨b, j⟩, hentry, rfl⟩ : ∃ entry, (r.unresolved S)[i]? = some entry ∧
        entry.1.subst σ = p := by
      simpa [residual, List.getElem?_map] using hp
    have hb : r.body[j]? = some b := (mem_unresolved.mp (List.mem_of_getElem? hentry)).1
    have hj : j ∈ Finset.range r.body.length :=
      Finset.mem_range.mpr (List.getElem?_eq_some_iff.mp hb).1
    exact ⟨insert j S, Finset.insert_subset hj hS, σ.orElse τ,
      hmatches.insert hb hsubst hdomain ha, resolve_residual hentry⟩

/-- Positions that some substitution makes facts can be resolved away one after the other, and the
bindings that this makes are bindings of the substitution. -/
theorem exists_reduces_of_subst (hground : ∀ a ∈ facts, a.isGround = true)
    (hS : S ⊆ Finset.range r.body.length) (hfacts : ∀ a ∈ r.selected S, a.subst σ ∈ facts) :
    ∃ ρ : Substitution, ρ.Within σ ∧ r.Matches facts S ρ ∧ Reduces facts r (r.residual S ρ) := by
  -- Staying within `σ` is what keeps the next position matchable.
  induction S using Finset.induction_on with
  | empty =>
    refine ⟨Substitution.empty, empty_within σ, matches_empty facts r, ?_⟩
    rw [residual_empty]
    exact Relation.ReflTransGen.refl
  | insert j S hj ih =>
    obtain ⟨hjbody, hS⟩ := Finset.insert_subset_iff.mp hS
    obtain ⟨b, hb⟩ : ∃ b, r.body[j]? = some b :=
      ⟨_, List.getElem?_eq_getElem (Finset.mem_range.mp hjbody)⟩
    obtain ⟨ρ, hwithin, hmatches, hreduces⟩ :=
      ih hS fun a ha => hfacts a ((mem_selected_insert hb).mpr (Or.inr ha))
    have ha : b.subst σ ∈ facts := hfacts b ((mem_selected_insert hb).mpr (Or.inl rfl))
    -- What is left of `b` still becomes its fact under `σ`, so unification succeeds.
    have hrest := Atom.subst_subst_of_within hwithin b
    obtain ⟨τ, hτ⟩ := Atom.exists_unify? (hground _ ha) hrest
    obtain ⟨hsubst, hdomain⟩ := Atom.unify?_sound (hground _ ha) (by simp) hτ
    -- The new bindings are forced by the fact, and so they agree with `σ`.
    have hτwithin : τ.Within σ :=
      within_of_subst_eq (hdomain ▸ List.Subset.refl _) (hsubst.trans hrest.symm)
    have hunresolved : (b, j) ∈ r.unresolved S := mem_unresolved.mpr ⟨hb, hj⟩
    obtain ⟨i, hi⟩ := List.getElem?_of_mem hunresolved
    refine ⟨ρ.orElse τ, orElse_within hwithin hτwithin, hmatches.insert hb hsubst hdomain ha, ?_⟩
    refine hreduces.tail ⟨b.subst σ, ha, ?_⟩
    rw [resolvent_iff (hground _ ha), ← resolve_residual hi]
    refine ⟨i, b.subst ρ, τ, ?_, hsubst, hdomain, rfl⟩
    simp [residual, List.getElem?_map, hi]

/-- The rules that are reached are the residuals of matched positions. -/
theorem reduces_iff (hground : ∀ a ∈ facts, a.isGround = true) :
    Reduces facts r s ↔
      ∃ S ⊆ Finset.range r.body.length, ∃ σ, r.Matches facts S σ ∧ s = r.residual S σ := by
  refine ⟨exists_matches_of_reduces hground, ?_⟩
  rintro ⟨S, hS, σ, hmatches, rfl⟩
  obtain ⟨ρ, hwithin, hρ, hreduces⟩ := exists_reduces_of_subst hground hS hmatches.mem
  -- Both bind the variables of the matched atoms, and one is within the other.
  have same : r.residual S σ = r.residual S ρ :=
    residual_congr <| hmatches.binds.lookup?_eq hρ.binds fun a ha =>
      (Atom.subst_eq_of_within hwithin fun x hx => (hρ.binds x).mpr ⟨a, ha, hx⟩).symm
  rw [same]
  exact hreduces

/-! ### Residuals with and without a body -/

/-- What can be left of a rule when some of its body atoms, but not all, have been matched. -/
def IsResidual (facts : Set Atom) (r s : Rule) : Prop :=
  ∃ S ⊂ Finset.range r.body.length, ∃ σ, r.Matches facts S σ ∧ s = r.residual S σ

theorem body_residual_eq_nil_iff (hS : S ⊆ Finset.range r.body.length) :
    (r.residual S σ).body = [] ↔ S = Finset.range r.body.length := by
  rw [residual, List.map_eq_nil_iff, List.eq_nil_iff_forall_not_mem]
  simp only [mem_unresolved, not_and, not_not]
  constructor
  · intro h
    refine hS.antisymm fun i hi => ?_
    exact h (r.body.get ⟨i, Finset.mem_range.mp hi⟩, i)
      (List.getElem?_eq_getElem (Finset.mem_range.mp hi))
  · rintro rfl entry hentry
    exact Finset.mem_range.mpr (List.getElem?_eq_some_iff.mp hentry).1

theorem isResidual_iff (hground : ∀ a ∈ facts, a.isGround = true) :
    IsResidual facts r s ↔ Reduces facts r s ∧ s.body ≠ [] := by
  rw [reduces_iff hground, IsResidual]
  constructor
  · rintro ⟨S, hS, σ, hmatches, rfl⟩
    exact ⟨⟨S, hS.subset, σ, hmatches, rfl⟩, mt (body_residual_eq_nil_iff hS.subset).mp hS.ne⟩
  · rintro ⟨⟨S, hS, σ, hmatches, rfl⟩, hbody⟩
    exact ⟨S, hS.ssubset_of_ne (mt (body_residual_eq_nil_iff hS).mpr hbody), σ, hmatches, rfl⟩

theorem mem_selected_range {a : Atom} :
    a ∈ r.selected (Finset.range r.body.length) ↔ a ∈ r.body := by
  rw [mem_selected, List.mem_iff_getElem?]
  constructor
  · exact fun ⟨i, _, ha⟩ => ⟨i, ha⟩
  · exact fun ⟨i, ha⟩ => ⟨i, Finset.mem_range.mpr (List.getElem?_eq_some_iff.mp ha).1, ha⟩

theorem matches_range_iff :
    r.Matches facts (Finset.range r.body.length) σ ↔
      σ.BindsExactly r.body ∧ ∀ a ∈ r.body, a.subst σ ∈ facts := by
  have hbinds : σ.BindsExactly (r.selected (Finset.range r.body.length)) ↔
      σ.BindsExactly r.body := by
    simp only [BindsExactly, mem_selected_range]
  constructor
  · exact fun h => ⟨hbinds.mp h.binds, fun a ha => h.mem a (mem_selected_range.mpr ha)⟩
  · exact fun h => ⟨hbinds.mpr h.1, fun a ha => h.2 a (mem_selected_range.mp ha)⟩

/-- A rule is used up exactly by a substitution that makes its whole body facts. -/
theorem reduces_conclusion_iff (hground : ∀ a ∈ facts, a.isGround = true) {conclusion : Atom} :
    Reduces facts r ⟨conclusion, []⟩ ↔ ∃ σ : Substitution, σ.BindsExactly r.body ∧
      (∀ a ∈ r.body, a.subst σ ∈ facts) ∧ conclusion = r.head.subst σ := by
  rw [reduces_iff hground]
  constructor
  · rintro ⟨S, hS, σ, hmatches, h⟩
    have hbody : (r.residual S σ).body = [] := h ▸ rfl
    obtain rfl := (body_residual_eq_nil_iff hS).mp hbody
    obtain ⟨hbinds, hmem⟩ := matches_range_iff.mp hmatches
    exact ⟨σ, hbinds, hmem, congrArg Rule.head h⟩
  · rintro ⟨σ, hbinds, hmem, rfl⟩
    refine ⟨_, Finset.Subset.refl _, σ, matches_range_iff.mpr ⟨hbinds, hmem⟩, ?_⟩
    have hbody : (r.residual (Finset.range r.body.length) σ).body = [] :=
      (body_residual_eq_nil_iff (Finset.Subset.refl _)).mpr rfl
    rw [← hbody]
    rfl

end Rule

end Datalog
