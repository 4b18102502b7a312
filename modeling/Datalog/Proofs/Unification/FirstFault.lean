import Datalog.Proofs.Unification
import Mathlib.Order.Bounds.Basic

/-!
# Why unification fails

Checked unification looks at the predicates, then at the numbers of arguments, then for variables in
the atom, and only then at the arguments. It reports the first position up to which no substitution
makes the arguments equal, and if the pattern has a variable there, the constant that the variable got
where it first occurs. Wherever all of this is in order it finds what unification finds unchecked.

## Main definitions

* `Mismatch` — what is reported at one position, told by the bindings made so far
* `Atom.UnifiesUpTo`, `Atom.IsFirstFault` — the same position, told by what substitutions can do
* `Atom.Fault` — what is reported there, told by the arguments alone
* `Atom.Verdict` — what checked unification answers

## Main results

* `toOption_unifyTerms` — checked and unchecked unification find the same
* `exists_mismatch` — if there is nothing to find, some position is to blame
* `Atom.unify_eq_iff_verdict` — the answer is the verdict, and there is no other
-/

namespace Datalog

open Substitution

/-! ### Checked and unchecked -/

section Positions

variable {i : Nat} {σ : Substitution} {ts values : List Term} {e : UnificationError}

/-- Telling where unification fails does not change whether it fails, nor what it finds. -/
theorem toOption_unifyTerms (i : Nat) (σ : Substitution) (ts values : List Term) :
    (unifyTerms i σ ts values).toOption = unifyTerms? σ ts values := by
  fun_induction unifyTerms i σ ts values <;> grind [unifyTerms?, Except.toOption]

/-- The arguments at the front are compared first. -/
theorem unifyTerms?_append (σ : Substitution) (hlength : ts.length = values.length)
    (ts' values' : List Term) :
    unifyTerms? σ (ts ++ ts') (values ++ values') =
      (unifyTerms? σ ts values).bind fun ρ => unifyTerms? ρ ts' values' := by
  induction ts generalizing σ values with
  | nil =>
    obtain rfl : values = [] := List.length_eq_zero_iff.mp hlength.symm
    simp [unifyTerms?]
  | cons t ts ih =>
    obtain ⟨value, values, rfl⟩ := List.exists_cons_of_length_eq_add_one hlength.symm
    rw [List.cons_append, List.cons_append, unifyTerms?_cons, unifyTerms?_cons, Option.bind_assoc]
    exact Option.bind_congr fun ρ _ => ih ρ (by simpa using hlength)

/-- What is reported at position `i` if a pattern does not match the constant `c` there, with the
bindings that were made before. -/
inductive Mismatch (i : Nat) (σ : Substitution) (c : String) : Term → UnificationError → Prop where
  /-- The pattern is another constant. -/
  | const {d : String} (h : d ≠ c) : Mismatch i σ c (.const d) (.constantMismatch i d c)
  /-- The pattern is a variable that is bound to another constant. -/
  | var {x d : String} (hx : σ.lookup? x = some d) (h : d ≠ c) :
    Mismatch i σ c (.var x) (.conflictingBinding x d c)

theorem Mismatch.matchTerm?_eq_none {c : String} {t : Term} (h : Mismatch i σ c t e) :
    matchTerm? σ t c = none := by
  cases h with
  | const h => simp [matchTerm?, h]
  | var hx h => simp [matchTerm?, hx, h]

/-- At each position the checked loop goes on with the bindings of the unchecked one, or reports what does
not match. -/
theorem unifyTerms_cons (i : Nat) (σ : Substitution) (t value : Term) (ts values : List Term) :
    (∃ ρ, matchTerm? σ t value.text = some ρ ∧
      unifyTerms i σ (t :: ts) (value :: values) = unifyTerms (i + 1) ρ ts values) ∨
    ∃ e, Mismatch i σ value.text t e ∧ unifyTerms i σ (t :: ts) (value :: values) = .error e := by
  cases t with
  | const d =>
    rw [unifyTerms, matchTerm?]
    by_cases hd : d = value.text
    · rw [if_pos hd, if_pos hd]
      exact Or.inl ⟨σ, rfl, rfl⟩
    · rw [if_neg hd, if_neg hd]
      exact Or.inr ⟨_, .const hd, rfl⟩
  | var x =>
    rw [unifyTerms, matchTerm?]
    cases hx : σ.lookup? x with
    | none => exact Or.inl ⟨_, rfl, rfl⟩
    | some d =>
      by_cases hd : d = value.text
      · simp only [if_pos hd]
        exact Or.inl ⟨σ, rfl, rfl⟩
      · simp only [if_neg hd]
        exact Or.inr ⟨_, .var hx hd, rfl⟩

/-- A failure has a position that does not match under the bindings of those before it. -/
theorem exists_mismatch (h : unifyTerms i σ ts values = .error e) :
    ∃ k t value ρ, ts[k]? = some t ∧ values[k]? = some value ∧
      unifyTerms? σ (ts.take k) (values.take k) = some ρ ∧ Mismatch (i + k) ρ value.text t e := by
  induction ts generalizing i σ values with
  | nil => cases values <;> simp [unifyTerms] at h
  | cons t ts ih =>
    cases values with
    | nil => cases t <;> simp [unifyTerms] at h
    | cons value values =>
      rcases unifyTerms_cons i σ t value ts values with ⟨ρ, hρ, hrest⟩ | ⟨e', hmismatch, herror⟩
      -- The first position matches, so the fault is one of the others.
      · obtain ⟨k, t', value', ρ', ht, hvalue, hfront, hmismatch⟩ := ih (hrest.symm.trans h)
        refine ⟨k + 1, t', value', ρ', ht, hvalue, ?_, ?_⟩
        · rw [List.take_succ_cons, List.take_succ_cons, unifyTerms?_cons, hρ]
          exact hfront
        · rw [← Nat.add_assoc, Nat.add_right_comm]
          exact hmismatch
      · obtain rfl := Except.error.inj (herror.symm.trans h)
        exact ⟨0, t, value, σ, rfl, rfl, by simp [unifyTerms?], hmismatch⟩

end Positions

namespace Atom

/-! ### The first fault -/

/-- Some substitution makes the first `n` arguments of the pattern equal to those of the atom. -/
def UnifiesUpTo (pattern atom : Atom) (n : Nat) : Prop :=
  ∃ τ, (pattern.terms.take n).map (Term.subst τ) = atom.terms.take n

/-- Position `k` is the first up to which no substitution makes the arguments equal, with this position
counted in. -/
def IsFirstFault (pattern atom : Atom) (k : Nat) : Prop :=
  IsLeast {k | ¬ pattern.UnifiesUpTo atom (k + 1)} k

/-- What is reported if position `k` is at fault. A variable of the pattern has got the constant that
stands where the variable first occurs. -/
inductive Fault (pattern atom : Atom) (k : Nat) : UnificationError → Prop where
  /-- The pattern has another constant than the atom. -/
  | constant {expected found : String} (hpattern : pattern.terms[k]? = some (.const expected))
    (hatom : atom.terms[k]? = some (.const found)) :
    Fault pattern atom k (.constantMismatch k expected found)
  /-- The pattern has a variable that first occurs where the atom has another constant. -/
  | binding {x bound found : String} (hpattern : pattern.terms[k]? = some (.var x))
    (hfirst : atom.terms[pattern.terms.idxOf (.var x)]? = some (.const bound))
    (hatom : atom.terms[k]? = some (.const found)) :
    Fault pattern atom k (.conflictingBinding x bound found)

/-- What checked unification of a pattern with an atom answers. -/
inductive Verdict (pattern atom : Atom) : Except UnificationError Substitution → Prop where
  /-- The predicates differ. -/
  | predicate (h : pattern.predicate ≠ atom.predicate) :
    Verdict pattern atom (.error (.predicateMismatch pattern.predicate atom.predicate))
  /-- The predicates are the same, but the numbers of arguments differ. -/
  | arity (hpredicate : pattern.predicate = atom.predicate) (h : pattern.arity ≠ atom.arity) :
    Verdict pattern atom (.error (.arityMismatch pattern.arity atom.arity))
  /-- Only then it matters that the atom has a variable. -/
  | notGround (hsignature : pattern.signature = atom.signature) {x : String}
    (h : .var x ∈ atom.terms) : Verdict pattern atom (.error (.notGround atom))
  /-- Nothing is wrong with the atom, and the two unify. -/
  | unifies (hsignature : pattern.signature = atom.signature) (hground : atom.isGround = true)
    {σ : Substitution} (h : pattern.unify? atom = some σ) : Verdict pattern atom (.ok σ)
  /-- Nothing is wrong with the atom, but the arguments do not fit. -/
  | fault (hsignature : pattern.signature = atom.signature) (hground : atom.isGround = true)
    {k : Nat} {e : UnificationError} (hfirst : pattern.IsFirstFault atom k)
    (h : Fault pattern atom k e) : Verdict pattern atom (.error e)

variable {pattern atom : Atom} {k n : Nat} {e e' : UnificationError}

theorem UnifiesUpTo.of_le {m : Nat} (h : pattern.UnifiesUpTo atom n) (hle : m ≤ n) :
    pattern.UnifiesUpTo atom m := by
  obtain ⟨τ, hτ⟩ := h
  refine ⟨τ, ?_⟩
  have hfront := congrArg (List.take m) hτ
  rwa [← List.map_take, List.take_take, List.take_take, Nat.min_eq_left hle] at hfront

/-- The first fault is where fewer arguments unify and one more does not. -/
theorem isFirstFault_of (hbefore : pattern.UnifiesUpTo atom k)
    (hhere : ¬ pattern.UnifiesUpTo atom (k + 1)) : pattern.IsFirstFault atom k := by
  refine ⟨hhere, fun j hj => ?_⟩
  by_contra hlt
  exact hj (hbefore.of_le (Nat.not_le.mp hlt))

/-- Atoms that unify have no fault. -/
theorem not_isFirstFault_of_unify? {σ : Substitution} (hground : atom.isGround = true)
    (hsignature : pattern.signature = atom.signature) (h : pattern.unify? atom = some σ) :
    ¬ pattern.IsFirstFault atom k := by
  intro hfirst
  have hsubst := (unify?_sound hground hsignature h).1
  refine hfirst.1 ⟨σ, ?_⟩
  rw [List.map_take, ← terms_subst, hsubst]

/-- Only one thing can be reported of a position. -/
theorem Fault.unique (h : Fault pattern atom k e) (h' : Fault pattern atom k e') : e = e' := by
  cases h <;> cases h' <;> simp_all

/-- Bindings that were made at the first `k` positions make these equal, and bind each variable to what
stands where it first occurs. -/
theorem subst_of_unifyTerms?_take {ρ : Substitution} (hground : atom.isGround = true)
    (hsignature : pattern.signature = atom.signature)
    (h : unifyTerms? Substitution.empty (pattern.terms.take k) (atom.terms.take k) = some ρ) :
    (pattern.terms.take k).map (Term.subst ρ) = atom.terms.take k ∧
      ∀ x d, ρ.lookup? x = some d →
        atom.terms[pattern.terms.idxOf (.var x)]? = some (.const d) := by
  have hlength : pattern.terms.length = atom.terms.length := (Prod.mk.inj hsignature).2
  have hterms : atom.terms.take k = (atom.texts.take k).map .const := by
    rw [List.map_take, ← terms_eq_map_const hground]
  rw [hterms] at h
  obtain ⟨-, hsubst, hdomain⟩ := unifyTerms?_sound (by simp [texts, hlength]) h
  rw [← hterms] at hsubst
  refine ⟨hsubst, fun x d hx => ?_⟩
  -- What is bound occurs among the first `k` arguments, so it occurs first among these.
  have hmem : .var x ∈ pattern.terms.take k := by
    have hbound : x ∈ ρ.domain := mem_domain_iff.mpr ⟨d, hx⟩
    rw [hdomain, List.mem_eraseDups, List.mem_append, List.mem_filterMap] at hbound
    rcases hbound with hbound | ⟨t, ht, hname⟩
    · simp [domain, Substitution.empty] at hbound
    · cases t with
      | var y => exact Option.some.inj hname ▸ ht
      | const c => simp [Term.name?] at hname
  have hlt := (List.mem_take_iff_idxOf_lt (List.mem_of_mem_take hmem)).mp hmem
  have hthere := congrArg (·[pattern.terms.idxOf (.var x)]?) hsubst
  simp only [List.getElem?_map, List.getElem?_take_of_lt hlt] at hthere
  rw [← hthere, List.getElem?_idxOf (List.mem_of_mem_take hmem)]
  simp [Term.subst, hx]

/-- The position that the loop reports is the first fault, and the report tells what stands there. -/
theorem exists_fault (hground : atom.isGround = true)
    (hsignature : pattern.signature = atom.signature)
    (h : unifyTerms 0 Substitution.empty pattern.terms atom.terms = .error e) :
    ∃ k, pattern.IsFirstFault atom k ∧ Fault pattern atom k e := by
  obtain ⟨k, t, value, ρ, ht, hvalue, hfront, hmismatch⟩ := exists_mismatch h
  have hlength : pattern.terms.length = atom.terms.length := (Prod.mk.inj hsignature).2
  have hconst : atom.terms[k]? = some (.const value.text) := by
    have hmem := List.mem_of_getElem? hvalue
    rw [hvalue, ← Term.isVar_eq_false_iff.mp (isGround_iff.mp hground value hmem)]
  obtain ⟨hsubst, hbound⟩ := subst_of_unifyTerms?_take hground hsignature hfront
  refine ⟨k, isFirstFault_of ⟨ρ, hsubst⟩ ?_, ?_⟩
  · rintro ⟨τ, hτ⟩
    -- Unification would get past position `k` with whatever makes the arguments up to it equal.
    have hterms : atom.terms.take (k + 1) = (atom.texts.take (k + 1)).map .const := by
      rw [List.map_take, ← terms_eq_map_const hground]
    rw [hterms] at hτ
    obtain ⟨ρ', hρ'⟩ := exists_unifyTerms? (empty_within τ) hτ
    rw [← hterms, List.take_add_one, List.take_add_one, ht, hvalue,
      unifyTerms?_append _ (by simp [hlength]), hfront, Option.bind_some, Option.toList_some,
      Option.toList_some, unifyTerms?_cons, hmismatch.matchTerm?_eq_none] at hρ'
    simp at hρ'
  · rw [Nat.zero_add] at hmismatch
    cases hmismatch with
    | const => exact .constant ht hconst
    | var hx => exact .binding ht (hbound _ _ hx) hconst

/-! ### The answer -/

theorem unify_eq_unifyTerms (hground : atom.isGround = true)
    (hsignature : pattern.signature = atom.signature) :
    pattern.unify atom = unifyTerms 0 Substitution.empty pattern.terms atom.terms := by
  obtain ⟨hpredicate, harity⟩ := Prod.mk.inj hsignature
  simp [unify, hpredicate, harity, hground]

theorem toOption_unify (hground : atom.isGround = true)
    (hsignature : pattern.signature = atom.signature) :
    (pattern.unify atom).toOption = pattern.unify? atom := by
  rw [unify_eq_unifyTerms hground hsignature, toOption_unifyTerms, unify?]

/-- Checked unification gives the verdict. -/
theorem verdict_unify (pattern atom : Atom) : pattern.Verdict atom (pattern.unify atom) := by
  by_cases hpredicate : pattern.predicate = atom.predicate
  swap
  · rw [unify, if_pos hpredicate]
    exact .predicate hpredicate
  by_cases harity : pattern.arity = atom.arity
  swap
  · rw [unify, if_neg (by simpa using hpredicate), if_pos harity]
    exact .arity hpredicate harity
  have hsignature : pattern.signature = atom.signature := by simp [signature, hpredicate, harity]
  by_cases hground : atom.isGround = true
  · cases h : pattern.unify atom with
    | ok σ =>
      refine .unifies hsignature hground ?_
      rw [← toOption_unify hground hsignature, h]
      rfl
    | error e =>
      rw [unify_eq_unifyTerms hground hsignature] at h
      obtain ⟨k, hfirst, hfault⟩ := exists_fault hground hsignature h
      exact .fault hsignature hground hfirst hfault
  · have hunify : pattern.unify atom = .error (.notGround atom) := by
      simp [unify, hpredicate, harity, hground]
    rw [isGround_iff_vars] at hground
    push Not at hground
    obtain ⟨x, hx⟩ := hground
    rw [hunify]
    exact .notGround hsignature (mem_vars.mp hx)

/-- There is no other verdict than the answer. -/
theorem Verdict.unify_eq {r : Except UnificationError Substitution} (h : pattern.Verdict atom r) :
    pattern.unify atom = r := by
  cases h with
  | predicate h => simp [unify, h]
  | arity hpredicate h => simp [unify, hpredicate, h]
  | notGround hsignature h =>
    obtain ⟨hpredicate, harity⟩ := Prod.mk.inj hsignature
    have hground : atom.isGround ≠ true := fun hground => isGround_iff_vars.mp hground _ (mem_vars.mpr h)
    simp [unify, hpredicate, harity, hground]
  | unifies hsignature hground h =>
    rw [← toOption_unify hground hsignature] at h
    cases hunify : pattern.unify atom with
    | ok τ => simpa [hunify, Except.toOption] using h
    | error e => simp [hunify, Except.toOption] at h
  | fault hsignature hground hfirst hfault =>
    cases hunify : pattern.unify atom with
    | ok σ =>
      have hfound := toOption_unify hground hsignature
      rw [hunify] at hfound
      exact absurd hfirst (not_isFirstFault_of_unify? hground hsignature hfound.symm)
    | error e =>
      rw [unify_eq_unifyTerms hground hsignature] at hunify
      obtain ⟨k, hfirst', hfault'⟩ := exists_fault hground hsignature hunify
      -- There is one first fault, and one report of it.
      obtain rfl := hfirst'.unique hfirst
      rw [hfault'.unique hfault]

/-- The answer of checked unification is the verdict on the two atoms: a different predicate is found
first, then a different number of arguments, then a variable in the atom. If there is none of these, the
answer is what unification finds unchecked, and if that is nothing, it is the fault at the first
position up to which no substitution makes the arguments equal. -/
theorem unify_eq_iff_verdict (pattern atom : Atom) (r : Except UnificationError Substitution) :
    pattern.unify atom = r ↔ pattern.Verdict atom r := by
  constructor
  · rintro rfl
    exact verdict_unify pattern atom
  · exact Verdict.unify_eq

/-- The variable has got a constant before the position at fault, and another constant stands between. -/
example :
    let pattern : Atom := ⟨"p", [.var "?x", .const "a", .var "?x", .const "b"]⟩
    let atom : Atom := ⟨"p", [.const "c", .const "a", .const "d", .const "e"]⟩
    pattern.unify atom = .error (.conflictingBinding "?x" "c" "d") := by
  decide

end Atom

end Datalog
