import Datalog.Proofs.Resolution

/-!
# The order of resolution does not matter

Atoms of a body are resolved away against facts that were chosen for them, one atom after the other.
What is left of an atom when its turn comes depends on the order: other atoms have bound variables of
it, and it has moved up in the body. So an order may fail at its first step where another one fails at
its last. Still either all orders fail, or all of them arrive at the same rule.

For two steps this is because both orders look for the same thing: a substitution for the variables of
both atoms that makes each of them its fact. For any number of steps it follows by exchanging
neighbours.

## Main definitions

* `Rule.moveUp` — where an atom stands after another one was resolved away
* `Rule.resolveEach?` — one step after the other
* `Rule.Joins` — a substitution matches two atoms at once

## Main results

* `Rule.resolvent?_bind_eq_some_iff` — two steps succeed exactly if the two atoms can be joined
* `Rule.resolvent?_comm` — two steps commute
* `Rule.resolution_order_irrelevant` — any orders arrive at the same rule, or fail
-/

namespace Datalog.Rule

open Substitution

/-- Where the atom at position `j` of a body stands after the one at position `i` has been resolved
away: what stood behind it moves up. -/
def moveUp (i j : Nat) : Nat := if i < j then j - 1 else j

/-- Resolves atoms of the body away, one after the other, each against the atom that was chosen for it.
A choice names its atom by the position in the body that the first step starts from, and `place` tells
where the atom at a position stands by now. There is no result if a step fails. -/
def resolveEach? (place : Nat → Nat) (r : Rule) : List (Nat × Atom) → Option Rule
  | [] => some r
  | (i, a) :: rest => (RuleIndex.resolvent? a (place i, r)).bind fun s =>
    s.resolveEach? (moveUp (place i) ∘ place) rest

/-! ### Positions -/

/-- An atom moves to the same place, whichever of two others is resolved away first. -/
theorem moveUp_moveUp (i j k : Nat) :
    moveUp (moveUp i j) (moveUp i k) = moveUp (moveUp j i) (moveUp j k) := by
  simp only [moveUp]
  split_ifs <;> omega

/-- Two atoms do not move to one place. -/
theorem eq_of_moveUp_eq {i j k : Nat} (hj : j ≠ i) (hk : k ≠ i) (h : moveUp i j = moveUp i k) :
    j = k := by
  simp only [moveUp] at h
  split_ifs at h <;> omega

theorem getElem?_eraseIdx_moveUp {β : Type} (l : List β) {i j : Nat} (hij : j ≠ i) :
    (l.eraseIdx i)[moveUp i j]? = l[j]? := by
  rw [List.getElem?_eraseIdx, moveUp]
  split_ifs
  · omega
  · rw [Nat.sub_add_cancel (by omega)]
  · rfl
  · omega

theorem eraseIdx_eraseIdx_moveUp {β : Type} (l : List β) (i j : Nat) :
    (l.eraseIdx i).eraseIdx (moveUp i j) = (l.eraseIdx j).eraseIdx (moveUp j i) := by
  ext1 k
  simp only [List.getElem?_eraseIdx, moveUp]
  split_ifs <;> first | rfl | omega

/-! ### One step -/

variable {r s t : Rule} {i j : Nat} {a b p q : Atom} {σ τ : Substitution}

theorem resolvent?_eq_some_iff (hp : r.body[i]? = some p) (ha : a.isGround = true)
    (hsignature : p.signature = a.signature) :
    RuleIndex.resolvent? a (i, r) = some s ↔
      ∃ σ, p.subst σ = a ∧ σ.domain = p.vars ∧ s = r.resolve i σ := by
  simp only [RuleIndex.resolvent?, hp, Option.map_eq_some_iff,
    Atom.unify?_eq_some_iff ha hsignature, and_assoc, eq_comm (a := s)]

theorem exists_resolve_of_resolvent? (h : RuleIndex.resolvent? a (i, r) = some s) :
    ∃ σ, s = r.resolve i σ := by
  rw [RuleIndex.resolvent?] at h
  split at h
  · obtain ⟨σ, -, rfl⟩ := Option.map_eq_some_iff.mp h
    exact ⟨σ, rfl⟩
  · cases h

/-- What is left of another atom stands where it has moved up to. -/
theorem getElem?_body_resolve (hq : r.body[j]? = some q) (hij : j ≠ i) :
    (r.resolve i σ).body[moveUp i j]? = some (q.subst σ) := by
  rw [body_resolve, List.getElem?_map, getElem?_eraseIdx_moveUp _ hij, hq, Option.map_some]

/-- The atom at position `i` of the body has the predicate and the arity of the ground atom `a`. -/
def Meets (r : Rule) (i : Nat) (a : Atom) : Prop :=
  a.isGround = true ∧ ∃ p, r.body[i]? = some p ∧ p.signature = a.signature

theorem Meets.resolve (h : r.Meets j b) (hij : j ≠ i) (σ : Substitution) :
    (r.resolve i σ).Meets (moveUp i j) b := by
  obtain ⟨hb, q, hq, hqb⟩ := h
  exact ⟨hb, q.subst σ, getElem?_body_resolve hq hij, by rw [Atom.signature_subst, hqb]⟩

/-! ### Two steps -/

/-- The rule without two atoms of its body, under a substitution. -/
def withoutTwo (r : Rule) (i j : Nat) (σ : Substitution) : Rule where
  head := r.head.subst σ
  body := ((r.body.eraseIdx i).eraseIdx (moveUp i j)).map (Atom.subst σ)

theorem resolve_resolve (r : Rule) (i j : Nat) (σ τ : Substitution) :
    (r.resolve i σ).resolve (moveUp i j) τ = r.withoutTwo i j (σ.orElse τ) := by
  simp only [resolve, withoutTwo, Atom.subst_subst, List.eraseIdx_map, List.map_map,
    Function.comp_def]

theorem withoutTwo_comm (r : Rule) (i j : Nat) (σ : Substitution) :
    r.withoutTwo i j σ = r.withoutTwo j i σ := by
  rw [withoutTwo, withoutTwo, eraseIdx_eraseIdx_moveUp]

theorem withoutTwo_congr (r : Rule) (h : ∀ x, σ.lookup? x = τ.lookup? x) :
    r.withoutTwo i j σ = r.withoutTwo i j τ := by
  rw [withoutTwo, withoutTwo, Atom.subst_congr h]

/-- The substitution makes `p` the atom `a` and `q` the atom `b`, and it binds the variables of `p` and
`q` and no others. -/
structure Joins (σ : Substitution) (p a q b : Atom) : Prop where
  /-- The bound variables are those of the two atoms. -/
  binds : σ.BindsExactly [p, q]
  /-- The first atom becomes `a`. -/
  first : p.subst σ = a
  /-- The second atom becomes `b`. -/
  second : q.subst σ = b

theorem Joins.symm (h : Joins σ p a q b) : Joins σ q b p a where
  binds x := by simpa [or_comm] using h.binds x
  first := h.second
  second := h.first

/-- There is one way to join two atoms, up to the order of the bindings. -/
theorem Joins.lookup?_eq (h : Joins σ p a q b) (h' : Joins τ p a q b) (x : String) :
    σ.lookup? x = τ.lookup? x := by
  refine h.binds.lookup?_eq h'.binds (fun c hc => ?_) x
  rcases List.mem_pair.mp hc with rfl | rfl
  · rw [h.first, h'.first]
  · rw [h.second, h'.second]

/-- Matching one atom, and then what is left of the other, joins the two. -/
theorem joins_orElse (hσ : p.subst σ = a) (hσdomain : σ.domain = p.vars)
    (hτ : (q.subst σ).subst τ = b) (hτdomain : τ.domain = (q.subst σ).vars) :
    Joins (σ.orElse τ) p a q b where
  binds x := by
    simp only [mem_domain_orElse, hσdomain, hτdomain, Atom.mem_vars_subst, List.mem_cons,
      List.not_mem_nil, or_false, exists_eq_or_imp, exists_eq_left]
    tauto
  first := by
    rw [← hσ]
    exact (Atom.subst_eq_of_within (within_orElse σ τ) fun x hx => hσdomain ▸ hx).symm
  second := by rw [← Atom.subst_subst, hτ]

/-- Two atoms can be resolved away, the one after the other, exactly if they can be joined. -/
theorem resolvent?_bind_eq_some_iff (hij : j ≠ i) (hp : r.body[i]? = some p)
    (hq : r.body[j]? = some q) (ha : a.isGround = true) (hb : b.isGround = true)
    (hpa : p.signature = a.signature) (hqb : q.signature = b.signature) :
    ((RuleIndex.resolvent? a (i, r)).bind fun s => RuleIndex.resolvent? b (moveUp i j, s)) = some t ↔
      ∃ ρ, Joins ρ p a q b ∧ t = r.withoutTwo i j ρ := by
  have hrest : ∀ σ, (q.subst σ).signature = b.signature := fun σ => by
    rw [Atom.signature_subst, hqb]
  have hsecond : ∀ σ, RuleIndex.resolvent? b (moveUp i j, r.resolve i σ) = some t ↔
      ∃ τ, (q.subst σ).subst τ = b ∧ τ.domain = (q.subst σ).vars ∧
        t = (r.resolve i σ).resolve (moveUp i j) τ := fun σ =>
    resolvent?_eq_some_iff (getElem?_body_resolve hq hij) hb (hrest σ)
  rw [Option.bind_eq_some_iff]
  simp only [resolvent?_eq_some_iff hp ha hpa]
  constructor
  · rintro ⟨_, ⟨σ, hσ, hσdomain, rfl⟩, hstep⟩
    obtain ⟨τ, hτ, hτdomain, rfl⟩ := (hsecond σ).mp hstep
    exact ⟨σ.orElse τ, joins_orElse hσ hσdomain hτ hτdomain, resolve_resolve r i j σ τ⟩
  · rintro ⟨ρ, hρ, rfl⟩
    obtain ⟨σ, hσ⟩ := Atom.exists_unify? ha hρ.first
    obtain ⟨hσ, hσdomain⟩ := Atom.unify?_sound ha hpa hσ
    -- The first step makes only bindings of `ρ`, so `ρ` still makes the second atom its fact.
    have hwithin : σ.Within ρ :=
      within_of_subst_eq (hσdomain ▸ List.Subset.refl _) (hσ.trans hρ.first.symm)
    have hqρ : (q.subst σ).subst ρ = b := by rw [Atom.subst_subst_of_within hwithin, hρ.second]
    obtain ⟨τ, hτ⟩ := Atom.exists_unify? hb hqρ
    obtain ⟨hτ, hτdomain⟩ := Atom.unify?_sound hb (hrest σ) hτ
    refine ⟨_, ⟨σ, hσ, hσdomain, rfl⟩, (hsecond σ).mpr ⟨τ, hτ, hτdomain, ?_⟩⟩
    rw [resolve_resolve]
    exact r.withoutTwo_congr (hρ.lookup?_eq (joins_orElse hσ hσdomain hτ hτdomain))

/-- Two steps commute. -/
theorem resolvent?_comm (hij : i ≠ j) (ha : r.Meets i a) (hb : r.Meets j b) :
    ((RuleIndex.resolvent? a (i, r)).bind fun s => RuleIndex.resolvent? b (moveUp i j, s)) =
      (RuleIndex.resolvent? b (j, r)).bind fun s => RuleIndex.resolvent? a (moveUp j i, s) := by
  obtain ⟨ha, p, hp, hpa⟩ := ha
  obtain ⟨hb, q, hq, hqb⟩ := hb
  ext1 t
  rw [resolvent?_bind_eq_some_iff hij.symm hp hq ha hb hpa hqb,
    resolvent?_bind_eq_some_iff hij hq hp hb ha hqb hpa]
  simp only [withoutTwo_comm r i j]
  exact ⟨fun ⟨ρ, hρ, ht⟩ => ⟨ρ, hρ.symm, ht⟩, fun ⟨ρ, hρ, ht⟩ => ⟨ρ, hρ.symm, ht⟩⟩

/-! ### All orders -/

/-- The choices are for different atoms of the body, which stand where `place` tells. -/
structure Chosen (r : Rule) (place : Nat → Nat) (choices : List (Nat × Atom)) : Prop where
  /-- No two choices are for one atom. -/
  nodup : (choices.map fun c => place c.1).Nodup
  /-- Every choice has the predicate and the arity of its atom. -/
  meets : ∀ c ∈ choices, r.Meets (place c.1) c.2

variable {place : Nat → Nat} {choices choices' : List (Nat × Atom)}

theorem Chosen.perm (h : r.Chosen place choices) (hperm : choices.Perm choices') :
    r.Chosen place choices' where
  nodup := (hperm.map _).nodup_iff.mp h.nodup
  meets c hc := h.meets c (hperm.mem_iff.mpr hc)

theorem Chosen.place_ne (h : r.Chosen place ((i, a) :: choices)) :
    ∀ c ∈ choices, place c.1 ≠ place i :=
  fun c hc same => (List.nodup_cons.mp h.nodup).1 (List.mem_map.mpr ⟨c, hc, same⟩)

/-- After the first step, the other choices are for different atoms of what is left. -/
theorem Chosen.resolve (h : r.Chosen place ((i, a) :: choices)) (σ : Substitution) :
    (r.resolve (place i) σ).Chosen (moveUp (place i) ∘ place) choices where
  nodup := by
    have hdistinct := (List.nodup_cons.mp h.nodup).2
    rw [List.nodup_iff_pairwise_ne, List.pairwise_map] at hdistinct ⊢
    refine hdistinct.imp_of_mem fun {c d} hc hd hne same => hne ?_
    exact eq_of_moveUp_eq (h.place_ne c hc) (h.place_ne d hd) same
  meets c hc := (h.meets c (List.mem_cons_of_mem _ hc)).resolve (h.place_ne c hc) σ

/-- Orders that differ by exchanging neighbours do the same, wherever the atoms stand. -/
theorem resolveEach?_eq_of_perm (h : choices.Perm choices') (hchosen : r.Chosen place choices) :
    r.resolveEach? place choices = r.resolveEach? place choices' := by
  induction h generalizing r place with
  | nil => rfl
  | cons c _ ih =>
    rw [resolveEach?, resolveEach?]
    refine Option.bind_congr fun s hs => ?_
    obtain ⟨σ, rfl⟩ := exists_resolve_of_resolvent? hs
    exact ih (hchosen.resolve σ)
  | swap c d rest =>
    have hcomm := resolvent?_comm (hchosen.place_ne c List.mem_cons_self).symm
      (hchosen.meets d List.mem_cons_self)
      (hchosen.meets c (List.mem_cons_of_mem _ List.mem_cons_self))
    -- The rest is resolved in the same rule, and its atoms stand in the same places.
    have hplace : moveUp (moveUp (place d.1) (place c.1)) ∘ moveUp (place d.1) ∘ place =
        moveUp (moveUp (place c.1) (place d.1)) ∘ moveUp (place c.1) ∘ place :=
      funext fun k => moveUp_moveUp _ _ _
    simp only [resolveEach?, Function.comp_apply]
    rw [← Option.bind_assoc, hcomm, Option.bind_assoc, hplace]
  | trans h _ ih ih' => exact (ih hchosen).trans (ih' (hchosen.perm h))

/-- Whatever ground atoms were chosen for some atoms of a body, each of the predicate and the arity of
its atom, it does not matter in which order these are resolved away: either a step fails in every
order, or every order leaves the same rule. -/
theorem resolution_order_irrelevant {r : Rule} {choices choices' : List (Nat × Atom)}
    (horder : choices.Perm choices') (hdistinct : (choices.map Prod.fst).Nodup)
    (hchosen : ∀ c ∈ choices, c.2.isGround = true ∧
      ∃ p, r.body[c.1]? = some p ∧ p.signature = c.2.signature) :
    r.resolveEach? id choices = r.resolveEach? id choices' :=
  resolveEach?_eq_of_perm horder ⟨hdistinct, hchosen⟩

/-- Three of four atoms that share variables, from the front to the back and the other way round. With
the fact `edge(b, d)` in the middle, the one order fails at its last step and the other at its second. -/
theorem resolution_order_irrelevant_chain :
    let edge (s t : Term) : Atom := ⟨"edge", [s, t]⟩
    let r : Rule := ⟨⟨"reach", [.var "?x", .var "?w"]⟩, [edge (.var "?x") (.var "?y"),
      edge (.var "?y") (.var "?z"), edge (.var "?z") (.var "?z"), edge (.var "?z") (.var "?w")]⟩
    let fits := [(0, edge (.const "a") (.const "b")), (1, edge (.const "b") (.const "c")),
      (2, edge (.const "c") (.const "c"))]
    let fails := [(0, edge (.const "a") (.const "b")), (1, edge (.const "b") (.const "d")),
      (2, edge (.const "c") (.const "c"))]
    (∀ choices ∈ [fits, fails], (choices.map Prod.fst).Nodup ∧ (∀ c ∈ choices, c.2.isGround = true ∧
        ∃ p, r.body[c.1]? = some p ∧ p.signature = c.2.signature) ∧
      choices.Perm choices.reverse ∧
      r.resolveEach? id choices = r.resolveEach? id choices.reverse) ∧
    r.resolveEach? id fits =
      some ⟨⟨"reach", [.const "a", .var "?w"]⟩, [edge (.const "c") (.var "?w")]⟩ ∧
    r.resolveEach? id fails = none := by
  intro edge r fits fails
  refine ⟨fun choices hchoices => ?_, by decide, by decide⟩
  have hdistinct : (choices.map Prod.fst).Nodup := by
    rcases List.mem_pair.mp hchoices with rfl | rfl <;> decide
  have hchosen : ∀ c ∈ choices, c.2.isGround = true ∧
      ∃ p, r.body[c.1]? = some p ∧ p.signature = c.2.signature := by
    rcases List.mem_pair.mp hchoices with rfl | rfl <;>
      simp [fits, fails, r, edge, Atom.isGround, Atom.signature, Atom.arity]
  have horder := (List.reverse_perm choices).symm
  exact ⟨hdistinct, hchosen, horder, resolution_order_irrelevant horder hdistinct hchosen⟩

end Datalog.Rule
