import Datalog.Knowledge
import Datalog.Proofs.Residual

/-!
# Models

What pushed items mean, said without an engine. An item either states an atom outright or is a rule
with a body. A model is a set of ground atoms that contains the ground atoms that are stated and is
closed under the rules: if a substitution for the variables of a body makes the whole body hold, the
head holds too, unless it keeps a variable. Stated atoms with variables mean nothing.

## Main definitions

* `Item.statement?`, `statedFacts`, `properRules` — what items state, and which rules they bring
* `IsModel` — a set of ground atoms that satisfies all of it

## Main results

* `IsModel.anti` — a model of more is a model of less
* `IsModel.mem_of_statement` — whatever is concluded from a rule by resolution holds in a model
-/

namespace Datalog

/-- The atom that an item states outright. -/
def Item.statement? : Item → Option Atom
  | .fact a => some a
  | .rule r => if r.isFact then some r.head else none

/-- The ground atoms that are stated outright. -/
def statedFacts (items : List Item) : Set Atom :=
  {a | a.isGround = true ∧ ∃ item ∈ items, item.statement? = some a}

/-- The rules with a body. -/
def properRules (items : List Item) : Set Rule := {r | r.body ≠ [] ∧ .rule r ∈ items}

theorem Item.statement?_rule_eq_some_iff {r : Rule} {a : Atom} :
    (Item.rule r).statement? = some a ↔ r = ⟨a, []⟩ := by
  obtain ⟨head, body⟩ := r
  cases body <;> simp [statement?, Rule.isFact]

theorem Item.statement?_rule_eq_none {r : Rule} (h : r.body ≠ []) :
    (Item.rule r).statement? = none := by
  rw [Option.eq_none_iff_forall_ne_some]
  rintro a ha
  rw [statement?_rule_eq_some_iff] at ha
  exact h (ha ▸ rfl)

theorem statedFacts_mono {items items' : List Item} (h : items ⊆ items') :
    statedFacts items ⊆ statedFacts items' := by
  rintro a ⟨hground, item, hitem, ha⟩
  exact ⟨hground, item, h hitem, ha⟩

theorem properRules_mono {items items' : List Item} (h : items ⊆ items') :
    properRules items ⊆ properRules items' :=
  fun _ ⟨hbody, hr⟩ => ⟨hbody, h hr⟩

theorem statedFacts_congr {items items' : List Item} (h : ∀ item, item ∈ items ↔ item ∈ items') :
    statedFacts items = statedFacts items' :=
  (statedFacts_mono fun item => (h item).mp).antisymm (statedFacts_mono fun item => (h item).mpr)

theorem properRules_congr {items items' : List Item} (h : ∀ item, item ∈ items ↔ item ∈ items') :
    properRules items = properRules items' :=
  (properRules_mono fun item => (h item).mp).antisymm (properRules_mono fun item => (h item).mpr)

/-- A set of ground atoms that contains the stated atoms and is closed under the rules. -/
structure IsModel (stated : Set Atom) (rules : Set Rule) (M : Set Atom) : Prop where
  /-- Only ground atoms hold. -/
  ground : ∀ a ∈ M, a.isGround = true
  /-- What is stated holds. -/
  stated : stated ⊆ M
  /-- If a substitution of exactly the variables of a body makes the body hold, it makes the head
  hold, provided that this leaves no variable in the head. -/
  closed : ∀ r ∈ rules, ∀ σ : Substitution, σ.BindsExactly r.body →
    (∀ b ∈ r.body, b.subst σ ∈ M) → (r.head.subst σ).isGround = true → r.head.subst σ ∈ M

namespace IsModel

variable {stated stated' M : Set Atom} {rules rules' : Set Rule}

/-- A model of more is a model of less. -/
theorem anti (h : IsModel stated' rules' M) (hstated : stated ⊆ stated')
    (hrules : rules ⊆ rules') : IsModel stated rules M where
  ground := h.ground
  stated := hstated.trans h.stated
  closed r hr := h.closed r (hrules hr)

/-- What resolution concludes from a rule holds in every model. -/
theorem mem_of_reduces (h : IsModel stated rules M) {r : Rule} {a : Atom} (hr : r ∈ rules)
    (hreduces : r.Reduces M ⟨a, []⟩) (ha : a.isGround = true) : a ∈ M := by
  obtain ⟨σ, hbinds, hbody, rfl⟩ := (Rule.reduces_conclusion_iff h.ground).mp hreduces
  exact h.closed r hr σ hbinds hbody ha

end IsModel

/-! ### Items that follow from others -/

/-- The item is one of `given`, or a rule that resolution against members of `M` makes of one. -/
def Item.FollowsFrom (given : List Item) (M : Set Atom) : Item → Prop
  | .fact a => .fact a ∈ given
  | .rule r => ∃ g, .rule g ∈ given ∧ g.Reduces M r

theorem Item.FollowsFrom.of_mem {given : List Item} {M : Set Atom} {item : Item}
    (h : item ∈ given) : item.FollowsFrom given M := by
  cases item with
  | fact a => exact h
  | rule r => exact ⟨r, h, Relation.ReflTransGen.refl⟩

theorem Item.FollowsFrom.mono {given given' : List Item} {M : Set Atom} {item : Item}
    (hgiven : given ⊆ given') (h : item.FollowsFrom given M) : item.FollowsFrom given' M := by
  cases item with
  | fact a => exact hgiven h
  | rule r =>
    obtain ⟨g, hg, hreduces⟩ := h
    exact ⟨g, hgiven hg, hreduces⟩

/-- One more resolution against a member of `M`. -/
theorem Item.FollowsFrom.resolvent {given : List Item} {M : Set Atom} {r s : Rule} {a : Atom}
    (h : (Item.rule r).FollowsFrom given M) (ha : a ∈ M) (hs : r.Resolvent a s) :
    (Item.rule s).FollowsFrom given M := by
  obtain ⟨g, hg, hreduces⟩ := h
  exact ⟨g, hg, hreduces.tail ⟨a, ha, hs⟩⟩

/-- A rule without a body is not resolved any further. -/
theorem Rule.Reduces.eq_of_body_eq_nil {facts : Set Atom} {r s : Rule} (h : r.Reduces facts s)
    (hbody : r.body = []) : r = s := by
  rcases Relation.ReflTransGen.cases_head h with h | ⟨t, ⟨a, -, entry, hentry, -⟩, -⟩
  · exact h
  · simp [hbody] at hentry

/-- What an item that follows states holds in every model, if it is ground. -/
theorem IsModel.mem_of_statement {given : List Item} {M : Set Atom} {item : Item} {a : Atom}
    (h : IsModel (statedFacts given) (properRules given) M) (hitem : item.FollowsFrom given M)
    (hstatement : item.statement? = some a) (ha : a.isGround = true) : a ∈ M := by
  cases item with
  | fact b => exact h.stated ⟨ha, .fact b, hitem, hstatement⟩
  | rule r =>
    obtain rfl := Item.statement?_rule_eq_some_iff.mp hstatement
    obtain ⟨g, hg, hreduces⟩ := hitem
    -- Either the statement itself was given, or it was concluded from a rule with a body.
    by_cases hbody : g.body = []
    · obtain rfl := hreduces.eq_of_body_eq_nil hbody
      exact h.stated ⟨ha, _, hg, hstatement⟩
    · exact h.mem_of_reduces ⟨hbody, hg⟩ hreduces ha

end Datalog
