import Datalog.Atom

/-!
# Horn rules

A rule concludes its head from the atoms of its body. A rule with an empty body is a fact. Resolving
a body atom away against a fact leaves a smaller rule, and a rule whose body has been resolved away
completely states its conclusion.

## Main definitions

* `Rule` — a head and a body
* `Rule.isRangeRestricted` — every variable of the head occurs in the body
* `Rule.resolve` — the rule left after one body atom has been matched
* `Rule.render` — the written form `p(?x) :- q(?x), r(a).`
-/

namespace Datalog

/-- A Horn rule. -/
structure Rule where
  /-- What the rule concludes. -/
  head : Atom
  /-- What has to hold for the conclusion. -/
  body : List Atom

namespace Rule

theorem eq_iff_body_head {r s : Rule} : r = s ↔ r.body = s.body ∧ r.head = s.head := by
  cases r
  cases s
  simp [and_comm]

/-- Bodies are compared first, because rules that come from one rule often share their heads. -/
instance : DecidableEq Rule := fun r s =>
  decidable_of_iff ((r.body == s.body && r.head == s.head) = true) (by simp [eq_iff_body_head])

/-- The rule has no condition. -/
def isFact (r : Rule) : Bool := r.body.isEmpty

/-- Every variable of the head occurs in the body. -/
def isRangeRestricted (r : Rule) : Bool :=
  r.head.vars.all fun x => r.body.any fun a => a.vars.contains x

/-- Resolves the body atom at position `i` away: it is left out, and `σ` is applied to the head and
to the atoms that remain, in their order. Past the end of the body nothing is left out. -/
def resolve (r : Rule) (i : Nat) (σ : Substitution) : Rule where
  head := r.head.subst σ
  body := (r.body.eraseIdx i).map (Atom.subst σ)

/-- The written form: the head, after `:-` the body if there is one, and a final point. -/
def render (r : Rule) : String :=
  match r.body with
  | [] => r.head.render ++ "."
  | body => r.head.render ++ " :- " ++ ", ".intercalate (body.map Atom.render) ++ "."

@[simp] theorem head_resolve (r : Rule) (i : Nat) (σ : Substitution) :
    (r.resolve i σ).head = r.head.subst σ := rfl

@[simp] theorem body_resolve (r : Rule) (i : Nat) (σ : Substitution) :
    (r.resolve i σ).body = (r.body.eraseIdx i).map (Atom.subst σ) := rfl

theorem isFact_iff {r : Rule} : r.isFact = true ↔ r.body = [] := by
  simp [isFact]

/-- Resolving an atom of the body away shortens the body by one. -/
theorem length_body_resolve {r : Rule} {i : Nat} (σ : Substitution) (hi : i < r.body.length) :
    (r.resolve i σ).body.length + 1 = r.body.length := by
  rw [body_resolve, List.length_map, List.length_eraseIdx_of_lt hi]
  omega

theorem isRangeRestricted_iff {r : Rule} :
    r.isRangeRestricted = true ↔ ∀ x ∈ r.head.vars, ∃ a ∈ r.body, x ∈ a.vars := by
  simp [isRangeRestricted]

end Rule

end Datalog
