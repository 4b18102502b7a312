import Datalog.Atom

/-!
# Ground instances

The ground instances of an atom over a finite list of texts: every variable is replaced by one of the
texts. Two occurrences of a variable may be replaced differently, so this is a bound for what the atom
can become, and not the exact set.

## Main definitions

* `Atom.groundings` — the ground instances of an atom over some texts

## Main results

* `Atom.groundings_mono` — more texts give more instances
* `Atom.groundings_subst_subset` — substituting some of the texts gives no new instances
* `Atom.self_mem_groundings` — a ground atom is an instance of itself
-/

namespace Datalog

/-- The constants that may stand for a term, if variables range over `values`. -/
def Term.choices (values : List String) : Term → List String
  | .var _ => values
  | .const c => [c]

/-- The lists of constants that may stand for the arguments. -/
def fillings (values : List String) : List Term → List (List Term)
  | [] => [[]]
  | t :: ts =>
    (t.choices values).flatMap fun c => (fillings values ts).map fun us => .const c :: us

theorem mem_fillings_cons {values : List String} {t : Term} {ts us : List Term} :
    us ∈ fillings values (t :: ts) ↔
      ∃ c ∈ t.choices values, ∃ rest ∈ fillings values ts, us = .const c :: rest := by
  simp [fillings, eq_comm]

theorem Term.choices_subst_subset {values : List String} {σ : Substitution}
    (hσ : ∀ x c, σ.lookup? x = some c → c ∈ values) (t : Term) :
    (t.subst σ).choices values ⊆ t.choices values := by
  cases t with
  | const c => exact List.Subset.refl _
  | var x =>
    rw [Term.subst]
    split
    · rename_i c hc
      simpa [choices] using hσ x c hc
    · exact List.Subset.refl _

theorem fillings_mono {values values' : List String} (h : values ⊆ values') (ts : List Term) :
    fillings values ts ⊆ fillings values' ts := by
  induction ts with
  | nil => exact List.Subset.refl _
  | cons t ts ih =>
    intro us hus
    obtain ⟨c, hc, rest, hrest, rfl⟩ := mem_fillings_cons.1 hus
    refine mem_fillings_cons.2 ⟨c, ?_, rest, ih hrest, rfl⟩
    cases t with
    | var x => exact h hc
    | const d => exact hc

theorem fillings_subst_subset {values : List String} {σ : Substitution}
    (hσ : ∀ x c, σ.lookup? x = some c → c ∈ values) (ts : List Term) :
    fillings values (ts.map (Term.subst σ)) ⊆ fillings values ts := by
  induction ts with
  | nil => exact List.Subset.refl _
  | cons t ts ih =>
    intro us hus
    obtain ⟨c, hc, rest, hrest, rfl⟩ := mem_fillings_cons.1 hus
    exact mem_fillings_cons.2 ⟨c, Term.choices_subst_subset hσ t hc, rest, ih hrest, rfl⟩

theorem self_mem_fillings {values : List String} {ts : List Term}
    (h : ∀ t ∈ ts, t.isVar = false) : ts ∈ fillings values ts := by
  induction ts with
  | nil => simp [fillings]
  | cons t ts ih =>
    have ht := Term.isVar_eq_false_iff.1 (h t List.mem_cons_self)
    refine mem_fillings_cons.2
      ⟨t.text, ?_, ts, ih fun u hu => h u (List.mem_cons_of_mem t hu), by rw [← ht]⟩
    rw [ht]
    simp [Term.choices]

/-- The ground instances of an atom, if variables range over `values`. -/
def Atom.groundings (values : List String) (a : Atom) : List Atom :=
  (fillings values a.terms).map fun ts => { a with terms := ts }

theorem Atom.groundings_mono {values values' : List String} (h : values ⊆ values') (a : Atom) :
    a.groundings values ⊆ a.groundings values' :=
  List.map_subset _ (fillings_mono h a.terms)

theorem Atom.groundings_subst_subset {values : List String} {σ : Substitution}
    (hσ : ∀ x c, σ.lookup? x = some c → c ∈ values) (a : Atom) :
    (a.subst σ).groundings values ⊆ a.groundings values :=
  List.map_subset _ (fillings_subst_subset hσ a.terms)

theorem Atom.self_mem_groundings {values : List String} {a : Atom} (h : a.isGround = true) :
    a ∈ a.groundings values :=
  List.mem_map.2 ⟨a.terms, self_mem_fillings (Atom.isGround_iff.1 h), rfl⟩

end Datalog
