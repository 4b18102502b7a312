import Datalog.AssocList
import Mathlib.Data.List.Forall2

/-!
# Association lists under other keys

Two association lists correspond if their keys do, one after the other, and the values under them are
related. The order of the entries is part of it. Looking a key up and changing the value of a key
respect this, whatever the keys are, as long as different keys stay different: nothing but equality of
keys decides what is found, and where a new key goes.

## Main definitions

* `AssocList.Corresponds` — related values under corresponding keys, in the same order

## Main results

* `AssocList.Corresponds.lookup` — what is found under corresponding keys is related
* `AssocList.Corresponds.upsert` — changes that respect the relation keep the lists in correspondence
* `AssocList.lookup_map`, `AssocList.upsert_map` — the case of values that are mapped
-/

namespace Datalog.AssocList

variable {κ κ' β β' : Type}

/-- The second list has, in the same order, the keys that `g` makes of those of the first, and under each
of them a related value. -/
def Corresponds (g : κ → κ') (R : β → β' → Prop) : List (κ × β) → List (κ' × β') → Prop :=
  List.Forall₂ fun e e' => e'.1 = g e.1 ∧ R e.2 e'.2

variable {g : κ → κ'} {R : β → β' → Prop} {l : List (κ × β)} {l' : List (κ' × β')}

/-- For values that are determined by each other, there is one corresponding list. -/
theorem corresponds_eq_iff {h : β → β'} :
    Corresponds g (fun b b' => b' = h b) l l' ↔ l' = l.map (Prod.map g h) := by
  have hentry : ∀ (e : κ × β) (e' : κ' × β'),
      e'.1 = g e.1 ∧ e'.2 = h e.2 ↔ Prod.map g h e = e' := fun e e' => by
    rw [Prod.ext_iff, eq_comm, eq_comm (a := e'.2)]
    rfl
  simp only [Corresponds, hentry]
  rw [← List.forall₂_map_left_iff, List.forall₂_eq_eq_eq, eq_comm]

variable [DecidableEq κ] [DecidableEq κ']

/-- Under corresponding keys, related values are found or none at all. -/
theorem Corresponds.lookup (hg : Function.Injective g) (h : Corresponds g R l l') (k : κ) :
    l.lookup k = none ∧ l'.lookup (g k) = none ∨
      ∃ b b', l.lookup k = some b ∧ l'.lookup (g k) = some b' ∧ R b b' := by
  induction h with
  | nil => exact Or.inl ⟨rfl, rfl⟩
  | @cons e e' _ _ hentry _ ih =>
    obtain ⟨k₀, b⟩ := e
    obtain ⟨k₀', b'⟩ := e'
    obtain ⟨rfl, hb⟩ := hentry
    by_cases hk : k = k₀
    · subst hk
      exact Or.inr ⟨b, b', List.lookup_cons_self, List.lookup_cons_self, hb⟩
    · have hgk : g k ≠ g k₀ := fun same => hk (hg same)
      rw [List.lookup_cons, beq_false_of_ne hk, List.lookup_cons, beq_false_of_ne hgk]
      exact ih

/-- Two changes that respect the relation, also where there is no value yet, may be made under
corresponding keys. -/
theorem Corresponds.upsert (hg : Function.Injective g) (h : Corresponds g R l l') (k : κ)
    {f : Option β → β} {f' : Option β' → β'}
    (hf : ∀ {b b'}, Option.Rel R b b' → R (f b) (f' b')) :
    Corresponds g R (AssocList.upsert k f l) (AssocList.upsert (g k) f' l') := by
  induction h with
  | nil => exact .cons ⟨rfl, hf .none⟩ .nil
  | @cons e e' rest rest' hentry hrest ih =>
    obtain ⟨k₀, b⟩ := e
    obtain ⟨k₀', b'⟩ := e'
    obtain ⟨rfl, hb⟩ := hentry
    by_cases hk : k₀ = k
    · rw [upsert_cons, upsert_cons, if_pos hk, if_pos (congrArg g hk)]
      exact .cons ⟨rfl, hf (.some hb)⟩ hrest
    · rw [upsert_cons, upsert_cons, if_neg hk, if_neg fun same => hk (hg same)]
      exact .cons ⟨rfl, hb⟩ ih

/-- If all entries are mapped, what is found is mapped. -/
theorem lookup_map (hg : Function.Injective g) (h : β → β') (l : List (κ × β)) (k : κ) :
    (l.map (Prod.map g h)).lookup (g k) = (l.lookup k).map h := by
  obtain ⟨hnone, hnone'⟩ | ⟨b, b', hsome, hsome', rfl⟩ :=
    ((corresponds_eq_iff (h := h)).mpr rfl).lookup hg k
  · rw [hnone, hnone']
    rfl
  · rw [hsome, hsome']
    rfl

/-- Setting the value of a key before the entries are mapped or after it. -/
theorem upsert_map (hg : Function.Injective g) (h : β → β') (l : List (κ × β)) (k : κ) (b : β) :
    AssocList.upsert (g k) (fun _ => h b) (l.map (Prod.map g h)) =
      (AssocList.upsert k (fun _ => b) l).map (Prod.map g h) :=
  corresponds_eq_iff.mp ((corresponds_eq_iff.mpr rfl).upsert hg k fun _ => rfl)

end Datalog.AssocList
