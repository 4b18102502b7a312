/-!
# Association lists in order of first use

A list of pairs read with `List.lookup`, in which a key keeps the place where it was first used.
Substitutions and the levels of a pattern trie are kept this way, so that whatever is listed from
them comes in a determined order.

## Main definitions

* `AssocList.upsert` — changes the value of a key in place, or adds the key at the end

## Main results

* `AssocList.lookup_upsert` — an update is seen under its key and nowhere else
* `AssocList.keys_upsert` — keys keep their places, and only a new key is added
-/

namespace Datalog.AssocList

variable {κ β : Type _} [DecidableEq κ]

/-- Changes the value stored under `k` to `f` of it, leaving `k` where it stands. A key that is not
there is added at the end with the value `f none`. -/
def upsert (k : κ) (f : Option β → β) : List (κ × β) → List (κ × β)
  | [] => [(k, f none)]
  | (k', b) :: rest => if k' = k then (k', f (some b)) :: rest else (k', b) :: upsert k f rest

@[simp] theorem upsert_nil (k : κ) (f : Option β → β) : upsert k f [] = [(k, f none)] := rfl

theorem upsert_cons (k : κ) (f : Option β → β) (k' : κ) (b : β) (rest : List (κ × β)) :
    upsert k f ((k', b) :: rest) =
      if k' = k then (k', f (some b)) :: rest else (k', b) :: upsert k f rest := rfl

theorem lookup_upsert (k k' : κ) (f : Option β → β) (l : List (κ × β)) :
    (upsert k f l).lookup k' = if k' = k then some (f (l.lookup k)) else l.lookup k' := by
  induction l with
  | nil => by_cases h : k' = k <;> grind [upsert]
  | cons entry rest ih =>
    obtain ⟨k₀, b⟩ := entry
    by_cases h₀ : k₀ = k <;> by_cases h : k' = k <;> grind [upsert]

/-- Keys keep their places, and a key that was not there goes to the end. -/
theorem keys_upsert (k : κ) (f : Option β → β) (l : List (κ × β)) :
    (upsert k f l).map Prod.fst =
      if k ∈ l.map Prod.fst then l.map Prod.fst else l.map Prod.fst ++ [k] := by
  induction l with
  | nil => rfl
  | cons entry rest ih =>
    obtain ⟨k₀, b⟩ := entry
    by_cases h₀ : k₀ = k
    · simp [upsert_cons, h₀]
    · have hne : k ≠ k₀ := fun h => h₀ h.symm
      by_cases hk : k ∈ rest.map Prod.fst
      · simp only [upsert_cons, if_neg h₀, List.map_cons, ih, List.mem_cons, hk, or_true, if_true]
      · simp only [upsert_cons, if_neg h₀, List.map_cons, ih, List.mem_cons, hk, hne, or_self,
          if_false, List.cons_append]

/-- Distinct keys stay distinct. -/
theorem nodup_keys_upsert (k : κ) (f : Option β → β) {l : List (κ × β)}
    (h : (l.map Prod.fst).Nodup) : ((upsert k f l).map Prod.fst).Nodup := by
  rw [keys_upsert]
  split
  · exact h
  · rename_i hk
    rw [List.nodup_append]
    exact ⟨h, by simp, fun a ha b hb => by simp at hb; rintro rfl; exact hk (hb ▸ ha)⟩

end Datalog.AssocList
