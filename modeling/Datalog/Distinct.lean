/-!
# Distinct elements

How many different elements a list has, and how that compares for two lists of which one is contained
in the other.

## Main results

* `nodup_eraseDups` — a list without its repetitions has none
* `eraseDups_of_nodup` — a list that has no repetitions is left as it is
* `eraseDups_append_singleton` — what becomes of a last element
* `length_eraseDups_le_of_subset`, `length_eraseDups_lt_of_subset` — a list that is contained in
  another has at most as many different elements, and fewer if it lacks one of them
-/

namespace Datalog

variable {α : Type} [DecidableEq α]

theorem nodup_eraseDups (l : List α) : l.eraseDups.Nodup := by
  induction h : l.length using Nat.strongRecOn generalizing l with
  | ind n ih =>
    cases l with
    | nil => simp
    | cons a rest =>
      rw [List.eraseDups_cons, List.nodup_cons]
      have shorter := List.length_filter_le (fun b => !b == a) rest
      refine ⟨by simp [List.mem_eraseDups], ih _ ?_ _ rfl⟩
      simp only [List.length_cons] at h
      omega

theorem eraseDups_of_nodup {l : List α} (h : l.Nodup) : l.eraseDups = l := by
  induction l with
  | nil => rfl
  | cons a rest ih =>
    rw [List.nodup_cons] at h
    have keep : (rest.filter fun b => !b == a) = rest := by
      rw [List.filter_eq_self]
      intro b hb
      have hne : b ≠ a := fun same => h.1 (same ▸ hb)
      simp [hne]
    rw [List.eraseDups_cons, keep, ih h.2]

/-- Repetitions may be dropped from the first part of a list before the whole. -/
theorem eraseDups_eraseDups_append (l₁ l₂ : List α) :
    (l₁.eraseDups ++ l₂).eraseDups = (l₁ ++ l₂).eraseDups := by
  have same : l₂.removeAll l₁.eraseDups = l₂.removeAll l₁ := by
    refine List.filter_congr fun a _ => ?_
    simp [List.mem_eraseDups]
  rw [List.eraseDups_append, List.eraseDups_append, eraseDups_of_nodup (nodup_eraseDups l₁), same]

/-- A last element stays if it has not been there before. -/
theorem eraseDups_append_singleton (l : List α) (a : α) :
    (l ++ [a]).eraseDups = if a ∈ l then l.eraseDups else l.eraseDups ++ [a] := by
  rw [List.eraseDups_append]
  by_cases h : a ∈ l <;> simp [List.removeAll, h, List.eraseDups_cons]

theorem length_eraseDups_le_of_subset {l₁ l₂ : List α} (h : l₁ ⊆ l₂) :
    l₁.eraseDups.length ≤ l₂.eraseDups.length :=
  (nodup_eraseDups l₁).length_le_of_subset fun _ ha =>
    List.mem_eraseDups.2 (h (List.mem_eraseDups.1 ha))

theorem length_eraseDups_lt_of_subset {l₁ l₂ : List α} {a : α} (h : l₁ ⊆ l₂) (ha : a ∈ l₂)
    (ha' : a ∉ l₁) : l₁.eraseDups.length < l₂.eraseDups.length := by
  have hcons : (a :: l₁.eraseDups).Nodup :=
    List.nodup_cons.2 ⟨fun hmem => ha' (List.mem_eraseDups.1 hmem), nodup_eraseDups l₁⟩
  have hsubset : a :: l₁.eraseDups ⊆ l₂.eraseDups := fun b hb => by
    rcases List.mem_cons.1 hb with rfl | hb
    · exact List.mem_eraseDups.2 ha
    · exact List.mem_eraseDups.2 (h (List.mem_eraseDups.1 hb))
  have hle := hcons.length_le_of_subset hsubset
  rw [List.length_cons] at hle
  omega

end Datalog
