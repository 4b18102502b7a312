import Datalog.Distinct
import Mathlib.Data.List.Basic
import Mathlib.Data.List.Induction

/-!
# The order of distinct elements

A list without its repetitions keeps the elements in the order in which they first occurred. This
order does not depend on what the elements are, so it is respected by every function that keeps
different elements apart.

## Main results

* `pairwise_eraseDups_filterMap` — distinct keys stand in the order of the first elements with them
* `eraseDups_map` — repetitions may be dropped before or after an injective function is applied
* `countP_eraseDups` — one of several equal elements is kept
-/

namespace Datalog

/-- Without its repetitions, a list of keys stands in the order of the first elements that have them. -/
theorem pairwise_eraseDups_filterMap {β κ : Type} [DecidableEq κ] (key? : β → Option κ) (l : List β) :
    (l.filterMap key?).eraseDups.Pairwise fun k k' =>
      l.findIdx (fun b => key? b = some k) < l.findIdx (fun b => key? b = some k') := by
  induction l using List.reverseRecOn with
  | nil => simp
  | append_singleton l b ih =>
    have found : ∀ k ∈ l.filterMap key?, l.findIdx (fun b => key? b = some k) < l.length := by
      intro k hk
      obtain ⟨b, hb, hkey⟩ := List.mem_filterMap.mp hk
      exact List.findIdx_lt_length.mpr ⟨b, hb, by simp [hkey]⟩
    have kept : (l.filterMap key?).eraseDups.Pairwise fun k k' =>
        (l ++ [b]).findIdx (fun b => key? b = some k) <
          (l ++ [b]).findIdx (fun b => key? b = some k') := by
      refine ih.imp_of_mem fun {k k'} hk hk' hlt => ?_
      rw [List.findIdx_append, List.findIdx_append, if_pos (found k (List.mem_eraseDups.mp hk)),
        if_pos (found k' (List.mem_eraseDups.mp hk'))]
      exact hlt
    rw [List.filterMap_append]
    cases hkey : key? b with
    | none => simpa [hkey] using kept
    | some new =>
      simp only [List.filterMap_cons, hkey, List.filterMap_nil]
      rw [eraseDups_append_singleton]
      split
      · exact kept
      · rename_i hnew
        refine List.pairwise_append.mpr ⟨kept, List.pairwise_singleton _ _, fun k hk k' hk' => ?_⟩
        obtain rfl := List.mem_singleton.mp hk'
        have hfound := found k (List.mem_eraseDups.mp hk)
        have hlate : ¬ l.findIdx (fun b => key? b = some k') < l.length := by
          rw [List.findIdx_lt_length]
          rintro ⟨b, hb, hkey⟩
          exact hnew (List.mem_filterMap.mpr ⟨b, hb, of_decide_eq_true hkey⟩)
        rw [List.findIdx_append, List.findIdx_append, if_pos hfound, if_neg hlate]
        omega

/-- Repetitions may be dropped before or after an injective function is applied. -/
theorem eraseDups_map {β γ : Type} [DecidableEq β] [DecidableEq γ] {f : β → γ}
    (hf : Function.Injective f) (l : List β) : (l.map f).eraseDups = l.eraseDups.map f := by
  induction l using List.reverseRecOn with
  | nil => rfl
  | append_singleton l b ih =>
    have hmem : f b ∈ l.map f ↔ b ∈ l := List.mem_map_of_injective hf
    rw [List.map_append, List.map_singleton, eraseDups_append_singleton,
      eraseDups_append_singleton, ih]
    by_cases hb : b ∈ l
    · rw [if_pos hb, if_pos (hmem.mpr hb)]
    · rw [if_neg hb, if_neg (mt hmem.mp hb), List.map_append, List.map_singleton]

/-- Nothing is put in and nothing is moved. -/
theorem eraseDups_sublist {β : Type} [BEq β] (l : List β) : l.eraseDups.Sublist l := by
  induction h : l.length using Nat.strongRecOn generalizing l with
  | ind n ih =>
    cases l with
    | nil => exact List.Sublist.refl []
    | cons b rest =>
      have shorter := List.length_filter_le (fun c => !c == b) rest
      rw [List.length_cons] at h
      rw [List.eraseDups_cons]
      exact ((ih _ (by omega) _ rfl).trans List.filter_sublist).cons_cons b

/-- Of the elements that are equal to one of them, the list keeps one. -/
theorem countP_eraseDups {β : Type} [BEq β] [EquivBEq β] {l : List β} {b : β} (hb : b ∈ l) :
    l.eraseDups.countP (· == b) = 1 := by
  induction h : l.length using Nat.strongRecOn generalizing l with
  | ind n ih =>
    cases l with
    | nil => simp at hb
    | cons a rest =>
      have shorter := List.length_filter_le (fun c => !c == a) rest
      rw [List.length_cons] at h
      rw [List.eraseDups_cons, List.countP_cons]
      by_cases hab : (a == b) = true
      -- What is left after `a` is not equal to `a`, and so not to `b`.
      · have hnone : (rest.filter fun c => !c == a).eraseDups.countP (· == b) = 0 := by
          refine List.countP_eq_zero.mpr fun c hc hcb => ?_
          have hca := (List.mem_filter.mp ((eraseDups_sublist _).subset hc)).2
          simp [BEq.trans hcb (BEq.symm hab)] at hca
        rw [hnone, if_pos hab]
      · have hba : (b == a) = false := by
          rw [BEq.comm]
          exact eq_false_of_ne_true hab
        have hrest : b ∈ rest := (List.mem_cons.mp hb).resolve_left fun same => by
          simp [same] at hab
        rw [ih _ (by omega) (List.mem_filter.mpr ⟨hrest, by simp [hba]⟩) rfl, if_neg hab]

end Datalog
