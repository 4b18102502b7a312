import Datalog.Proofs.Engine.History
import Datalog.Sharing

/-!
# Shared engines are what their calls make of them

Instead of an engine, a handle may lead to a record of the calls that were made through any of its
copies. The engine behind a handle is always the one that these calls make on their own, so that
copying handles and using several of them changes nothing.

## Main definitions

* `Engine.sharedBy` — the engines behind the handles that some calls made
* `Engine.sharedHistories` — the records of the calls instead of the engines
* `Engine.MadeBy` — an engine that some calls were made on, directly or through handles

## Main results

* `Engine.sharedBy_eq_map` — every engine is the one that its record makes
* `Engine.MadeBy.eq_applyAll` — an engine is determined by its calls
-/

namespace Datalog

attribute [ext] Sharing

namespace Sharing

variable {α β : Type} {f : α → β}

/-- Applies a function to every value, and leaves the handles alone. -/
def map (f : α → β) (s : Sharing α) : Sharing β where
  cells := s.cells.map f
  places := s.places
  valid := by simpa using s.valid

theorem map_put (s : Sharing α) (a : α) : (s.put a).map f = (s.map f).put (f a) := by
  ext1 <;> simp [map, put]

theorem map_copy (s : Sharing α) (handle : Nat) : (s.copy handle).map f = (s.map f).copy handle := rfl

/-- Changes that the function respects are the same before and after. -/
theorem map_update {change : α → α} {change' : β → β} (h : ∀ a, f (change a) = change' (f a))
    (s : Sharing α) (handle : Nat) :
    (s.update handle change).map f = (s.map f).update handle change' := by
  ext1
  · simp only [map, update]
    cases s.places[handle]? with
    | none => rfl
    | some place =>
      apply List.ext_getElem?
      intro i
      simp only [List.getElem?_map, List.getElem?_modify]
      cases s.cells[i]? with
      | none => rfl
      | some a => by_cases hi : place = i <;> simp [hi, h]
  · rfl

theorem read?_map (s : Sharing α) (handle : Nat) :
    (s.map f).read? handle = (s.read? handle).map f := by
  simp only [read?, map, List.getElem?_map]
  cases s.places[handle]? <;> rfl

/-- If the function respects the start and every change, it respects every call. -/
theorem map_perform {start : α} {start' : β} {apply : α → Engine.Call → α}
    {apply' : β → Engine.Call → β} (hstart : f start = start')
    (happly : ∀ a change, f (apply a change) = apply' (f a) change) (s : Sharing α)
    (call : SharedCall) :
    (s.perform start apply call).map f = (s.map f).perform start' apply' call := by
  cases call with
  | share calls =>
    rw [perform, perform, map_put, ← hstart, List.foldl_hom f fun a change => (happly a change).symm]
  | copy handle => exact map_copy s handle
  | push handle push => exact map_update (fun a => happly a push.call) s handle

end Sharing

namespace Engine

/-- The engines behind the handles after some calls, one after the other. -/
def sharedBy (script : List SharedCall) : Sharing Engine := script.foldl performShared {}

/-- The record of the changes behind each handle. -/
def sharedHistories (script : List SharedCall) : Sharing (List Call) :=
  script.foldl (Sharing.perform [] fun calls change => calls ++ [change]) {}

/-- The engine behind a handle is the one that its record makes. -/
theorem sharedBy_eq_map (script : List SharedCall) :
    sharedBy script = (sharedHistories script).map empty.applyAll := by
  induction script using List.reverseRecOn with
  | nil => rfl
  | append_singleton script call ih =>
    -- One more call changes the engine and the record alike.
    rw [sharedBy, sharedHistories, List.foldl_append, List.foldl_append, List.foldl_cons,
      List.foldl_cons, List.foldl_nil, List.foldl_nil, Sharing.map_perform rfl, ← sharedHistories, ← ih]
    · rfl
    · exact applyAll_append_singleton empty

/-- The calls were made on the engine, either directly or through any of the handles that lead to it. -/
inductive MadeBy : Engine → List Call → Prop where
  /-- The calls were made directly. -/
  | direct (calls : List Call) : MadeBy (empty.applyAll calls) calls
  /-- The calls are those that were made through handles. -/
  | shared (script : List SharedCall) (handle : Nat) {e : Engine} {calls : List Call}
      (hengine : (sharedBy script).read? handle = some e)
      (hcalls : (sharedHistories script).read? handle = some calls) : MadeBy e calls

/-- It does not matter through which handles calls are made. -/
theorem MadeBy.eq_applyAll {e : Engine} {calls : List Call} (h : MadeBy e calls) :
    e = empty.applyAll calls := by
  cases h with
  | direct => rfl
  | shared script handle hengine hcalls =>
    rw [sharedBy_eq_map, Sharing.read?_map, hcalls] at hengine
    exact (Option.some.inj hengine).symm

end Engine

end Datalog
