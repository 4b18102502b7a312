import Datalog.Proofs.Saturation.Worklist

/-!
# Pushing by recursion

The plain way to push an item is to register it and then to push every rule that it yields, in order,
each with all that follows from it. Here this is written down as two functions that call each other.
Pushing the second of two items starts from whatever pushing the first one has led to, so the two
functions return their results together with a proof that no more is left to do than before. Without
it nothing would show that they end.

An agenda does the same work without nested calls. What an item yields goes in front of the items that
wait, which are therefore met in the state that they would be met in by recursion.

## Main definitions

* `Run.pushItem`, `Run.pushItems` — pushing an item, and items one after the other, by recursion
* `Run.resume` — a run, continued from what was done before it

## Main results

* `Run.pushItems_eq_saturate` — recursion and agenda do the same, step by step and report by report
* `saturate_resume` — what was counted and reported before has no influence on the work
-/

namespace Datalog

namespace Knowledge

/-- There is at most as much work left. -/
def AtMost (a b : Nat × Nat) : Prop := a = b ∨ Less a b

theorem AtMost.trans_less {a b c : Nat × Nat} (hab : AtMost a b) (hbc : Less b c) : Less a c := by
  rcases hab with rfl | hab
  · exact hbc
  · exact hab.trans hbc

theorem AtMost.of_le {a b c d : Nat} (hac : a ≤ c) (hbd : b ≤ d) : AtMost (a, b) (c, d) := by
  rcases Nat.lt_or_eq_of_le hbd with hbd | rfl
  · exact Or.inr (less_of_le_of_lt hac hbd)
  · rcases Nat.lt_or_eq_of_le hac with hac | rfl
    · exact Or.inr (Prod.Lex.left _ _ hac)
    · exact Or.inl rfl

/-- More items at the end of an agenda only add to the work. -/
theorem remaining_atMost_append (k : Knowledge) (first second : List Item) :
    AtMost (k.remaining first) (k.remaining (first ++ second)) := by
  have hheads : k.heads first ⊆ k.heads (first ++ second) := by
    rw [heads, heads, List.map_append, ← List.append_assoc]
    exact List.subset_append_left _ _
  have hreach : k.reachable first ⊆ k.reachable (first ++ second) :=
    reachable_subset (fun _ ha => Or.inl ha) fun _ hh => instance_of_mem (hheads hh)
  refine AtMost.of_le (unreached_le hreach (List.Subset.refl _)) ?_
  rw [workload, workload, agendaCost_append]
  exact Nat.le_add_right _ _

end Knowledge

open Knowledge

/-! ### The recursion -/

mutual

/-- Registers an item, and then pushes every rule that it yields, in the order in which it was
yielded. -/
def Run.pushItem (run : Run) (item : Item) :
    { done : Run // ∀ rest,
      Less (done.knowledge.remaining rest) (run.knowledge.remaining (item :: rest)) } :=
  let registration := run.knowledge.register item
  let done := (run.after registration).pushItems (registration.derived.map Item.rule)
  ⟨done, fun rest => (done.2 rest).trans_less (run.knowledge.register_decreases item rest)⟩
termination_by (run.knowledge.remaining [item], 0)
decreasing_by
  have hless := run.knowledge.register_decreases item []
  rw [List.append_nil] at hless
  exact Prod.Lex.left _ _ hless

/-- Pushes items one after the other. -/
def Run.pushItems (run : Run) : (items : List Item) →
    { done : Run // ∀ rest,
      AtMost (done.knowledge.remaining rest) (run.knowledge.remaining (items ++ rest)) }
  | [] => ⟨run, fun _ => Or.inl rfl⟩
  | item :: others =>
    let first := run.pushItem item
    let done := first.1.pushItems others
    ⟨done, fun rest => Or.inr ((done.2 rest).trans_less (first.2 (others ++ rest)))⟩
termination_by items => (run.knowledge.remaining items, 1)
decreasing_by
  -- A single item may be all there is to do, so the first call is only smaller in its kind.
  · rcases run.knowledge.remaining_atMost_append [item] others with hsame | hless
    · rw [List.singleton_append] at hsame
      rw [hsame]
      exact Prod.Lex.right _ Nat.one_pos
    · exact Prod.Lex.left _ _ hless
  · exact Prod.Lex.left _ _ (first.2 others)

end

namespace Run

theorem pushItem_eq (run : Run) (item : Item) :
    (run.pushItem item).1 = ((run.after (run.knowledge.register item)).pushItems
      ((run.knowledge.register item).derived.map Item.rule)).1 := by
  rw [pushItem]

@[simp] theorem pushItems_nil (run : Run) : (run.pushItems []).1 = run := by
  rw [pushItems]

theorem pushItems_cons (run : Run) (item : Item) (others : List Item) :
    (run.pushItems (item :: others)).1 = ((run.pushItem item).1.pushItems others).1 := by
  rw [pushItems]

/-- Recursion and agenda arrive at the same knowledge, after as many steps and with the same
reports. -/
theorem pushItems_eq_saturate (run : Run) (items : List Item) :
    (run.pushItems items).1 = saturate run items := by
  -- The induction follows the calls; an agenda is split where one call returns and the next starts.
  induction run, items using Run.pushItems.induct
    (fun run item => (run.pushItem item).1 = saturate run [item]) with
  | case1 run item registration _ yielded =>
    rw [pushItem_eq, yielded, saturate_cons, List.append_nil]
  | case2 run => rw [pushItems_nil, saturate_nil]
  | case3 run item others _ first _ rest =>
    rw [pushItems_cons, rest, first, ← saturate_append, List.singleton_append]

end Run

/-! ### What was done before -/

/-- A run, continued from what was counted and reported before it. -/
def Run.resume (before run : Run) : Run where
  knowledge := run.knowledge
  steps := before.steps + run.steps
  events := before.events ++ run.events

theorem Run.after_resume (before run : Run) (registration : Registration) :
    (before.resume run).after registration = before.resume (run.after registration) := by
  have hevents : before.events ++ run.events ++ registration.events =
      before.events ++ (run.events ++ registration.events) := by
    apply Array.ext'
    simp
  simp [after, resume, Nat.add_assoc, hevents]

/-- Working off an agenda depends on what is known, and on nothing else that happened before. -/
theorem saturate_resume (before run : Run) (agenda : List Item) :
    saturate (before.resume run) agenda = before.resume (saturate run agenda) := by
  fun_induction saturate run agenda with
  | case1 run => rw [saturate_nil]
  | case2 run item rest registration ih =>
    rw [saturate_cons, Run.after_resume]
    exact ih

/-- Working off an agenda, seen from what is known alone. -/
theorem saturate_eq_resume (run : Run) (agenda : List Item) :
    saturate run agenda = run.resume (saturate { knowledge := run.knowledge } agenda) := by
  rw [← saturate_resume, Run.resume]
  simp

end Datalog
