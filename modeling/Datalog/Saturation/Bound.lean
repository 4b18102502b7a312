import Datalog.Saturation.Reach

/-!
# Why saturation ends

Registering items one after the other, each followed by what it yields, comes to an end for every
knowledge and every agenda, whether or not the rules are range-restricted. Two quantities show it.

Facts are the scarce resource: only finitely many are within reach, and every fact that becomes known
is one of them. Between two new facts the number of stored facts stands still. A rule then yields at
most as many rules as it has pairs of a body atom and a stored fact, each with a shorter body, so a
rule costs a bounded number of registrations.

## Main definitions

* `Knowledge.workload` — how many registrations an agenda costs at most while no fact is added
* `Knowledge.remaining` — the facts within reach that are not known, and then the workload

## Main results

* `Knowledge.register_decreases` — registering an item decreases the two numbers lexicographically
-/

namespace Datalog

/-! ### The work between two new facts -/

/-- How many registrations a rule with a body of length `n` costs at most, itself included, while
`stored` facts are stored. -/
def bodyCost (stored : Nat) : Nat → Nat
  | 0 => 1
  | n + 1 => 1 + (n + 1) * stored * bodyCost stored n

/-- How many registrations an item costs at most while `stored` facts are stored. -/
def Item.cost (stored : Nat) : Item → Nat
  | .fact _ => 1
  | .rule r => bodyCost stored r.body.length

theorem bodyCost_pos (stored n : Nat) : 0 < bodyCost stored n := by
  cases n with
  | zero => exact Nat.one_pos
  | succ n => exact Nat.lt_of_lt_of_le Nat.one_pos (Nat.le_add_right 1 _)

/-- How many registrations the items of an agenda cost at most while `stored` facts are stored. -/
def agendaCost (stored : Nat) : List Item → Nat
  | [] => 0
  | item :: rest => item.cost stored + agendaCost stored rest

theorem Item.cost_pos (stored : Nat) (item : Item) : 0 < item.cost stored := by
  cases item with
  | fact a => exact Nat.one_pos
  | rule r => exact bodyCost_pos stored _

theorem agendaCost_append (stored : Nat) (first second : List Item) :
    agendaCost stored (first ++ second) = agendaCost stored first + agendaCost stored second := by
  induction first with
  | nil => simp [agendaCost]
  | cons item rest ih => simp only [List.cons_append, agendaCost, ih, Nat.add_assoc]

theorem agendaCost_rules_le (stored n : Nat) (rules : List Rule)
    (h : ∀ r ∈ rules, r.body.length = n) :
    agendaCost stored (rules.map Item.rule) ≤ rules.length * bodyCost stored n := by
  induction rules with
  | nil => simp [agendaCost]
  | cons r rest ih =>
    have hr := h r List.mem_cons_self
    have hrest := ih fun s hs => h s (List.mem_cons_of_mem r hs)
    simp only [List.map_cons, agendaCost, Item.cost, hr, List.length_cons, Nat.add_mul, Nat.one_mul]
    omega

namespace Knowledge

/-- How many registrations the agenda costs while no fact is added. -/
def workload (k : Knowledge) (agenda : List Item) : Nat :=
  agendaCost k.factIndex.trie.contents.length agenda

theorem workload_cons (k : Knowledge) (item : Item) (rest : List Item) :
    k.workload (item :: rest) = item.cost k.factIndex.trie.contents.length + k.workload rest := rfl

theorem workload_lt_cons (k : Knowledge) (item : Item) (rest : List Item) :
    k.workload rest < k.workload (item :: rest) := by
  have := item.cost_pos k.factIndex.trie.contents.length
  rw [workload_cons]
  omega

/-- The rules that a rule yields cost less than the rule. -/
theorem workload_resolvents_lt (k : Knowledge) (rule : Rule) (rest : List Item)
    (hrule : rule.body ≠ []) :
    k.workload ((k.factIndex.resolvents rule).map Item.rule ++ rest) <
      k.workload (Item.rule rule :: rest) := by
  obtain ⟨n, hn⟩ : ∃ n, rule.body.length = n + 1 :=
    ⟨rule.body.length - 1, by have := List.length_pos_iff.2 hrule; omega⟩
  have hlengths : ∀ r ∈ k.factIndex.resolvents rule, r.body.length = n := by
    intro r hr
    obtain ⟨i, fact, σ, hi, -, -, rfl⟩ := FactIndex.mem_resolvents hr
    have := Rule.length_body_resolve σ hi
    omega
  -- There are at most `rule.body.length * stored` resolvents, and each costs `bodyCost stored n`.
  have hsum := agendaCost_rules_le k.factIndex.trie.contents.length n _ hlengths
  have hcount := k.factIndex.length_resolvents_le rule
  have hbound := Nat.mul_le_mul_right (bodyCost k.factIndex.trie.contents.length n) hcount
  rw [workload_cons]
  simp only [workload, agendaCost_append, Item.cost, hn, bodyCost] at hsum hbound ⊢
  omega

/-! ### Registering decreases -/

/-- The numbers that bound the work left, facts first. -/
def remaining (k : Knowledge) (agenda : List Item) : Nat × Nat :=
  (k.unreached agenda, k.workload agenda)

/-- Work left, compared lexicographically. -/
abbrev Less : Nat × Nat → Nat × Nat → Prop := Prod.Lex (· < ·) (· < ·)

theorem less_of_le_of_lt {a b c d : Nat} (hac : a ≤ c) (hbd : b < d) : Less (a, b) (c, d) := by
  rcases Nat.lt_or_eq_of_le hac with h | rfl
  · exact Prod.Lex.left _ _ h
  · exact Prod.Lex.right _ hbd

/-- Passing over an item leaves less to do. -/
theorem remaining_tail_less (k : Knowledge) (item : Item) (rest : List Item) :
    Less (k.remaining rest) (k.remaining (item :: rest)) :=
  less_of_le_of_lt
    (unreached_le
      (reachable_subset (fun _ ha => Or.inl ha) fun _ hh =>
        instance_of_mem (k.heads_cons_subset item rest hh))
      (List.Subset.refl _))
    (k.workload_lt_cons item rest)

/-- Registering a fact leaves less to do. The agenda holds the fact as an item, or a rule without a
body that states it. -/
theorem registerFact_less (k : Knowledge) (item : Item) (rest : List Item) :
    Less ((k.registerFact item.head).knowledge.remaining
        ((k.registerFact item.head).derived.map Item.rule ++ rest))
      (k.remaining (item :: rest)) := by
  rw [registerFact]
  split
  · exact k.remaining_tail_less item rest
  split
  · rename_i hnew hground
    refine Prod.Lex.left _ _ (unreached_lt (a := item.head) (reachable_subset ?_ ?_) ?_ ?_ hnew ?_)
    -- The fact was at hand as the head of the item.
    · intro a ha
      rcases List.mem_cons.1 ((PatternTrie.contents_insert _ _ _).mem_iff.1 ha) with rfl | ha
      · exact Or.inr (k.head_mem_heads item rest)
      · exact Or.inl ha
    · intro h' hh'
      simp only [heads, List.map_append, List.map_map, List.mem_append, List.mem_map,
        Function.comp_apply] at hh'
      rcases hh' with ⟨entry, hentry, rfl⟩ | ⟨r, hr, rfl⟩ | ⟨other, hother, rfl⟩
      · exact instance_of_mem (List.mem_append_left _ (List.mem_map.2 ⟨entry, hentry, rfl⟩))
      -- A resolvent has an instance of a stored head, over the texts of the fact.
      · obtain ⟨entry, hentry, σ, ⟨pattern, -, hσ⟩, rfl⟩ := RuleIndex.mem_resolvents hr
        refine ⟨entry.2.head, List.mem_append_left _ (List.mem_map.2 ⟨entry, hentry, rfl⟩), σ, rfl,
          fun x c hx => ?_⟩
        exact List.mem_flatMap.2 ⟨item.head, List.mem_append_right _ (k.head_mem_heads item rest),
          Atom.mem_texts_of_unify? hσ hx⟩
      · exact instance_of_mem (k.heads_cons_subset item rest
          (List.mem_append_right _ (List.mem_map.2 ⟨other, hother, rfl⟩)))
    · exact List.subset_append_left _ _
    · exact List.mem_flatMap.2
        ⟨item.head, k.head_mem_heads item rest, Atom.self_mem_groundings hground⟩
    · simp
  · exact k.remaining_tail_less item rest

/-- Registering an item and putting what it yields in its place leaves less to do. -/
theorem register_decreases (k : Knowledge) (item : Item) (rest : List Item) :
    Less ((k.register item).knowledge.remaining
        ((k.register item).derived.map Item.rule ++ rest))
      (k.remaining (item :: rest)) := by
  cases item with
  | fact a => exact k.registerFact_less (.fact a) rest
  | rule r =>
    rw [register, registerRule]
    split
    · exact k.registerFact_less (.rule r) rest
    split
    · exact k.remaining_tail_less (.rule r) rest
    · rename_i hbody hnew
      have hbody : r.body ≠ [] := fun h => hbody (Rule.isFact_iff.2 h)
      refine less_of_le_of_lt (unreached_le (reachable_subset (fun _ ha => Or.inl ha) ?_)
        (List.Subset.refl _)) (k.workload_resolvents_lt r rest hbody)
      intro h' hh'
      simp only [heads, List.map_append, List.map_map, List.mem_append, List.mem_map,
        Function.comp_apply] at hh'
      rcases hh' with ⟨entry, hentry, rfl⟩ | ⟨s, hs, rfl⟩ | ⟨other, hother, rfl⟩
      · rcases RuleIndex.mem_contents_insert hentry with hentry | hentry
        · exact instance_of_mem (List.mem_append_left _ (List.mem_map.2 ⟨entry, hentry, rfl⟩))
        · exact instance_of_mem (hentry ▸ k.head_mem_heads (.rule r) rest)
      -- A resolvent has an instance of the rule's head, over the texts of a stored fact.
      · obtain ⟨i, fact, σ, -, hfact, ⟨pattern, -, hσ⟩, rfl⟩ := FactIndex.mem_resolvents hs
        refine ⟨r.head, k.head_mem_heads (.rule r) rest, σ, rfl, fun x c hx => ?_⟩
        exact List.mem_flatMap.2 ⟨fact, List.mem_append_left _ hfact, Atom.mem_texts_of_unify? hσ hx⟩
      · exact instance_of_mem (k.heads_cons_subset (.rule r) rest
          (List.mem_append_right _ (List.mem_map.2 ⟨other, hother, rfl⟩)))

end Knowledge

end Datalog
