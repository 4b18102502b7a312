import Datalog.Proofs.AssocList
import Datalog.Proofs.Distinct
import Datalog.Proofs.PatternTrie.History

/-!
# The shape of a pattern trie

A level has the number of its arguments in its type, so no value can be stored at a wrong depth. Here
the nodes of a trie are taken without their types: a node is a branch or a leaf, and which of the two it
is has to be looked up. Who stores a value in such a trie goes on with one branch for each argument,
makes the nodes that are not there yet, and gives up at a leaf that comes too early or a branch that
comes too late. This never happens. What is done without the types is what is done with them, and under
every number of arguments all leaves are exactly so far down.

## Main definitions

* `Node`, `Node.Uniform` — a node without its type, and that all its leaves are at one depth
* `Node.store?`, `Roots.store?`, `Roots.storeAll?` — storing values, unless it has to be given up
* `Level.node`, `PatternTrie.roots` — the nodes of a trie, without their types
* `Term.Agrees` — two terms are not told apart by a trie

## Main results

* `Level.uniform_node` — the leaves of a level are as far down as its type says
* `Level.store?_node`, `PatternTrie.storeAll?_eq` — storing a value is never given up
* `PatternTrie.insertions_kept_apart` — what is stored, found under a pattern, and listed
-/

namespace Datalog

/-! ### Nodes without their types -/

/-- A node of a trie. -/
inductive Node (α : Type) where
  /-- A node with a branch for each key. -/
  | branch (children : List (Key × Node α))
  /-- The end of a path, with the values there. -/
  | leaf (values : List α)

namespace Node

variable {α : Type}

/-- The node that holds nothing, with a number of arguments to go. -/
def empty : Nat → Node α
  | 0 => .leaf []
  | _ + 1 => .branch []

/-- Stores `v` under the arguments, after whatever is stored there. Where a leaf is met before the last
argument, or a branch after it, nothing can be stored. -/
def store? (v : α) : List Term → Node α → Option (Node α)
  | [], .leaf values => some (.leaf (values ++ [v]))
  | t :: ts, .branch children =>
    (store? v ts ((children.lookup (Key.ofTerm t)).getD (empty ts.length))).map fun child =>
      .branch (AssocList.upsert (Key.ofTerm t) (fun _ => child) children)
  | _ :: _, .leaf _ => none
  | [], .branch _ => none

/-- All leaves are at depth `n`, and all nodes above that depth are branches. -/
inductive Uniform : Nat → Node α → Prop
  /-- A leaf is at depth 0. -/
  | leaf (values : List α) : Uniform 0 (.leaf values)
  /-- The leaves of a branch are one deeper than those of its children. -/
  | branch {n : Nat} {children : List (Key × Node α)} :
    (∀ entry ∈ children, Uniform n entry.2) → Uniform (n + 1) (.branch children)

end Node

namespace AssocList

variable {κ β β' : Type} [DecidableEq κ]

/-- The change of a value depends only on what is found under the key. -/
theorem upsert_eq (k : κ) (f : Option β → β) (l : List (κ × β)) :
    upsert k f l = upsert k (fun _ => f (l.lookup k)) l := by
  induction l with
  | nil => rfl
  | cons entry rest ih =>
    obtain ⟨k₀, b⟩ := entry
    by_cases hk : k₀ = k
    · subst hk
      simp [upsert_cons]
    · rw [upsert_cons, upsert_cons, if_neg hk, if_neg hk, List.lookup_cons,
        beq_false_of_ne (Ne.symm hk), ih]

/-- If all values are mapped, a change of one of them may be made before or after. -/
theorem map_upsert (h : β → β') (k : κ) (f : Option β → β) (l : List (κ × β)) :
    (upsert k f l).map (Prod.map id h) =
      upsert k (fun _ => h (f (l.lookup k))) (l.map (Prod.map id h)) := by
  rw [upsert_eq]
  exact (upsert_map Function.injective_id h l k _).symm

/-- If all values are mapped, what is found is mapped. -/
theorem lookup_map_id (h : β → β') (k : κ) (l : List (κ × β)) :
    (l.map (Prod.map id h)).lookup k = (l.lookup k).map h :=
  lookup_map Function.injective_id h l k

end AssocList

namespace Level

variable {α : Type}

/-- The nodes of a level, without their types. -/
def node : (n : Nat) → Level α n → Node α
  | 0, values => .leaf values
  | n + 1, children =>
    .branch ((show List (Key × Level α n) from children).map (Prod.map id (node n)))

theorem node_succ {n : Nat} (children : List (Key × Level α n)) :
    node (n + 1) children = .branch (children.map (Prod.map id (node n))) := rfl

@[simp] theorem node_empty (n : Nat) : node n (empty n : Level α n) = Node.empty n := by
  cases n <;> rfl

/-- The leaves of a level are as far down as its type says. -/
theorem uniform_node (n : Nat) (level : Level α n) : (node n level).Uniform n := by
  induction n with
  | zero => exact .leaf level
  | succ n ih =>
    refine .branch fun entry hentry => ?_
    obtain ⟨child, -, rfl⟩ := List.mem_map.mp hentry
    exact ih child.2

/-- Storing a value in a level is never given up, and does what it does with the types. -/
theorem store?_node (v : α) (terms : List Term) (level : Level α terms.length) :
    (node terms.length level).store? v terms = some (node terms.length (insert v terms level)) := by
  induction terms with
  | nil => rfl
  | cons t ts ih =>
    have step : ∀ children : List (Key × Level α ts.length),
        (node (ts.length + 1) children).store? v (t :: ts) =
          some (node (ts.length + 1) (AssocList.upsert (Key.ofTerm t)
            (fun child => insert v ts (child.getD (empty ts.length))) children)) := by
      intro children
      rw [node_succ, node_succ, Node.store?, AssocList.lookup_map_id, ← node_empty, Option.getD_map,
        ih, Option.map_some, AssocList.map_upsert]
    exact step level

end Level

/-! ### Tries without their types -/

/-- The nodes of a trie: for each predicate, one for each number of arguments in use. -/
abbrev Roots (α : Type) : Type := List (String × List (Nat × Node α))

namespace Roots

variable {α : Type}

/-- Stores `v` under the pattern of `a`, unless the node for the number of its arguments does not have
the shape for it. -/
def store? (v : α) (a : Atom) (roots : Roots α) : Option (Roots α) :=
  let arities := (roots.lookup a.predicate).getD []
  let root := (arities.lookup a.arity).getD (Node.empty a.arity)
  (root.store? v a.terms).map fun node =>
    AssocList.upsert a.predicate (fun _ => AssocList.upsert a.arity (fun _ => node) arities) roots

/-- Stores the values under their atoms, one after the other, unless one of them cannot be stored. -/
def storeAll? (roots : Roots α) (entries : List (Atom × α)) : Option (Roots α) :=
  entries.foldlM (fun roots entry => roots.store? entry.2 entry.1) roots

end Roots

namespace Arities

variable {α : Type}

/-- The nodes of a predicate, without their types. -/
def roots (arities : Arities α) : List (Nat × Node α) :=
  arities.map fun entry => (entry.1, Level.node entry.1 entry.2)

theorem roots_cons (m : Nat) (l : Level α m) (rest : Arities α) :
    roots (⟨m, l⟩ :: rest) = (m, Level.node m l) :: roots rest := rfl

theorem lookup_roots (n : Nat) (arities : Arities α) :
    (arities.roots.lookup n).getD (Node.empty n) = Level.node n (arities.level n) := by
  induction arities with
  | nil => exact (Level.node_empty n).symm
  | cons entry rest ih =>
    obtain ⟨m, l⟩ := entry
    by_cases hm : m = n
    · subst hm
      simp [roots_cons, level]
    · rw [roots_cons, List.lookup_cons, beq_false_of_ne (Ne.symm hm), level, dif_neg hm]
      exact ih

theorem roots_update (n : Nat) (f : Level α n → Level α n) (arities : Arities α) :
    (arities.update n f).roots =
      AssocList.upsert n (fun _ => Level.node n (f (arities.level n))) arities.roots := by
  induction arities with
  | nil => rfl
  | cons entry rest ih =>
    obtain ⟨m, l⟩ := entry
    by_cases hm : m = n
    · subst hm
      simp [update, level, roots_cons, AssocList.upsert_cons]
    · rw [update, dif_neg hm, roots_cons, roots_cons, AssocList.upsert_cons, if_neg hm, ih, level,
        dif_neg hm]

end Arities

namespace PatternTrie

variable {α : Type}

/-- The nodes of a trie, without their types. -/
def roots (trie : PatternTrie α) : Roots α := trie.predicates.map (Prod.map id Arities.roots)

theorem getD_lookup_roots (trie : PatternTrie α) (predicate : String) :
    (trie.roots.lookup predicate).getD [] = (trie.arities predicate).roots := by
  rw [roots, AssocList.lookup_map_id]
  exact Option.getD_map Arities.roots [] _

/-- Storing a value in a trie is never given up, and does what it does with the types. -/
theorem store?_roots (trie : PatternTrie α) (a : Atom) (v : α) :
    trie.roots.store? v a = some (trie.insert a v).roots := by
  have hroot : ((trie.arities a.predicate).roots.lookup a.arity).getD (Node.empty a.arity) =
      Level.node a.terms.length (trie.root a) := Arities.lookup_roots _ _
  rw [Roots.store?, getD_lookup_roots, hroot, Level.store?_node, Option.map_some, roots, roots, insert,
    AssocList.map_upsert, Arities.roots_update]
  rfl

/-- No insertion of any history is given up. -/
theorem storeAll?_eq (entries : List (Atom × α)) :
    Roots.storeAll? [] entries = some (ofEntries entries).roots := by
  induction entries using List.reverseRecOn with
  | nil => rfl
  | append_singleton entries entry ih =>
    obtain ⟨a, v⟩ := entry
    rw [Roots.storeAll?] at ih ⊢
    rw [List.foldlM_append, ih, ofEntries_append_singleton, ← store?_roots]
    simp

/-- Under every number of arguments, all leaves are exactly so far down. -/
theorem uniform_roots (trie : PatternTrie α) {predicate : String} {arities : List (Nat × Node α)}
    (harities : (predicate, arities) ∈ trie.roots) {n : Nat} {root : Node α}
    (hroot : (n, root) ∈ arities) : root.Uniform n := by
  obtain ⟨entry, -, hentry⟩ := List.mem_map.mp harities
  obtain rfl : entry.2.roots = arities := congrArg Prod.snd hentry
  obtain ⟨level, -, hlevel⟩ := List.mem_map.mp hroot
  obtain ⟨rfl, rfl⟩ := Prod.mk.inj hlevel
  exact Level.uniform_node level.1 level.2

end PatternTrie

/-! ### Patterns that are not told apart -/

/-- Two terms are not told apart if both are variables, or both are the same constant. -/
inductive Term.Agrees : Term → Term → Prop
  /-- Any two variables agree. -/
  | var (x y : String) : Agrees (.var x) (.var y)
  /-- A constant agrees with itself. -/
  | const (c : String) : Agrees (.const c) (.const c)

theorem Key.ofTerm_eq_iff {s t : Term} : Key.ofTerm s = Key.ofTerm t ↔ s.Agrees t := by
  constructor
  · cases s with
    | var x =>
      cases t with
      | var y => exact fun _ => .var x y
      | const d => exact Key.noConfusion
    | const c =>
      cases t with
      | var y => exact Key.noConfusion
      | const d => rintro ⟨⟩; exact .const c
  · rintro (_ | _) <;> rfl

instance (s t : Term) : Decidable (s.Agrees t) := decidable_of_iff _ Key.ofTerm_eq_iff

theorem Atom.samePattern_iff {p q : Atom} :
    p.SamePattern q ↔ p.predicate = q.predicate ∧ List.Forall₂ Term.Agrees p.terms q.terms := by
  rw [SamePattern, path, path, Key.path, Key.path, ← List.forall₂_eq_eq_eq,
    List.forall₂_map_left_iff, List.forall₂_map_right_iff]
  simp only [Key.ofTerm_eq_iff]

namespace PatternTrie

variable {α : Type}

/-- Every value is stored, where it can be found, and no two patterns are mixed up. Without types, no
insertion of a history is given up, and under every number of arguments all leaves are exactly so far
down. Under a pattern stand the values that were inserted under an atom with this predicate whose terms
agree, one by one, with those of the pattern, in the order of insertion and as often as they were
inserted. The list of all values has one value equal to each one that was inserted, and no others. -/
theorem insertions_kept_apart [BEq α] [EquivBEq α] (entries : List (Atom × α)) :
    (Roots.storeAll? [] entries = some (ofEntries entries).roots ∧
      ∀ predicate arities, (predicate, arities) ∈ (ofEntries entries).roots →
        ∀ n root, (n, root) ∈ arities → root.Uniform n) ∧
    (∀ a : Atom, (ofEntries entries).valuesAt a =
      (entries.filter fun e => e.1.predicate = a.predicate ∧
        List.Forall₂ Term.Agrees e.1.terms a.terms).map Prod.snd) ∧
    (∀ e ∈ entries, (ofEntries entries).values.countP (· == e.2) = 1) ∧
    ∀ v ∈ (ofEntries entries).values, ∃ e ∈ entries, e.2 = v := by
  have hcontents : ∀ v, v ∈ (ofEntries entries).contents ↔ ∃ e ∈ entries, e.2 = v := fun v => by
    rw [(contents_ofEntries entries).mem_iff, List.mem_map]
  refine ⟨⟨storeAll?_eq entries, fun predicate arities harities n root hroot => ?shape⟩,
    fun a => ?found, fun e he => ?once, fun v hv => ?inserted⟩
  case shape => exact uniform_roots _ harities hroot
  case found =>
    rw [valuesAt_ofEntries]
    simp only [Atom.samePattern_iff]
  case once => exact countP_eraseDups ((hcontents e.2).mpr ⟨e, he, rfl⟩)
  case inserted => exact (hcontents v).mp ((eraseDups_sublist _).subset hv)

/-- Insertions under two arities and under constants and variables by turns. -/
theorem insertions_kept_apart_by_turns :
    EquivBEq Nat ∧
      let p (terms : List Term) : Atom := ⟨"p", terms⟩
      let trie := ofEntries [(p [.var "?x"], 1), (p [.const "a"], 2), (p [.var "?x", .var "?x"], 3),
        (p [.var "?y"], 2), (p [.const "?x"], 4), (p [.var "?x"], 1)]
      trie.valuesAt (p [.var "?z"]) = [1, 2, 1] ∧ trie.values.countP (· == 2) = 1 := by
  refine ⟨inferInstance, ?_⟩
  intro p trie
  obtain ⟨-, hfound, honce, -⟩ := insertions_kept_apart (α := Nat) [(p [.var "?x"], 1),
    (p [.const "a"], 2), (p [.var "?x", .var "?x"], 3), (p [.var "?y"], 2), (p [.const "?x"], 4),
    (p [.var "?x"], 1)]
  exact ⟨(hfound _).trans (by decide), honce (p [.const "a"], 2) (by simp)⟩

end PatternTrie

end Datalog
