import Datalog.Proofs.AssocList
import Datalog.Proofs.PatternTrie.History
import Datalog.Proofs.Renaming

/-!
# Pattern tries under new names

Two tries have the same shape if they differ in the names at their branches, and in the values at the
ends, as a renaming says. Branches stand in the order in which they were first used and not in an
order of their names, and a variable is told from a constant by its kind. So the same insertions under
new names lead to tries of the same shape, and the searches for the same pattern under new names find
corresponding values in the same order.

## Main definitions

* `Key.rename` — what becomes of a branch
* `Level.Renamed`, `Arities.Renamed`, `PatternTrie.Renamed` — tries of the same shape

## Main results

* `PatternTrie.Renamed.insert`, `PatternTrie.Renamed.insertAll` — the same insertions under new names
* `PatternTrie.Renamed.generalizations`, `PatternTrie.Renamed.specializations`,
  `PatternTrie.Renamed.contents` — what is found
-/

namespace Datalog

variable {α β : Type} {ρ : Renaming} {f : α → β}

/-- Collecting from two lists, entry by entry, when corresponding entries yield corresponding
values. -/
theorem flatMap_eq_map_flatMap {γ γ' : Type} {R : γ → γ' → Prop} {search : γ → List α}
    {search' : γ' → List β} (hsearch : ∀ {e e'}, R e e' → search' e' = (search e).map f)
    {entries : List γ} {entries' : List γ'} (h : List.Forall₂ R entries entries') :
    entries'.flatMap search' = (entries.flatMap search).map f := by
  induction h with
  | nil => rfl
  | cons hentry _ ih => rw [List.flatMap_cons, List.flatMap_cons, List.map_append, hsearch hentry, ih]

/-! ### Branches -/

/-- The branch under new names. The wildcard has no name. -/
def Key.rename (ρ : Renaming) : Key → Key
  | .wildcard => .wildcard
  | .const c => .const (ρ.const c)

theorem Key.ofTerm_rename (ρ : Renaming) (t : Term) :
    Key.ofTerm (t.rename ρ) = (Key.ofTerm t).rename ρ := by
  cases t <;> rfl

@[simp] theorem Key.isWildcard_rename (ρ : Renaming) (key : Key) :
    (key.rename ρ).isWildcard = key.isWildcard := by
  cases key <;> rfl

theorem Key.rename_injective (ρ : Renaming) : Function.Injective (Key.rename ρ) := by
  intro key key' h
  cases key with
  | wildcard =>
    cases key' with
    | wildcard => rfl
    | const d => simp [rename] at h
  | const c =>
    cases key' with
    | wildcard => simp [rename] at h
    | const d => exact congrArg const (ρ.const_injective (Key.const.inj h))

/-! ### Levels -/

namespace Level

/-- The second level has the branches of the first, in the same order and under new names, and at the
ends what `f` makes of its values. The levels are given with their numbers of arguments, as an
argument list has the same number of arguments under new names, but not by definition. -/
def Renamed (ρ : Renaming) (f : α → β) : (n m : Nat) → Level α n → Level β m → Prop
  | 0, 0, values, values' => (show List β from values') = List.map f values
  | n + 1, m + 1, children, children' =>
    AssocList.Corresponds (Key.rename ρ) (Renamed ρ f n m) children children'
  | _, _, _, _ => False

theorem renamed_empty {n m : Nat} (h : n = m) : Renamed ρ f n m (empty n) (empty m) := by
  subst h
  cases n with
  | zero => exact (List.map_nil).symm
  | succ n => exact List.Forall₂.nil

namespace Renamed

theorem insert (v : α) {terms : List Term} {level : Level α terms.length}
    {level' : Level β (terms.map (Term.rename ρ)).length} (h : Renamed ρ f _ _ level level') :
    Renamed ρ f _ _ (Level.insert v terms level)
      (Level.insert (f v) (terms.map (Term.rename ρ)) level') := by
  induction terms with
  | nil =>
    have hvalues : level' = List.map f level := h
    subst hvalues
    exact (List.map_append : List.map f (List.append level [v]) = _).symm
  | cons t ts ih =>
    have hchild : ∀ {child child'}, Option.Rel (Renamed ρ f _ _) child child' →
        Renamed ρ f _ _ (Level.insert v ts (child.getD (empty _)))
          (Level.insert (f v) (ts.map (Term.rename ρ)) (child'.getD (empty _))) := by
      rintro _ _ (hchild | -)
      · exact ih hchild
      -- A new branch starts from nothing on both sides.
      · exact ih (renamed_empty (List.length_map (Term.rename ρ)).symm)
    have hchildren :=
      AssocList.Corresponds.upsert (Key.rename_injective ρ) h (Key.ofTerm t) hchild
    rwa [← Key.ofTerm_rename] at hchildren

/-- Corresponding searches in corresponding branches. -/
theorem inBranch {n m : Nat} {search : Level α n → List α} {search' : Level β m → List β}
    (hsearch : ∀ {child child'}, Renamed ρ f n m child child' →
      search' child' = (search child).map f)
    {children : List (Key × Level α n)} {children' : List (Key × Level β m)}
    (h : Renamed ρ f (n + 1) (m + 1) children children') (key : Key) :
    Level.inBranch (key.rename ρ) search' children' = (Level.inBranch key search children).map f := by
  rw [Level.inBranch, Level.inBranch]
  obtain ⟨hnone, hnone'⟩ | ⟨child, child', hsome, hsome', hchild⟩ :=
    AssocList.Corresponds.lookup (Key.rename_injective ρ) h key
  · rw [hnone, hnone']
    rfl
  · rw [hsome, hsome']
    exact hsearch hchild

theorem generalizations {terms : List Term} {level : Level α terms.length}
    {level' : Level β (terms.map (Term.rename ρ)).length} (h : Renamed ρ f _ _ level level') :
    Level.generalizations (terms.map (Term.rename ρ)) level' =
      (Level.generalizations terms level).map f := by
  induction terms with
  | nil => exact h
  | cons t ts ih =>
    cases t with
    | var x => exact inBranch ih h .wildcard
    | const c =>
      have hboth := congrArg₂ (· ++ ·) (inBranch ih h .wildcard) (inBranch ih h (.const c))
      exact hboth.trans List.map_append.symm

theorem specializations {terms : List Term} {level : Level α terms.length}
    {level' : Level β (terms.map (Term.rename ρ)).length} (h : Renamed ρ f _ _ level level') :
    Level.specializations (terms.map (Term.rename ρ)) level' =
      (Level.specializations terms level).map f := by
  induction terms with
  | nil => exact h
  | cons t ts ih =>
    cases t with
    | const c => exact inBranch ih h (.const c)
    | var x =>
      -- The branches of constants are the same ones on both sides, as no constant becomes a wildcard.
      have hconstants := List.rel_filter (p := fun entry : Key × Level α ts.length =>
          !entry.1.isWildcard)
        (q := fun entry : Key × Level β (ts.map (Term.rename ρ)).length => !entry.1.isWildcard)
        (fun entry entry' hentry => by simp [hentry.1]) h
      exact flatMap_eq_map_flatMap (fun hentry => ih hentry.2) (List.rel_reverse hconstants)

theorem contents {n m : Nat} {level : Level α n} {level' : Level β m}
    (h : Renamed ρ f n m level level') : Level.contents m level' = (Level.contents n level).map f := by
  induction n generalizing m with
  | zero =>
    cases m with
    | zero => exact h
    | succ m => exact h.elim
  | succ n ih =>
    cases m with
    | zero => exact h.elim
    | succ m => exact flatMap_eq_map_flatMap (fun hentry => ih hentry.2) h

end Renamed

end Level

/-! ### Arities -/

namespace Arities

/-- The second list has levels of the same shape for the same arities in the same order. -/
def Renamed (ρ : Renaming) (f : α → β) : Arities α → Arities β → Prop :=
  List.Forall₂ fun e e' => e.1 = e'.1 ∧ Level.Renamed ρ f e.1 e'.1 e.2 e'.2

namespace Renamed

variable {arities : Arities α} {arities' : Arities β}

theorem level (h : Renamed ρ f arities arities') {n m : Nat} (hnm : n = m) :
    Level.Renamed ρ f n m (arities.level n) (arities'.level m) := by
  subst hnm
  induction h with
  | nil => exact Level.renamed_empty rfl
  | @cons e e' _ _ hentry _ ih =>
    obtain ⟨k, l⟩ := e
    obtain ⟨k', l'⟩ := e'
    obtain ⟨hk, hl⟩ := hentry
    obtain rfl : k = k' := hk
    by_cases hn : k = n
    · subst hn
      simpa [Arities.level] using hl
    · simpa [Arities.level, hn] using ih

/-- Changes that keep the shape of a level, for one arity. -/
theorem update (h : Renamed ρ f arities arities') {n m : Nat} (hnm : n = m)
    {change : Level α n → Level α n} {change' : Level β m → Level β m}
    (hchange : ∀ {l l'}, Level.Renamed ρ f n m l l' → Level.Renamed ρ f n m (change l) (change' l')) :
    Renamed ρ f (arities.update n change) (arities'.update m change') := by
  subst hnm
  induction h with
  | nil => exact .cons ⟨rfl, hchange (Level.renamed_empty rfl)⟩ .nil
  | @cons e e' rest rest' hentry hrest ih =>
    obtain ⟨k, l⟩ := e
    obtain ⟨k', l'⟩ := e'
    obtain ⟨hk, hl⟩ := hentry
    obtain rfl : k = k' := hk
    by_cases hn : k = n
    · subst hn
      simp only [Arities.update, dite_true]
      exact .cons ⟨rfl, hchange hl⟩ hrest
    · simp only [Arities.update, hn, dite_false]
      exact .cons ⟨rfl, hl⟩ ih

theorem contents (h : Renamed ρ f arities arities') :
    arities'.contents = arities.contents.map f :=
  flatMap_eq_map_flatMap (fun hentry => hentry.2.contents) h

end Renamed

end Arities

/-! ### Tries -/

namespace PatternTrie

/-- The second trie has levels of the same shape for the same predicates, under new names, in the same
order. -/
def Renamed (ρ : Renaming) (f : α → β) (trie : PatternTrie α) (trie' : PatternTrie β) : Prop :=
  AssocList.Corresponds ρ.predicate (Arities.Renamed ρ f) trie.predicates trie'.predicates

namespace Renamed

variable {trie : PatternTrie α} {trie' : PatternTrie β}

/-- Storing corresponding values under an atom and its renaming. -/
theorem insert (h : Renamed ρ f trie trie') (a : Atom) (v : α) :
    Renamed ρ f (trie.insert a v) (trie'.insert (a.rename ρ) (f v)) := by
  refine AssocList.Corresponds.upsert ρ.predicate_injective h a.predicate fun harities => ?_
  have hlength : a.terms.length = (a.rename ρ).terms.length := by simp
  cases harities with
  | some harities => exact harities.update hlength fun hlevel => hlevel.insert v
  | none => exact Arities.Renamed.update .nil hlength fun hlevel => hlevel.insert v

/-- The same insertions under new names lead to tries of the same shape. -/
theorem insertAll (h : Renamed ρ f trie trie') (entries : List (Atom × α)) :
    Renamed ρ f (trie.insertAll entries)
      (trie'.insertAll (entries.map fun e => (e.1.rename ρ, f e.2))) := by
  induction entries generalizing trie trie' with
  | nil => exact h
  | cons entry rest ih => exact ih (h.insert entry.1 entry.2)

theorem root (h : Renamed ρ f trie trie') (a : Atom) :
    Level.Renamed ρ f a.terms.length (a.rename ρ).terms.length (trie.root a)
      (trie'.root (a.rename ρ)) := by
  have hlength : a.terms.length = (a.rename ρ).terms.length := by simp
  rw [PatternTrie.root, PatternTrie.root, arities, arities, Atom.predicate_rename]
  obtain ⟨hnone, hnone'⟩ | ⟨levels, levels', hsome, hsome', harities⟩ :=
    AssocList.Corresponds.lookup ρ.predicate_injective h a.predicate
  · rw [hnone, hnone']
    exact Level.renamed_empty hlength
  · rw [hsome, hsome']
    exact harities.level hlength

theorem generalizations (h : Renamed ρ f trie trie') (a : Atom) :
    trie'.generalizations (a.rename ρ) = (trie.generalizations a).map f :=
  (h.root a).generalizations

theorem specializations (h : Renamed ρ f trie trie') (a : Atom) :
    trie'.specializations (a.rename ρ) = (trie.specializations a).map f :=
  (h.root a).specializations

theorem contents (h : Renamed ρ f trie trie') : trie'.contents = trie.contents.map f :=
  flatMap_eq_map_flatMap (fun hentry => hentry.2.contents) h

end Renamed

/-- A constant that is written like a variable, or not at all, is stored and found as a constant. -/
example :
    let p (t : Term) : Atom := ⟨"p", [t]⟩
    let trie := ofEntries [(p (.var "_"), 0), (p (.const "_"), 1), (p (.const ""), 2)]
    trie.generalizations (p (.const "_")) = [0, 1] ∧ trie.generalizations (p (.var "_")) = [0] ∧
      trie.specializations (p (.const "")) = [2] ∧ trie.specializations (p (.var "")) = [2, 1] := by
  decide

end PatternTrie

end Datalog
