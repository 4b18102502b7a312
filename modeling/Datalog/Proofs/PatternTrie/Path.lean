import Datalog.PatternTrie.Level
import Mathlib.Data.List.Forall2
import Mathlib.Data.List.Nodup

/-!
# Paths through a level

A value is stored at the end of a path, which has one key for each argument. What a level holds is
told path by path: inserting a value changes the values of one path and of no other. Both searches
are then the values of certain paths, one path after the other. Which paths a generalisation visits
depends on the arguments alone; a specialisation visits paths that are in use.

## Main definitions

* `Level.valuesUnder` — the values stored at the end of a path
* `Level.generalPaths`, `Level.specialPaths` — the paths visited by the two searches, in order
* `Level.Distinct` — no branch is kept twice

## Main results

* `Level.valuesUnder_insert` — inserting changes one path
* `Level.generalizations_eq`, `Level.specializations_eq` — the searches, path by path
* `Level.mem_generalPaths`, `Level.refines_of_mem_specialPaths`, `Level.mem_specialPaths_of_refines` —
  which paths are visited
-/

namespace Datalog

/-- A key covers a term: every term is covered by a wildcard, and a constant by itself. -/
def Key.Covers (key : Key) (t : Term) : Prop := key = .wildcard ∨ key = Key.ofTerm t

/-- A key refines a term: a constant refines every variable, and itself. -/
def Key.Refines (key : Key) (t : Term) : Prop :=
  key ≠ .wildcard ∧ (Key.ofTerm t = .wildcard ∨ key = Key.ofTerm t)

/-- The path to what is stored under these arguments. -/
def Key.path (terms : List Term) : List Key := terms.map Key.ofTerm

@[simp] theorem Key.path_nil : Key.path [] = [] := rfl

@[simp] theorem Key.path_cons (t : Term) (ts : List Term) :
    Key.path (t :: ts) = Key.ofTerm t :: Key.path ts := rfl

@[simp] theorem Key.length_path (terms : List Term) : (Key.path terms).length = terms.length :=
  List.length_map _

theorem AssocList.mem_iff_lookup_eq_some {κ β : Type} [DecidableEq κ] {l : List (κ × β)}
    (h : (l.map Prod.fst).Nodup) {k : κ} {b : β} : (k, b) ∈ l ↔ l.lookup k = some b := by
  induction l with
  | nil => simp
  | cons entry rest ih =>
    obtain ⟨k₀, b₀⟩ := entry
    rw [List.map_cons, List.nodup_cons] at h
    by_cases hk : k = k₀
    · subst hk
      have absent : (k, b) ∉ rest := fun hb => h.1 (List.mem_map.mpr ⟨_, hb, rfl⟩)
      simp [absent, eq_comm]
    · rw [List.lookup_cons, beq_false_of_ne hk]
      simp [hk, ih h.2]

namespace Level

variable {α : Type} {n : Nat}

theorem inBranch_eq_elim (key : Key) (search : Level α n → List α)
    (children : List (Key × Level α n)) :
    inBranch key search children = (children.lookup key).elim [] search := by
  rw [inBranch]
  cases children.lookup key <;> rfl

/-! ### The values of a path -/

/-- The values stored at the end of a path, and nothing for a path of another length. -/
def valuesUnder : (n : Nat) → List Key → Level α n → List α
  | 0, [], values => values
  | n + 1, key :: path, children => inBranch key (valuesUnder n path) children
  | _, _, _ => []

@[simp] theorem valuesUnder_empty (n : Nat) (path : List Key) :
    valuesUnder n path (empty n : Level α n) = [] := by
  cases n <;> cases path <;> rfl

theorem valuesUnder_path (terms : List Term) (level : Level α terms.length) :
    valuesUnder terms.length (Key.path terms) level = valuesAt terms level := by
  induction terms with
  | nil => rfl
  | cons t ts ih => exact congrArg (inBranch (Key.ofTerm t) · level) (funext ih)

/-- Inserting a value adds it at the end of one path and leaves every other path as it was. -/
theorem valuesUnder_insert (v : α) (terms : List Term) (level : Level α terms.length)
    (path : List Key) :
    valuesUnder terms.length path (insert v terms level) =
      if path = Key.path terms then valuesUnder terms.length path level ++ [v]
      else valuesUnder terms.length path level := by
  induction terms generalizing path with
  | nil =>
    cases path with
    | nil => rfl
    | cons key path => rfl
  | cons t ts ih =>
    cases path with
    | nil => rfl
    | cons key path =>
      have step : ∀ children : List (Key × Level α ts.length),
          inBranch key (valuesUnder ts.length path) (AssocList.upsert (Key.ofTerm t)
              (fun child => insert v ts (child.getD (empty ts.length))) children) =
            if key :: path = Key.path (t :: ts) then
              inBranch key (valuesUnder ts.length path) children ++ [v]
            else inBranch key (valuesUnder ts.length path) children := by
        intro children
        simp only [inBranch_eq_elim, AssocList.lookup_upsert, Key.path_cons, List.cons.injEq]
        by_cases hkey : key = Key.ofTerm t
        · subst hkey
          rw [if_pos rfl, Option.elim_some, ih]
          -- A branch that is not there yet starts from the empty level, which has no values.
          cases children.lookup (Key.ofTerm t) <;> simp
        · simp [hkey]
      exact step level

/-! ### Generalisations -/

/-- The paths that a search for generalisations visits, in order. -/
def generalPaths : List Term → List (List Key)
  | [] => [[]]
  | .var _ :: ts => (generalPaths ts).map (.wildcard :: ·)
  | .const c :: ts => (generalPaths ts).map (.wildcard :: ·) ++ (generalPaths ts).map (.const c :: ·)

theorem inBranch_flatMap (key : Key) (paths : List (List Key)) (children : List (Key × Level α n)) :
    inBranch key (fun child => paths.flatMap fun path => valuesUnder n path child) children =
      (paths.map (key :: ·)).flatMap fun path => valuesUnder (n + 1) path children := by
  rw [List.flatMap_map]
  change _ = paths.flatMap fun path => inBranch key (valuesUnder n path) children
  simp only [inBranch_eq_elim]
  cases children.lookup key <;> simp

/-- A search for generalisations lists the values of its paths, one path after the other. -/
theorem generalizations_eq (terms : List Term) (level : Level α terms.length) :
    generalizations terms level =
      (generalPaths terms).flatMap fun path => valuesUnder terms.length path level := by
  induction terms with
  | nil => exact (List.append_nil _).symm
  | cons t ts ih =>
    have search : generalizations ts = fun child : Level α ts.length =>
        (generalPaths ts).flatMap fun path => valuesUnder ts.length path child := funext ih
    have branch : ∀ (key : Key) (children : List (Key × Level α ts.length)),
        inBranch key (generalizations ts) children =
          ((generalPaths ts).map (key :: ·)).flatMap
            fun path => valuesUnder (ts.length + 1) path children := by
      intro key children
      rw [search, inBranch_flatMap]
    -- A variable is only covered by the wildcard, a constant also by itself.
    cases t with
    | var x => exact branch .wildcard level
    | const c =>
      exact (congrArg₂ (· ++ ·) (branch .wildcard level) (branch (.const c) level)).trans
        List.flatMap_append.symm

theorem mem_generalPaths {terms : List Term} {path : List Key} :
    path ∈ generalPaths terms ↔ List.Forall₂ Key.Covers path terms := by
  induction terms generalizing path with
  | nil => simp [generalPaths]
  | cons t ts ih =>
    rw [List.forall₂_cons_right_iff]
    cases t <;> simp [generalPaths, ih, Key.Covers, Key.ofTerm, eq_comm, or_and_right, exists_or]

theorem nodup_generalPaths (terms : List Term) : (generalPaths terms).Nodup := by
  have under : ∀ (key : Key) {paths : List (List Key)}, paths.Nodup →
      (paths.map (key :: ·)).Nodup := fun key paths h =>
    h.map (List.cons_injective)
  induction terms with
  | nil => exact List.nodup_singleton _
  | cons t ts ih =>
    cases t with
    | var x => exact under .wildcard ih
    | const c =>
      refine List.nodup_append.mpr ⟨under .wildcard ih, under (.const c) ih, ?_⟩
      simp

/-! ### No branch twice -/

/-- Every level has at most one branch for a key. -/
def Distinct : (n : Nat) → Level α n → Prop
  | 0, _ => True
  | n + 1, children =>
    ((show List (Key × Level α n) from children).map Prod.fst).Nodup ∧
      ∀ key child, (show List (Key × Level α n) from children).lookup key = some child →
        Distinct n child

theorem distinct_empty (n : Nat) : Distinct n (empty n : Level α n) := by
  cases n with
  | zero => trivial
  | succ n => exact ⟨List.nodup_nil, fun key child h => by simp [empty] at h⟩

theorem distinct_insert (v : α) (terms : List Term) (level : Level α terms.length)
    (h : Distinct terms.length level) : Distinct terms.length (insert v terms level) := by
  induction terms with
  | nil => trivial
  | cons t ts ih =>
    have step : ∀ children : List (Key × Level α ts.length),
        (∀ key child, children.lookup key = some child → Distinct ts.length child) →
        ∀ key child, (AssocList.upsert (Key.ofTerm t)
            (fun child => insert v ts (child.getD (empty ts.length))) children).lookup key =
          some child → Distinct ts.length child := by
      intro children hchildren key child hchild
      rw [AssocList.lookup_upsert] at hchild
      split at hchild
      · rw [← Option.some.inj hchild]
        refine ih _ ?_
        -- The branch was there, or it starts empty.
        cases hold : children.lookup (Key.ofTerm t) with
        | none => exact distinct_empty _
        | some old => exact hchildren _ old hold
      · exact hchildren key child hchild
    exact ⟨AssocList.nodup_keys_upsert _ _ h.1, step level h.2⟩

/-! ### Specialisations -/

/-- The paths that a search for specialisations visits, in order. -/
def specialPaths : (terms : List Term) → Level α terms.length → List (List Key)
  | [], _ => [[]]
  | .const c :: ts, children =>
    ((show List (Key × Level α ts.length) from children).lookup (.const c)).elim []
      fun child => (specialPaths ts child).map (.const c :: ·)
  | .var _ :: ts, children =>
    ((show List (Key × Level α ts.length) from children).filter
      fun (key, _) => !key.isWildcard).reverse.flatMap
        fun (key, child) => (specialPaths ts child).map (key :: ·)

section Equations

variable (ts : List Term) (children : List (Key × Level α ts.length))

theorem specializations_const (c : String) :
    specializations (.const c :: ts) children =
      (children.lookup (.const c)).elim [] (specializations ts) :=
  inBranch_eq_elim _ _ _

theorem specializations_var (x : String) :
    specializations (.var x :: ts) children =
      (children.filter fun (key, _) => !key.isWildcard).reverse.flatMap
        fun (_, child) => specializations ts child := rfl

theorem specialPaths_const (c : String) :
    specialPaths (.const c :: ts) children =
      (children.lookup (.const c)).elim []
        fun child => (specialPaths ts child).map (.const c :: ·) := rfl

theorem specialPaths_var (x : String) :
    specialPaths (.var x :: ts) children =
      (children.filter fun (key, _) => !key.isWildcard).reverse.flatMap
        fun (key, child) => (specialPaths ts child).map (key :: ·) := rfl

end Equations

/-- In the branch of a key, the values of a path are those of the path that starts with the key. -/
theorem flatMap_valuesUnder_child {children : List (Key × Level α n)} {key : Key}
    {child : Level α n} (h : children.lookup key = some child) (paths : List (List Key)) :
    (paths.flatMap fun path => valuesUnder n path child) =
      (paths.map (key :: ·)).flatMap fun path => valuesUnder (n + 1) path children := by
  rw [List.flatMap_map]
  change _ = paths.flatMap fun path => inBranch key (valuesUnder n path) children
  simp only [inBranch_eq_elim, h, Option.elim_some]

/-- The branches that a variable is refined by are found under their keys. -/
theorem lookup_of_mem_branches {children : List (Key × Level α n)} (h : Distinct (n + 1) children)
    {entry : Key × Level α n}
    (hentry : entry ∈ (children.filter fun (key, _) => !key.isWildcard).reverse) :
    children.lookup entry.1 = some entry.2 :=
  (AssocList.mem_iff_lookup_eq_some h.1).mp (List.mem_filter.mp (List.mem_reverse.mp hentry)).1

/-- A search for specialisations lists the values of its paths, one path after the other. -/
theorem specializations_eq (terms : List Term) (level : Level α terms.length)
    (h : Distinct terms.length level) :
    specializations terms level =
      (specialPaths terms level).flatMap fun path => valuesUnder terms.length path level := by
  induction terms with
  | nil => exact (List.append_nil _).symm
  | cons t ts ih =>
    cases t with
    | const c =>
      have step : ∀ children : List (Key × Level α ts.length),
          Distinct (ts.length + 1) children →
          specializations (.const c :: ts) children =
            (specialPaths (.const c :: ts) children).flatMap
              fun path => valuesUnder (ts.length + 1) path children := by
        intro children hdistinct
        rw [specializations_const, specialPaths_const]
        cases hchild : children.lookup (.const c) with
        | none => rfl
        | some child =>
          exact (ih child (hdistinct.2 _ child hchild)).trans (flatMap_valuesUnder_child hchild _)
      exact step level h
    | var x =>
      have step : ∀ children : List (Key × Level α ts.length),
          Distinct (ts.length + 1) children →
          specializations (.var x :: ts) children =
            (specialPaths (.var x :: ts) children).flatMap
              fun path => valuesUnder (ts.length + 1) path children := by
        intro children hdistinct
        rw [specializations_var, specialPaths_var, List.flatMap_assoc]
        refine List.flatMap_congr fun entry hentry => ?_
        have hchild := lookup_of_mem_branches hdistinct hentry
        exact (ih entry.2 (hdistinct.2 _ _ hchild)).trans (flatMap_valuesUnder_child hchild _)
      exact step level h

/-- Every visited path refines the arguments. -/
theorem refines_of_mem_specialPaths {terms : List Term} {level : Level α terms.length}
    {path : List Key} (h : path ∈ specialPaths terms level) : List.Forall₂ Key.Refines path terms := by
  induction terms generalizing path with
  | nil =>
    rw [specialPaths, List.mem_singleton] at h
    exact h ▸ List.Forall₂.nil
  | cons t ts ih =>
    cases t with
    | const c =>
      have step : ∀ children : List (Key × Level α ts.length),
          path ∈ specialPaths (.const c :: ts) children →
          List.Forall₂ Key.Refines path (.const c :: ts) := by
        intro children h
        rw [specialPaths_const] at h
        cases hchild : children.lookup (.const c) with
        | none => simp [hchild] at h
        | some child =>
          rw [hchild, Option.elim_some] at h
          obtain ⟨rest, hrest, rfl⟩ := List.mem_map.mp h
          exact .cons ⟨Key.noConfusion, Or.inr rfl⟩ (ih hrest)
      exact step level h
    | var x =>
      have step : ∀ children : List (Key × Level α ts.length),
          path ∈ specialPaths (.var x :: ts) children →
          List.Forall₂ Key.Refines path (.var x :: ts) := by
        intro children h
        rw [specialPaths_var] at h
        obtain ⟨entry, hentry, h⟩ := List.mem_flatMap.mp h
        obtain ⟨rest, hrest, rfl⟩ := List.mem_map.mp h
        have hkey := (List.mem_filter.mp (List.mem_reverse.mp hentry)).2
        refine .cons ⟨fun hwildcard => ?_, Or.inl rfl⟩ (ih hrest)
        simp [hwildcard, Key.isWildcard] at hkey
      exact step level h

/-- A path that refines the arguments is visited if something is stored at its end. -/
theorem mem_specialPaths_of_refines {terms : List Term} {level : Level α terms.length}
    {path : List Key} (hdistinct : Distinct terms.length level)
    (h : List.Forall₂ Key.Refines path terms)
    (hvalues : valuesUnder terms.length path level ≠ []) : path ∈ specialPaths terms level := by
  induction terms generalizing path with
  | nil =>
    cases h
    exact List.mem_singleton_self _
  | cons t ts ih =>
    cases h with
    | @cons key _ rest _ hkey hrest =>
      have step : ∀ children : List (Key × Level α ts.length), Distinct (ts.length + 1) children →
          inBranch key (valuesUnder ts.length rest) children ≠ [] →
          key :: rest ∈ specialPaths (t :: ts) children := by
        intro children hchildren hfound
        rw [inBranch_eq_elim] at hfound
        cases hchild : children.lookup key with
        | none => simp [hchild] at hfound
        | some child =>
          rw [hchild, Option.elim_some] at hfound
          have hmem := ih (hchildren.2 key child hchild) hrest hfound
          cases t with
          | const c =>
            obtain rfl : key = .const c := hkey.2.resolve_left Key.noConfusion
            rw [specialPaths_const, hchild, Option.elim_some]
            exact List.mem_map.mpr ⟨rest, hmem, rfl⟩
          | var x =>
            have hconst : key.isWildcard = false := by
              cases key with
              | wildcard => exact absurd rfl hkey.1
              | const c => rfl
            rw [specialPaths_var]
            refine List.mem_flatMap.mpr ⟨(key, child), ?_, List.mem_map.mpr ⟨rest, hmem, rfl⟩⟩
            rw [List.mem_reverse, List.mem_filter]
            exact ⟨(AssocList.mem_iff_lookup_eq_some hchildren.1).mpr hchild, by simp [hconst]⟩
      exact step level hdistinct hvalues

theorem nodup_specialPaths {terms : List Term} {level : Level α terms.length}
    (h : Distinct terms.length level) : (specialPaths terms level).Nodup := by
  induction terms with
  | nil => exact List.nodup_singleton _
  | cons t ts ih =>
    cases t with
    | const c =>
      have step : ∀ children : List (Key × Level α ts.length), Distinct (ts.length + 1) children →
          (specialPaths (.const c :: ts) children).Nodup := by
        intro children hdistinct
        rw [specialPaths_const]
        cases hchild : children.lookup (.const c) with
        | none => exact List.nodup_nil
        | some child => exact (ih (hdistinct.2 _ child hchild)).map List.cons_injective
      exact step level h
    | var x =>
      have step : ∀ children : List (Key × Level α ts.length), Distinct (ts.length + 1) children →
          (specialPaths (.var x :: ts) children).Nodup := by
        intro children hdistinct
        rw [specialPaths_var, List.nodup_flatMap]
        constructor
        · intro entry hentry
          have hchild := lookup_of_mem_branches hdistinct hentry
          exact (ih (hdistinct.2 _ _ hchild)).map List.cons_injective
        -- Paths of different branches differ in their first key.
        · have hkeys : children.Pairwise fun a b => a.1 ≠ b.1 := List.pairwise_map.mp hdistinct.1
          refine List.pairwise_reverse.mpr ((hkeys.sublist List.filter_sublist).imp ?_)
          intro a b hne path hb ha
          obtain ⟨_, _, rfl⟩ := List.mem_map.mp hb
          obtain ⟨_, _, hsame⟩ := List.mem_map.mp ha
          exact hne (List.cons.inj hsame).1
      exact step level h

end Level

end Datalog
