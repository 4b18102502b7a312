import Datalog.Grammar.Sign
import Datalog.Rule

/-!
# Phrases of the written language

Atoms, rules and queries, and the lists that they are made of. A list is read as far as it goes:
whatever does not continue it is left, together with the comma before it, to what comes next. So a
fault inside a list is found by the mark that should have followed the list, and it is reported there.

## Main definitions

* `readMore`, `readSeparated` — lists whose elements are separated by commas
* `readAtom`, `readBody`, `readRule`, `readRules`, `readQuery` — the readers of phrases

## Main results

* `readAtom_shorter`, `readRule_shorter` — reading goes forward, so lists of phrases end
-/

namespace Datalog.Grammar

/-! ### Lists -/

/-- Reads the elements that follow, each after a comma. An element that cannot be read ends the list
before its comma. -/
def readMore {α : Type} (read : List Char → Reading α)
    (shorter : ∀ {s a rest}, read s = .ok (a, rest) → rest.length < s.length)
    (s : List Char) : List α × List Char :=
  match hcomma : expect [','] s with
  | .error _ => ([], s)
  | .ok afterComma =>
    match hread : read afterComma with
    | .error _ => ([], s)
    | .ok (a, rest) =>
      have := Nat.lt_trans (shorter hread) (expect_shorter (List.cons_ne_nil _ _) hcomma)
      let more := readMore read shorter rest
      (a :: more.1, more.2)
termination_by s.length

/-- Reads elements separated by commas, or none at all. -/
def readSeparated {α : Type} (read : List Char → Reading α)
    (shorter : ∀ {s a rest}, read s = .ok (a, rest) → rest.length < s.length)
    (s : List Char) : List α × List Char :=
  match read s with
  | .error _ => ([], s)
  | .ok (a, rest) =>
    let more := readMore read shorter rest
    (a :: more.1, more.2)

theorem length_readMore_le {α : Type} (read : List Char → Reading α)
    (shorter : ∀ {s a rest}, read s = .ok (a, rest) → rest.length < s.length) (s : List Char) :
    (readMore read shorter s).2.length ≤ s.length := by
  fun_induction readMore read shorter s with
  | case1 s => exact Nat.le_refl _
  | case2 s => exact Nat.le_refl _
  | case3 s afterComma hcomma a rest hread _ more ih =>
    have := shorter hread
    have := expect_shorter (by simp) hcomma
    exact Nat.le_trans ih (by omega)

theorem length_readSeparated_le {α : Type} (read : List Char → Reading α)
    (shorter : ∀ {s a rest}, read s = .ok (a, rest) → rest.length < s.length) (s : List Char) :
    (readSeparated read shorter s).2.length ≤ s.length := by
  rw [readSeparated]
  split
  · exact Nat.le_refl _
  · rename_i hread
    exact Nat.le_trans (length_readMore_le read shorter _) (Nat.le_of_lt (shorter hread))

/-! ### Atoms, rules and programs -/

/-- Reads an atom. -/
def readAtom (s : List Char) : Reading Atom :=
  match spaced readWord s with
  | .error rest => .error rest
  | .ok (predicate, afterPredicate) =>
    match expect ['('] afterPredicate with
    | .error rest => .error rest
    | .ok afterOpening =>
      let terms := readSeparated (spaced readTerm) (spaced_shorter readTerm_shorter) afterOpening
      match expect [')'] terms.2 with
      | .error rest => .error rest
      | .ok rest => .ok ({ predicate, terms := terms.1 }, rest)

theorem readAtom_shorter {s rest : List Char} {a : Atom} (h : readAtom s = .ok (a, rest)) :
    rest.length < s.length := by
  unfold readAtom at h
  split at h
  · simp at h
  split at h
  · simp at h
  simp only at h
  split at h
  · simp at h
  · rename_i hpredicate _ _ hopening _ _ hclosing
    simp only [Except.ok.injEq, Prod.mk.injEq] at h
    have := spaced_shorter readWord_shorter hpredicate
    have := expect_shorter (by simp) hopening
    have := expect_shorter (by simp) hclosing
    have := length_readSeparated_le (spaced readTerm) (spaced_shorter readTerm_shorter)
    rw [← h.2]
    exact Nat.lt_trans ‹_› (Nat.lt_of_le_of_lt (this _) (by omega))

/-- Reads the body of a rule. If no body can be read there is none, and the `:-` is left. -/
def readBody (s : List Char) : List Atom × List Char :=
  match expect [':', '-'] s with
  | .error _ => ([], s)
  | .ok afterMark =>
    match readAtom afterMark with
    | .error _ => ([], s)
    | .ok (a, rest) =>
      let more := readMore readAtom readAtom_shorter rest
      (a :: more.1, more.2)

theorem length_readBody_le (s : List Char) : (readBody s).2.length ≤ s.length := by
  rw [readBody]
  split
  · exact Nat.le_refl _
  split
  · exact Nat.le_refl _
  · rename_i hmark _ _ _ hatom
    have := expect_shorter (by simp) hmark
    have := readAtom_shorter hatom
    exact Nat.le_trans (length_readMore_le readAtom readAtom_shorter _) (by omega)

/-- Reads a rule. -/
def readRule (s : List Char) : Reading Rule :=
  match readAtom s with
  | .error rest => .error rest
  | .ok (head, afterHead) =>
    let body := readBody afterHead
    match expect ['.'] body.2 with
    | .error rest => .error rest
    | .ok rest => .ok ({ head, body := body.1 }, rest)

theorem readRule_shorter {s rest : List Char} {r : Rule} (h : readRule s = .ok (r, rest)) :
    rest.length < s.length := by
  unfold readRule at h
  split at h
  · simp at h
  simp only at h
  split at h
  · simp at h
  · rename_i hhead _ _ hpoint
    simp only [Except.ok.injEq, Prod.mk.injEq] at h
    have := readAtom_shorter hhead
    have := expect_shorter (by simp) hpoint
    rw [← h.2]
    exact Nat.lt_trans ‹_› (Nat.lt_of_le_of_lt (length_readBody_le _) ‹_›)

/-- Reads rules as long as there are any. -/
def readRules (s : List Char) : List Rule × List Char :=
  match hrule : readRule s with
  | .error _ => ([], s)
  | .ok (r, rest) =>
    have := readRule_shorter hrule
    let more := readRules rest
    (r :: more.1, more.2)
termination_by s.length

/-- Reads a query. -/
def readQuery (s : List Char) : Reading Atom :=
  match readAtom s with
  | .error rest => .error rest
  | .ok (a, afterAtom) =>
    match expect ['.'] afterAtom with
    | .error _ => .ok (a, afterAtom)
    | .ok rest => .ok (a, rest)

end Datalog.Grammar
