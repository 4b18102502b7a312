import Datalog.Term

/-!
# Signs of the written language

The smallest parts of a written program: words, terms and marks, with the blanks that may stand
between them. A reader takes what it reads from the front of a text. If it stops, it tells where, by
what remains of the text.

## Main definitions

* `isBlank`, `isWordChar` — the two classes of characters
* `Reading` — what a reader returns
* `readWord`, `readTerm` — the readers of words and terms
* `spaced`, `expect` — reading, and passing over a mark, with blanks before and after

## Main results

* `readWord_shorter`, `readTerm_shorter`, `expect_shorter` — reading goes forward
-/

namespace Datalog.Grammar

/-! ### Characters -/

/-- The characters that may stand between signs: space, tab, carriage return and line feed. -/
def isBlank (c : Char) : Bool := c == ' ' || c == '\t' || c == '\r' || c == '\n'

/-- The characters of words: letters and digits of ASCII, and the underscore. -/
def isWordChar (c : Char) : Bool := c.isAlphanum || c == '_'

/-- The text after the blanks at its front. -/
def skipBlanks (s : List Char) : List Char := s.dropWhile isBlank

theorem length_skipBlanks_le (s : List Char) : (skipBlanks s).length ≤ s.length :=
  (List.dropWhile_sublist isBlank).length_le

/-! ### Signs -/

/-- What a reader returns: a value with what remains of the text, or what remained where it
stopped. -/
abbrev Reading (α : Type) := Except (List Char) (α × List Char)

/-- Reads a word. -/
def readWord (s : List Char) : Reading String :=
  match s.takeWhile isWordChar with
  | [] => .error s
  | word => .ok (String.ofList word, s.dropWhile isWordChar)

/-- Reads a term. The question mark belongs to the name of a variable. -/
def readTerm : List Char → Reading Term
  | '?' :: s =>
    match readWord s with
    | .ok (name, rest) => .ok (.var ("?" ++ name), rest)
    | .error _ => .error ('?' :: s)
  | s =>
    match readWord s with
    | .ok (value, rest) => .ok (.const value, rest)
    | .error rest => .error rest

/-- Reads with blanks before and after. -/
def spaced {α : Type} (read : List Char → Reading α) (s : List Char) : Reading α :=
  match read (skipBlanks s) with
  | .ok (a, rest) => .ok (a, skipBlanks rest)
  | .error rest => .error rest

/-- What follows the mark at the front of a text, if the text begins with it. -/
def afterMark? : (mark s : List Char) → Option (List Char)
  | [], s => some s
  | _ :: _, [] => none
  | c :: mark, d :: s => if c = d then afterMark? mark s else none

theorem afterMark?_eq_some_iff {mark s rest : List Char} :
    afterMark? mark s = some rest ↔ s = mark ++ rest := by
  fun_induction afterMark? mark s with
  | case1 s => simp
  | case2 => simp
  | case3 mark c s ih => simp [ih]
  | case4 c mark d s h => simp [Ne.symm h]

/-- Passes over a mark, with blanks before and after. -/
def expect (mark s : List Char) : Except (List Char) (List Char) :=
  match afterMark? mark (skipBlanks s) with
  | some rest => .ok (skipBlanks rest)
  | none => .error (skipBlanks s)

theorem readWord_shorter {s rest : List Char} {word : String}
    (h : readWord s = .ok (word, rest)) : rest.length < s.length := by
  rw [readWord] at h
  split at h
  · simp at h
  · rename_i hword
    simp only [Except.ok.injEq, Prod.mk.injEq] at h
    have split := congrArg List.length (List.takeWhile_append_dropWhile (p := isWordChar) (l := s))
    have := List.length_pos_iff.2 hword
    rw [List.length_append, h.2] at split
    omega

theorem readTerm_shorter {s rest : List Char} {t : Term} (h : readTerm s = .ok (t, rest)) :
    rest.length < s.length := by
  unfold readTerm at h
  split at h
  · split at h
    · rename_i hword
      simp only [Except.ok.injEq, Prod.mk.injEq] at h
      have := readWord_shorter hword
      rw [List.length_cons, ← h.2]
      omega
    · simp at h
  · split at h
    · rename_i hword
      simp only [Except.ok.injEq, Prod.mk.injEq] at h
      exact h.2 ▸ readWord_shorter hword
    · simp at h

theorem spaced_shorter {α : Type} {read : List Char → Reading α}
    (shorter : ∀ {s a rest}, read s = .ok (a, rest) → rest.length < s.length)
    {s rest : List Char} {a : α} (h : spaced read s = .ok (a, rest)) : rest.length < s.length := by
  rw [spaced] at h
  split at h
  · rename_i hread
    simp only [Except.ok.injEq, Prod.mk.injEq] at h
    have hskip := length_skipBlanks_le s
    have hread := shorter hread
    rw [← h.2]
    exact Nat.lt_of_le_of_lt (length_skipBlanks_le _) (by omega)
  · simp at h

theorem expect_shorter {mark s rest : List Char} (hmark : mark ≠ [])
    (h : expect mark s = .ok rest) : rest.length < s.length := by
  rw [expect] at h
  split at h
  · rename_i found hfound
    have hlength := congrArg List.length (afterMark?_eq_some_iff.1 hfound)
    simp only [Except.ok.injEq] at h
    have hpos := List.length_pos_iff.2 hmark
    have hskip := length_skipBlanks_le s
    have hrest := length_skipBlanks_le found
    rw [List.length_append] at hlength
    rw [← h]
    omega
  · simp at h

end Datalog.Grammar
