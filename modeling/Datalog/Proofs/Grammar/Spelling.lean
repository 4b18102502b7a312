import Datalog.Grammar
import Mathlib.Data.List.DropRight

/-!
# How values are spelled

A written value is a sequence of signs: words, names of variables, and marks. A text spells the
sequence if it has these signs in their order, with any blanks before, between and after them. The
relation knows nothing of readers, of the order in which they try things, or of where they skip
blanks.

## Main definitions

* `IsWord` — the words
* `Mark`, `Sign` — the signs
* `Term.sign`, `Atom.signs`, `Rule.signs` — the signs of a value
* `Spells` — a text spells some signs

## Main results

* `spells_nil_iff`, `spells_cons_iff` — a text is told sign by sign, past the blanks in front
* `Spells.append` — texts that are put together spell what they spell one after the other
* `Spells.wellFormed` — only signs that can be written are spelled
-/

namespace Datalog

namespace Grammar

/-! ### Signs -/

/-- A word is made of one or more letters, digits and underscores. -/
def IsWord (s : String) : Prop := s ≠ "" ∧ ∀ c ∈ s.toList, isWordChar c = true

/-- What is put around and between words. -/
inductive Mark where
  /-- The parenthesis before arguments. -/
  | opening
  /-- The parenthesis after arguments. -/
  | closing
  /-- The comma between the elements of a list. -/
  | comma
  /-- The mark between the head and the body of a rule. -/
  | implies
  /-- The point at the end of a rule. -/
  | point
  deriving DecidableEq

/-- The characters of a mark. -/
def Mark.chars : Mark → List Char
  | opening => ['(']
  | closing => [')']
  | comma => [',']
  | implies => [':', '-']
  | point => ['.']

/-- What a text is made of, apart from blanks. -/
inductive Sign where
  /-- A word: a predicate or a constant. -/
  | word (text : String)
  /-- A variable, whose name begins with a question mark. -/
  | var (name : String)
  /-- A mark. -/
  | mark (m : Mark)

namespace Sign

/-- The characters of a sign. -/
def chars : Sign → List Char
  | word text => text.toList
  | var name => name.toList
  | mark m => m.chars

/-- The sign can be written: a word is one, and a variable is a question mark followed by a word. -/
def WellFormed : Sign → Prop
  | word text => IsWord text
  | var name => ∃ word, IsWord word ∧ name = "?" ++ word
  | mark _ => True

end Sign

/-- The signs of the elements that continue a list, each after a comma. -/
def afterCommas {α : Type} (signs : α → List Sign) : List α → List Sign
  | [] => []
  | a :: rest => .mark .comma :: (signs a ++ afterCommas signs rest)

/-- The signs of a list whose elements are separated by commas. -/
def separated {α : Type} (signs : α → List Sign) : List α → List Sign
  | [] => []
  | a :: rest => signs a ++ afterCommas signs rest

@[simp] theorem afterCommas_cons_append {α : Type} (signs : α → List Sign) (a : α) (rest : List α)
    (more : List Sign) :
    afterCommas signs (a :: rest) ++ more =
      .mark .comma :: (signs a ++ (afterCommas signs rest ++ more)) := by
  simp [afterCommas]

@[simp] theorem separated_cons_append {α : Type} (signs : α → List Sign) (a : α) (rest : List α)
    (more : List Sign) :
    separated signs (a :: rest) ++ more = signs a ++ (afterCommas signs rest ++ more) := by
  simp [separated]

/-- The text has the signs in their order, with blanks before, between and after them. -/
inductive Spells : List Sign → List Char → Prop where
  /-- No sign is left, and only blanks. -/
  | nil {blanks : List Char} (hblanks : ∀ c ∈ blanks, isBlank c = true) : Spells [] blanks
  /-- A sign is written after some blanks. -/
  | cons {sign : Sign} {signs : List Sign} {blanks rest : List Char}
      (hblanks : ∀ c ∈ blanks, isBlank c = true) (hsign : sign.WellFormed)
      (hrest : Spells signs rest) : Spells (sign :: signs) (blanks ++ (sign.chars ++ rest))

end Grammar

open Grammar

/-! ### The signs of values -/

/-- A term is a single sign. -/
def Term.sign : Term → Sign
  | .var x => .var x
  | .const c => .word c

/-- The signs of an atom: its predicate, and in parentheses its terms, separated by commas. -/
def Atom.signs (a : Atom) : List Sign :=
  .word a.predicate :: .mark .opening ::
    (separated (fun t => [Term.sign t]) a.terms ++ [.mark .closing])

namespace Rule

/-- The signs of a body, which begin with `:-` unless the body is empty. -/
def bodySigns : List Atom → List Sign
  | [] => []
  | a :: body => .mark .implies :: separated Atom.signs (a :: body)

/-- The signs of a rule: its head, its body and a point. -/
def signs (r : Rule) : List Sign := r.head.signs ++ (bodySigns r.body ++ [.mark .point])

end Rule

namespace Grammar

/-! ### Characters -/

section Characters

variable {c : Char}

theorem isWordChar_eq_false_of_isBlank (h : isBlank c = true) : isWordChar c = false := by
  simp only [isBlank, Bool.or_eq_true, beq_iff_eq] at h
  rcases h with ((rfl | rfl) | rfl) | rfl <;> decide

theorem isBlank_eq_false_of_isWordChar (h : isWordChar c = true) : isBlank c = false := by
  by_contra hblank
  rw [Bool.not_eq_false] at hblank
  simp [isWordChar_eq_false_of_isBlank hblank] at h

end Characters

theorem IsWord.toList_eq_cons {s : String} (h : IsWord s) :
    ∃ c chars, s.toList = c :: chars ∧ isWordChar c = true := by
  obtain ⟨c, chars, hs⟩ := List.exists_cons_of_ne_nil (mt String.toList_eq_nil_iff.mp h.1)
  exact ⟨c, chars, hs, h.2 c (by rw [hs]; exact List.mem_cons_self)⟩

/-- No mark begins like a word or a variable. -/
theorem Mark.chars_eq_cons (m : Mark) :
    ∃ c chars, m.chars = c :: chars ∧ isBlank c = false ∧ isWordChar c = false ∧ c ≠ '?' := by
  cases m <;> exact ⟨_, _, rfl, by decide⟩

/-- A sign begins with something, which is no blank. -/
theorem Sign.WellFormed.chars_eq_cons {sign : Sign} (h : sign.WellFormed) :
    ∃ c chars, sign.chars = c :: chars ∧ isBlank c = false := by
  cases sign with
  | word text =>
    obtain ⟨c, chars, hchars, hc⟩ := IsWord.toList_eq_cons h
    exact ⟨c, chars, hchars, isBlank_eq_false_of_isWordChar hc⟩
  | var name =>
    obtain ⟨word, -, rfl⟩ := h
    exact ⟨'?', word.toList, by simp [Sign.chars], by decide⟩
  | mark m =>
    obtain ⟨c, chars, hchars, hblank, -⟩ := m.chars_eq_cons
    exact ⟨c, chars, hchars, hblank⟩

/-! ### Blanks -/

section Blanks

variable {s blanks : List Char} {signs : List Sign} {sign : Sign}

@[simp] theorem skipBlanks_skipBlanks (s : List Char) : skipBlanks (skipBlanks s) = skipBlanks s :=
  List.dropWhile_idempotent isBlank s

theorem skipBlanks_append (h : ∀ c ∈ blanks, isBlank c = true) (s : List Char) :
    skipBlanks (blanks ++ s) = skipBlanks s :=
  List.dropWhile_append_of_pos h

theorem skipBlanks_eq_nil_iff : skipBlanks s = [] ↔ ∀ c ∈ s, isBlank c = true :=
  List.dropWhile_eq_nil_iff

/-- Blanks in front of a sign are skipped, and no more than that. -/
theorem skipBlanks_chars (hsign : sign.WellFormed) (rest : List Char) :
    skipBlanks (sign.chars ++ rest) = sign.chars ++ rest := by
  obtain ⟨c, chars, hchars, hblank⟩ := hsign.chars_eq_cons
  rw [hchars, List.cons_append, skipBlanks, List.dropWhile_cons_of_neg (by simp [hblank])]

/-- A text is the blanks at its front and what follows them. -/
theorem exists_append_skipBlanks (s : List Char) :
    ∃ blanks, (∀ c ∈ blanks, isBlank c = true) ∧ s = blanks ++ skipBlanks s :=
  ⟨s.takeWhile isBlank, fun _ hc => List.mem_takeWhile_imp hc, List.takeWhile_append_dropWhile.symm⟩

/-- A text that spells nothing is blank. -/
theorem spells_nil_iff : Spells [] s ↔ skipBlanks s = [] := by
  rw [skipBlanks_eq_nil_iff]
  constructor
  · rintro ⟨hblanks⟩
    exact hblanks
  · exact Spells.nil

/-- The first sign stands behind the blanks at the front of the text. -/
theorem spells_cons_iff :
    Spells (sign :: signs) s ↔
      sign.WellFormed ∧ ∃ rest, skipBlanks s = sign.chars ++ rest ∧ Spells signs rest := by
  constructor
  -- A sign begins with no blank, so the blanks that are skipped are those in front of it.
  · rintro (_ | ⟨hblanks, hsign, hrest⟩)
    rw [skipBlanks_append hblanks, skipBlanks_chars hsign]
    exact ⟨hsign, _, rfl, hrest⟩
  · rintro ⟨hsign, rest, hs, hrest⟩
    obtain ⟨blanks, hblanks, happend⟩ := exists_append_skipBlanks s
    rw [happend, hs]
    exact .cons hblanks hsign hrest

/-- Blanks at the front of a text do not matter. -/
@[simp] theorem spells_skipBlanks : Spells signs (skipBlanks s) ↔ Spells signs s := by
  cases signs with
  | nil => simp only [spells_nil_iff, skipBlanks_skipBlanks]
  | cons sign signs => simp only [spells_cons_iff, skipBlanks_skipBlanks]

theorem Spells.blanks_append (hblanks : ∀ c ∈ blanks, isBlank c = true) (h : Spells signs s) :
    Spells signs (blanks ++ s) := by
  rw [← spells_skipBlanks, skipBlanks_append hblanks, spells_skipBlanks]
  exact h

/-- Texts that are put together spell what they spell one after the other. -/
theorem Spells.append {more : List Sign} {t : List Char} (hs : Spells signs s)
    (ht : Spells more t) : Spells (signs ++ more) (s ++ t) := by
  induction hs with
  -- Blanks at the end of the first text are in front of the second.
  | nil hblanks => exact ht.blanks_append hblanks
  | cons hblanks hsign _ ih =>
    rw [List.append_assoc, List.append_assoc, List.cons_append]
    exact .cons hblanks hsign ih

/-- A sign is spelled by its characters. -/
theorem spells_chars (sign : Sign) (hsign : sign.WellFormed) : Spells [sign] sign.chars := by
  rw [spells_cons_iff]
  refine ⟨hsign, [], ?_, spells_nil_iff.mpr rfl⟩
  simpa using skipBlanks_chars hsign []

/-- Signs that can be written are spelled by their characters. -/
theorem spells_flatMap_chars (h : ∀ sign ∈ signs, sign.WellFormed) :
    Spells signs (signs.flatMap Sign.chars) := by
  induction signs with
  | nil => exact .nil (by simp)
  | cons sign signs ih =>
    obtain ⟨hsign, hsigns⟩ := List.forall_mem_cons.mp h
    exact (spells_chars sign hsign).append (ih hsigns)

theorem spells_mark (m : Mark) : Spells [.mark m] m.chars :=
  spells_chars (.mark m) trivial

/-- A blank by itself spells nothing. -/
theorem spells_blank {c : Char} (hc : isBlank c = true) : Spells [] [c] :=
  .nil (by simpa using hc)

theorem Spells.eq_nil (hskip : skipBlanks s = s) (h : Spells [] s) : s = [] :=
  hskip.symm.trans (spells_nil_iff.mp h)

/-- Every sign that a text spells can be written. -/
theorem Spells.wellFormed (h : Spells signs s) : ∀ sign ∈ signs, sign.WellFormed := by
  induction h with
  | nil => simp
  | cons _ hsign _ ih => exact List.forall_mem_cons.mpr ⟨hsign, ih⟩

/-- A text that spells signs has no characters but blanks and those of signs. -/
theorem Spells.not_mem {c : Char} (h : Spells signs s) (hblank : isBlank c = false)
    (hword : isWordChar c = false) (hquestion : c ≠ '?') (hmark : ∀ m : Mark, c ∉ m.chars) :
    c ∉ s := by
  have hblanks : ∀ {blanks : List Char}, (∀ b ∈ blanks, isBlank b = true) → c ∉ blanks := by
    intro blanks hblanks hc
    exact absurd (hblanks c hc) (by simp [hblank])
  have hisWord : ∀ {word : String}, IsWord word → c ∉ word.toList := by
    intro word hword' hc
    exact absurd (hword'.2 c hc) (by simp [hword])
  induction h with
  | nil h => exact hblanks h
  | @cons sign signs blanks rest h hsign _ ih =>
    have hchars : c ∉ sign.chars := by
      cases sign with
      | word text => exact hisWord hsign
      | var name =>
        obtain ⟨word, hname, rfl⟩ := hsign
        simp [Sign.chars, hquestion, hisWord hname]
      | mark m => exact hmark m
    simp [hblanks h, hchars, ih]

end Blanks

end Grammar
end Datalog
