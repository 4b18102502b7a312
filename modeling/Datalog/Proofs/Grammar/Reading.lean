import Datalog.Proofs.Grammar.Fronts

/-!
# Reading what is spelled

A reader of values agrees with their spelling: what it takes from the front of a text spells the
signs of the value it returns, and wherever a text goes on with the signs of a value it takes
exactly these, whatever follows. So no choice that a reader makes early, and no list that it ends
early, costs it a value that the text spells.

## Main definitions

* `EndsWord`, `BeginsNoWord`, `EndsBefore` — where a word ends
* `ReadsUpTo` — a reader agrees with what is spelled at the front of a text
* `Reads` — a reader agrees with what whole texts spell

## Main results

* `readsUpTo_word`, `readsUpTo_term` — the readers of single signs agree with the spelling
* `spellsUpTo_of_expect`, `exists_expect` — a mark is passed over exactly if it is the next sign
* `ReadsUpTo.sound_separated`, `ReadsUpTo.complete_separated` — a reader that agrees with the spelling
  of single elements also reads the lists of them that are spelled
* `ReadsUpTo.eq_ok_iff` — what a reader takes and what it leaves
-/

namespace Datalog.Grammar

/-! ### Single signs -/

/-- What follows cannot be taken for more of a word. -/
def EndsWord (s : List Char) : Prop := ∀ c ∈ s.head?, isWordChar c = false

/-- The signs do not begin with a word, so that a word before them ends where they begin. -/
def BeginsNoWord (signs : List Sign) : Prop := ∀ text, signs.head? ≠ some (.word text)

theorem beginsNoWord_nil : BeginsNoWord [] := by simp [BeginsNoWord]

theorem beginsNoWord_mark (m : Mark) (signs : List Sign) : BeginsNoWord (.mark m :: signs) := by
  simp [BeginsNoWord]

/-- A word ends before the signs and what follows them. -/
def EndsBefore (signs : List Sign) (rest : List Char) : Prop :=
  BeginsNoWord signs ∧ (signs = [] → EndsWord rest)

theorem endsBefore_mark (m : Mark) (signs : List Sign) (rest : List Char) :
    EndsBefore (.mark m :: signs) rest :=
  ⟨beginsNoWord_mark m signs, by simp⟩

/-- At the end of a text every word ends. -/
theorem BeginsNoWord.endsBefore {signs : List Sign} (h : BeginsNoWord signs) : EndsBefore signs [] :=
  ⟨h, fun _ => by simp [EndsWord]⟩

theorem endsWord_cons_of_isBlank {c : Char} (h : isBlank c = true) (s : List Char) :
    EndsWord (c :: s) := by
  intro d hd
  obtain rfl : c = d := by simpa using hd
  exact isWordChar_eq_false_of_isBlank h

theorem SpellsUpTo.endsWord {signs : List Sign} {s rest : List Char} (h : SpellsUpTo signs s rest)
    (hsigns : EndsBefore signs rest) : EndsWord s := by
  obtain ⟨⟨front, rfl, hfront⟩, -⟩ := h
  -- The text begins with a blank, a question mark or a mark, or it is what follows.
  cases hfront with
  | nil hblanks =>
    cases front with
    | nil => exact hsigns.2 rfl
    | cons b front => exact endsWord_cons_of_isBlank (hblanks b List.mem_cons_self) _
  | @cons sign signs blanks front hblanks hsign hfront =>
    cases blanks with
    | cons b blanks => exact endsWord_cons_of_isBlank (hblanks b List.mem_cons_self) _
    | nil =>
      cases sign with
      | word text => exact absurd rfl (hsigns.1 text)
      | var name =>
        obtain ⟨word, -, rfl⟩ := hsign
        intro c hc
        obtain rfl : '?' = c := by simpa [Sign.chars] using hc
        decide
      | mark m =>
        obtain ⟨d, chars, hchars, -, hd, -⟩ := m.chars_eq_cons
        intro c hc
        obtain rfl : d = c := by simpa [Sign.chars, hchars] using hc
        exact hd

/-- Words are read as far as they go. -/
theorem readWord_eq_ok_iff {s rest : List Char} {word : String} :
    readWord s = .ok (word, rest) ↔ IsWord word ∧ s = word.toList ++ rest ∧ EndsWord rest := by
  constructor
  · intro h
    rw [readWord] at h
    split at h
    · simp at h
    · rename_i hne
      simp only [Except.ok.injEq, Prod.mk.injEq] at h
      obtain ⟨rfl, rfl⟩ := h
      refine ⟨⟨?_, ?_⟩, ?_, ?_⟩
      · simpa using hne
      · intro c hc
        rw [String.toList_ofList] at hc
        exact List.mem_takeWhile_imp hc
      · rw [String.toList_ofList, List.takeWhile_append_dropWhile]
      · intro c hc
        have hstop := List.head?_dropWhile_not isWordChar s
        rw [Option.mem_def.mp hc] at hstop
        exact hstop
  · rintro ⟨⟨hne, hchars⟩, rfl, hend⟩
    -- The run of letters, digits and underscores stops where the word stops.
    have hstop : rest.takeWhile isWordChar = [] ∧ rest.dropWhile isWordChar = rest := by
      cases rest with
      | nil => exact ⟨rfl, rfl⟩
      | cons c rest =>
        have hc : isWordChar c = false := hend c rfl
        simp [hc]
    rw [readWord, List.takeWhile_append_of_pos hchars, List.dropWhile_append_of_pos hchars, hstop.1,
      hstop.2, List.append_nil]
    split
    · rename_i hnil
      exact absurd (String.toList_eq_nil_iff.mp hnil) hne
    · rw [String.ofList_toList]

theorem readTerm_eq_ok_iff {s rest : List Char} {t : Term} :
    readTerm s = .ok (t, rest) ↔
      t.sign.WellFormed ∧ s = t.sign.chars ++ rest ∧ EndsWord rest := by
  constructor
  · intro h
    unfold readTerm at h
    split at h
    · split at h
      · rename_i hword
        simp only [Except.ok.injEq, Prod.mk.injEq] at h
        obtain ⟨rfl, rfl⟩ := h
        obtain ⟨hname, rfl, hend⟩ := readWord_eq_ok_iff.mp hword
        exact ⟨⟨_, hname, rfl⟩, by simp [Term.sign, Sign.chars], hend⟩
      · simp at h
    · split at h
      · rename_i hword
        simp only [Except.ok.injEq, Prod.mk.injEq] at h
        obtain ⟨rfl, rfl⟩ := h
        exact readWord_eq_ok_iff.mp hword
      · simp at h
  · rintro ⟨hsign, rfl, hend⟩
    cases t with
    | var x =>
      obtain ⟨word, hword, rfl⟩ := hsign
      have hread := readWord_eq_ok_iff.mpr ⟨hword, rfl, hend⟩
      simp [Term.sign, Sign.chars, readTerm, hread]
    | const c =>
      have hread := readWord_eq_ok_iff.mpr ⟨hsign, rfl, hend⟩
      unfold readTerm
      split
      -- A word does not begin with a question mark.
      · rename_i s hs
        obtain ⟨d, chars, hchars, hd⟩ := IsWord.toList_eq_cons hsign
        rw [Term.sign, Sign.chars, hchars, List.cons_append, List.cons.injEq] at hs
        exact absurd (hs.1 ▸ hd) (by decide)
      · rw [Term.sign, Sign.chars, hread]

/-! ### Marks -/

section Marks

variable {m : Mark} {signs : List Sign} {s rest t : List Char}

theorem expect_eq_ok_iff {mark : List Char} :
    expect mark s = .ok rest ↔ ∃ found, skipBlanks s = mark ++ found ∧ rest = skipBlanks found := by
  rw [expect]
  split
  · rename_i found hfound
    rw [afterMark?_eq_some_iff] at hfound
    simp [hfound, eq_comm]
  · rename_i hnone
    have habsent : ∀ found, skipBlanks s ≠ mark ++ found := fun found hfound => by
      simp [afterMark?_eq_some_iff.mpr hfound] at hnone
    simp [habsent]

/-- A mark that was passed over is the first sign of the text. -/
theorem spellsUpTo_of_expect (h : expect m.chars s = .ok rest) (hrest : SpellsUpTo signs rest t) :
    SpellsUpTo (.mark m :: signs) s t := by
  obtain ⟨found, hs, rfl⟩ := expect_eq_ok_iff.mp h
  exact spellsUpTo_cons_iff.mpr ⟨trivial, found, hs, spellsUpTo_skipBlanks.mp hrest⟩

/-- A mark that is the first sign of the text is passed over. -/
theorem exists_expect (h : SpellsUpTo (.mark m :: signs) s t) :
    ∃ rest, expect m.chars s = .ok rest ∧ SpellsUpTo signs rest t := by
  obtain ⟨-, found, hs, hfound⟩ := spellsUpTo_cons_iff.mp h
  exact ⟨_, expect_eq_ok_iff.mpr ⟨found, hs, rfl⟩, spellsUpTo_skipBlanks.mpr hfound⟩

/-- Only the mark itself is passed over. -/
theorem expect_ne_ok {other : Mark} (h : SpellsUpTo (.mark other :: signs) s t) (hne : m ≠ other) :
    expect m.chars s ≠ .ok rest := by
  intro hexpect
  obtain ⟨-, found, hs, -⟩ := spellsUpTo_cons_iff.mp h
  obtain ⟨found', hs', -⟩ := expect_eq_ok_iff.mp hexpect
  -- The first characters of two marks differ.
  have hsame : m.chars ++ found' = other.chars ++ found := hs'.symm.trans hs
  cases m <;> cases other <;> simp [Mark.chars] at hsame hne

/-- At the end of a text there is no mark. -/
theorem expect_ne_ok_of_spells_nil (h : Spells [] s) : expect m.chars s ≠ .ok rest := by
  intro hexpect
  obtain ⟨found, hs, -⟩ := expect_eq_ok_iff.mp hexpect
  rw [spells_nil_iff.mp h] at hs
  cases m <;> simp [Mark.chars] at hs

theorem skipBlanks_of_expect {mark : List Char} (h : expect mark s = .ok rest) :
    skipBlanks rest = rest := by
  obtain ⟨found, -, rfl⟩ := expect_eq_ok_iff.mp h
  exact skipBlanks_skipBlanks found

end Marks

/-! ### Readers of values -/

/-- At the front of every text the reader agrees with the spelling of its values, which are followed by
signs of a certain kind and a certain rest. -/
structure ReadsUpTo {α : Type} (read : List Char → Reading α) (signs : α → List Sign)
    (before : List Sign → List Char → Prop) : Prop where
  /-- What was taken from the front of the text spells the value. -/
  sound : ∀ {s rest a more t}, read s = .ok (a, rest) → SpellsUpTo more rest t →
    SpellsUpTo (signs a ++ more) s t
  /-- If the text goes on with a value, the value is taken and nothing else. -/
  complete : ∀ {s a more t}, SpellsUpTo (signs a ++ more) s t → before more t →
    ∃ rest, read s = .ok (a, rest) ∧ SpellsUpTo more rest t
  /-- The blanks after the value are taken too. -/
  skips : ∀ {s rest a}, read s = .ok (a, rest) → skipBlanks rest = rest

/-- The reader agrees with the spelling of its values, which are followed by signs of a certain
kind. -/
structure Reads {α : Type} (read : List Char → Reading α) (signs : α → List Sign)
    (before : List Sign → Prop) : Prop where
  /-- What was taken from the front of the text spells the value. -/
  sound : ∀ {s rest a more}, read s = .ok (a, rest) → Spells more rest → Spells (signs a ++ more) s
  /-- If the text goes on with a value, the value is taken and nothing else. -/
  complete : ∀ {s a more}, Spells (signs a ++ more) s → before more →
    ∃ rest, read s = .ok (a, rest) ∧ Spells more rest
  /-- The blanks after the value are taken too. -/
  skips : ∀ {s rest a}, read s = .ok (a, rest) → skipBlanks rest = rest

/-- A reader that agrees with what is spelled at the front of texts agrees with what whole texts
spell. -/
theorem ReadsUpTo.reads {α : Type} {read : List Char → Reading α} {signs : α → List Sign}
    {before : List Sign → List Char → Prop} {before' : List Sign → Prop}
    (hread : ReadsUpTo read signs before) (hbefore : ∀ {more}, before' more → before more []) :
    Reads read signs before' where
  sound h hmore :=
    spellsUpTo_nil_right.mp (hread.sound h (spellsUpTo_nil_right.mpr hmore))
  complete h hmore := by
    obtain ⟨rest, hrest, h⟩ := hread.complete (spellsUpTo_nil_right.mpr h) (hbefore hmore)
    exact ⟨rest, hrest, spellsUpTo_nil_right.mp h⟩
  skips := hread.skips

/-- What was taken is spelled at the front of the text, and what is left is what follows there. -/
theorem ReadsUpTo.spellsUpTo {α : Type} {read : List Char → Reading α} {signs : α → List Sign}
    {before : List Sign → List Char → Prop} (hread : ReadsUpTo read signs before)
    {s rest : List Char} {a : α} (h : read s = .ok (a, rest)) : SpellsUpTo (signs a) s rest := by
  rw [← List.append_nil (signs a)]
  exact hread.sound h (spellsUpTo_nil_iff.mpr (hread.skips h))

/-- A value is read exactly if it is spelled at the front of the text, and what is left is what follows
there. -/
theorem ReadsUpTo.eq_ok_iff {α : Type} {read : List Char → Reading α} {signs : α → List Sign}
    {before : List Sign → List Char → Prop} (hread : ReadsUpTo read signs before)
    (hbefore : ∀ {rest}, before [] rest) {s rest : List Char} {a : α} :
    read s = .ok (a, rest) ↔ SpellsUpTo (signs a) s rest := by
  constructor
  · exact hread.spellsUpTo
  · intro h
    rw [← List.append_nil (signs a)] at h
    obtain ⟨rest', hrest', hnil⟩ := hread.complete h hbefore
    rwa [spellsUpTo_nil_iff.mp hnil |>.symm.trans (hread.skips hrest')]

section Single

variable {α : Type} {read : List Char → Reading α} {s rest t : List Char} {a : α}

theorem spaced_eq_ok_iff :
    spaced read s = .ok (a, rest) ↔
      ∃ found, read (skipBlanks s) = .ok (a, found) ∧ rest = skipBlanks found := by
  rw [spaced]
  split
  · rename_i a' found hread
    simp only [hread, Except.ok.injEq, Prod.mk.injEq]
    grind
  · rename_i hread
    simp [hread]

/-- A reader of single signs, which takes them as far as they go, may skip blanks around them. -/
theorem readsUpTo_spaced {sign : α → Sign}
    (hread : ∀ {s rest a}, read s = .ok (a, rest) ↔
      (sign a).WellFormed ∧ s = (sign a).chars ++ rest ∧ EndsWord rest) :
    ReadsUpTo (spaced read) (fun a => [sign a]) EndsBefore where
  sound h hmore := by
    obtain ⟨found, hfound, rfl⟩ := spaced_eq_ok_iff.mp h
    obtain ⟨hsign, hs, -⟩ := hread.mp hfound
    exact spellsUpTo_cons_iff.mpr ⟨hsign, found, hs, spellsUpTo_skipBlanks.mp hmore⟩
  complete h hmore := by
    obtain ⟨hsign, found, hs, hfound⟩ := spellsUpTo_cons_iff.mp h
    have hend := hfound.endsWord hmore
    exact ⟨_, spaced_eq_ok_iff.mpr ⟨found, hread.mpr ⟨hsign, hs, hend⟩, rfl⟩,
      spellsUpTo_skipBlanks.mpr hfound⟩
  skips h := by
    obtain ⟨found, -, rfl⟩ := spaced_eq_ok_iff.mp h
    exact skipBlanks_skipBlanks found

theorem readsUpTo_word : ReadsUpTo (spaced readWord) (fun text => [Sign.word text]) EndsBefore :=
  readsUpTo_spaced readWord_eq_ok_iff

theorem readsUpTo_term : ReadsUpTo (spaced readTerm) (fun t => [t.sign]) EndsBefore :=
  readsUpTo_spaced readTerm_eq_ok_iff

theorem reads_term : Reads (spaced readTerm) (fun t => [t.sign]) BeginsNoWord :=
  readsUpTo_term.reads BeginsNoWord.endsBefore

/-- A mark is no term. -/
theorem readTerm_ne_ok {m : Mark} {more : List Sign} {a : Term}
    (h : SpellsUpTo (.mark m :: more) s t) : spaced readTerm s ≠ .ok (a, rest) := by
  intro hterm
  obtain ⟨found, hfound, -⟩ := spaced_eq_ok_iff.mp hterm
  obtain ⟨-, found', hs, -⟩ := spellsUpTo_cons_iff.mp h
  obtain ⟨c, chars, hchars, -, hc, hne⟩ := m.chars_eq_cons
  rw [hs, Sign.chars, hchars, List.cons_append] at hfound
  simp [readTerm, readWord, hc, hne] at hfound

end Single

/-! ### Lists -/

section Lists

variable {α : Type} {read : List Char → Reading α} {signs : α → List Sign}
  {before : List Sign → List Char → Prop}
  {shorter : ∀ {s a rest}, read s = .ok (a, rest) → rest.length < s.length}
  {s s' rest t : List Char} {a : α} {more : List Sign}

theorem readMore_of_ne_ok (h : ∀ rest, expect Mark.comma.chars s ≠ .ok rest) :
    readMore read shorter s = ([], s) := by
  rw [readMore]
  split
  · rfl
  · rename_i hcomma
    exact absurd hcomma (h _)

theorem readMore_of_eq_ok (hcomma : expect Mark.comma.chars s = .ok s')
    (hread : read s' = .ok (a, rest)) :
    readMore read shorter s =
      (a :: (readMore read shorter rest).1, (readMore read shorter rest).2) := by
  rw [readMore]
  split
  · rename_i hstop
    exact absurd (hstop.symm.trans hcomma) (by simp)
  · rename_i s'' hcomma'
    obtain rfl : s'' = s' := Except.ok.inj (hcomma'.symm.trans hcomma)
    split
    · rename_i hstop
      exact absurd (hstop.symm.trans hread) (by simp)
    · rename_i hread'
      obtain ⟨rfl, rfl⟩ := Prod.mk.inj (Except.ok.inj (hread'.symm.trans hread))
      rfl

theorem readSeparated_of_ne_ok (h : ∀ a rest, read s ≠ .ok (a, rest)) :
    readSeparated read shorter s = ([], s) := by
  rw [readSeparated]
  split
  · rfl
  · rename_i hok
    exact absurd hok (h _ _)

theorem readSeparated_of_eq_ok (h : read s = .ok (a, rest)) :
    readSeparated read shorter s =
      (a :: (readMore read shorter rest).1, (readMore read shorter rest).2) := by
  rw [readSeparated, h]

variable (shorter)

theorem ReadsUpTo.sound_more (hread : ReadsUpTo read signs before)
    (hmore : SpellsUpTo more (readMore read shorter s).2 t) :
    SpellsUpTo (afterCommas signs (readMore read shorter s).1 ++ more) s t := by
  fun_induction readMore read shorter s with
  | case1 s => exact hmore
  | case2 s => exact hmore
  | case3 s afterComma hcomma a rest hok _ tail ih =>
    rw [afterCommas_cons_append]
    exact spellsUpTo_of_expect hcomma (hread.sound hok (ih hmore))

/-- A list is continued up to the mark that follows it, which is no comma. -/
theorem ReadsUpTo.complete_more (hread : ReadsUpTo read signs before)
    (hbefore : ∀ m more rest, before (.mark m :: more) rest) {items : List α} {m : Mark}
    (hm : .comma ≠ m)
    (h : SpellsUpTo (afterCommas signs items ++ .mark m :: more) s t) :
    (readMore read shorter s).1 = items ∧
      SpellsUpTo (.mark m :: more) (readMore read shorter s).2 t := by
  induction items generalizing s with
  | nil =>
    rw [readMore_of_ne_ok fun rest => expect_ne_ok h hm]
    exact ⟨rfl, h⟩
  | cons a items ih =>
    rw [afterCommas_cons_append] at h
    obtain ⟨afterComma, hcomma, h⟩ := exists_expect h
    -- After an element comes the next comma or the mark that ends the list.
    have hnext : before (afterCommas signs items ++ .mark m :: more) t := by
      cases items <;> exact hbefore _ _ _
    obtain ⟨rest, hrest, h⟩ := hread.complete h hnext
    rw [readMore_of_eq_ok hcomma hrest]
    obtain ⟨hitems, htail⟩ := ih h
    exact ⟨congrArg (a :: ·) hitems, htail⟩

theorem ReadsUpTo.sound_separated (hread : ReadsUpTo read signs before)
    (hmore : SpellsUpTo more (readSeparated read shorter s).2 t) :
    SpellsUpTo (separated signs (readSeparated read shorter s).1 ++ more) s t := by
  by_cases hok : ∃ a rest, read s = .ok (a, rest)
  · obtain ⟨a, rest, hok⟩ := hok
    rw [readSeparated_of_eq_ok hok] at hmore ⊢
    rw [separated_cons_append]
    exact hread.sound hok (hread.sound_more shorter hmore)
  · rw [readSeparated_of_ne_ok fun a rest h => hok ⟨a, rest, h⟩] at hmore ⊢
    exact hmore

/-- A list is read up to the mark that follows it, which is no comma and no element. -/
theorem ReadsUpTo.complete_separated (hread : ReadsUpTo read signs before)
    (hbefore : ∀ m more rest, before (.mark m :: more) rest) {items : List α} {m : Mark}
    (hm : .comma ≠ m)
    (hnone : ∀ a rest, SpellsUpTo (.mark m :: more) s t → read s ≠ .ok (a, rest))
    (h : SpellsUpTo (separated signs items ++ .mark m :: more) s t) :
    (readSeparated read shorter s).1 = items ∧
      SpellsUpTo (.mark m :: more) (readSeparated read shorter s).2 t := by
  cases items with
  | nil =>
    rw [readSeparated_of_ne_ok fun a rest => hnone a rest h]
    exact ⟨rfl, h⟩
  | cons a items =>
    rw [separated_cons_append] at h
    have hnext : before (afterCommas signs items ++ .mark m :: more) t := by
      cases items <;> exact hbefore _ _ _
    obtain ⟨rest, hrest, h⟩ := hread.complete h hnext
    rw [readSeparated_of_eq_ok hrest]
    obtain ⟨hitems, htail⟩ := hread.complete_more shorter hbefore hm h
    exact ⟨congrArg (a :: ·) hitems, htail⟩

end Lists

end Datalog.Grammar
