import Mathlib.Tactic.SplitIfs
import Datalog.Json.Value
import Datalog.Proofs.Json.Text

/-!
# Cutting texts into tokens

The front of a text decides its first token, and the rest of the text is cut in the same way. Only a
number depends on what comes after it: it goes on as far as it can, so it ends where it was meant to
end if what follows could not continue it.

## Main definitions

* `EndsNumber` — a number cannot go on into the text
* `ReadsAlike` — a reader reads the same before such a text
* `IsNumber` — the text is a number

## Main results

* `readsAlike_readNumber` — a number is read as it stands before a text that ends it
* `Token.ofText_mark`, `Token.ofText_null`, `Token.ofText_bool`, `Token.ofText_number`,
  `Token.ofText_writeString` — the first token of a text
-/

namespace Datalog.Json

variable {c : Char} {s rest out : List Char} {literal : String} {t : Token}

/-! ### Where numbers end -/

/-- The character may stand inside a number, after its first digit. -/
def continuesNumber (c : Char) : Bool := c.isDigit || c == '.' || c == 'e' || c == 'E'

/-- A number before the text does not go on into it. -/
def EndsNumber (s : List Char) : Prop := ∀ c ∈ s.head?, continuesNumber c = false

theorem endsNumber_nil : EndsNumber [] := by simp [EndsNumber]

theorem endsNumber_cons (h : continuesNumber c = false) : EndsNumber (c :: s) := by
  simpa [EndsNumber] using h

theorem EndsNumber.append (hs : EndsNumber s) (hrest : EndsNumber rest) :
    EndsNumber (s ++ rest) := by
  cases s with
  | nil => exact hrest
  | cons c s => exact hs

/-! ### Reading numbers -/

/-- A reader reads the same before a text that ends numbers. -/
def ReadsAlike (read : List Char → Option (List Char × List Char)) : Prop :=
  ∀ {s out left rest}, read s = some (out, left) → EndsNumber rest →
    read (s ++ rest) = some (out, left ++ rest)

/-- Something may be put before what is read. -/
theorem ReadsAlike.map {read : List Char → Option (List Char × List Char)} (hread : ReadsAlike read)
    (f : List Char → List Char) : ReadsAlike fun s => (read s).map (Prod.map f id) := by
  intro s out left rest h hrest
  simp only [Option.map_eq_some_iff, Prod.exists, Prod.map_apply, id_eq, Prod.mk.injEq] at h ⊢
  obtain ⟨out, left, h, rfl, rfl⟩ := h
  exact ⟨out, _, hread h hrest, rfl, rfl⟩

theorem takeWhile_dropWhile_append {p : Char → Bool} (h : ∀ c ∈ rest.head?, p c = false) :
    (s ++ rest).takeWhile p = s.takeWhile p ∧ (s ++ rest).dropWhile p = s.dropWhile p ++ rest := by
  induction s with
  | nil =>
    cases rest with
    | nil => exact ⟨rfl, rfl⟩
    | cons c rest =>
      have hc : p c = false := h c rfl
      simp [hc]
  | cons c s ih =>
    by_cases hc : p c
    · simp [hc, ih]
    · simp [hc]

theorem readDigits_nil : readDigits [] = none := rfl

theorem readsAlike_readDigits : ReadsAlike readDigits := by
  intro s out left rest h hrest
  have hdigit : ∀ c ∈ rest.head?, c.isDigit = false := by
    intro c hc
    have hends := hrest c hc
    simp only [continuesNumber, Bool.or_eq_false_iff] at hends
    exact hends.1.1.1
  obtain ⟨htake, hdrop⟩ := takeWhile_dropWhile_append (s := s) hdigit
  unfold readDigits at h ⊢
  rw [htake, hdrop]
  split at h
  · simp at h
  · simp only [Option.some.injEq, Prod.mk.injEq] at h
    simp [h]

theorem readWhole_cons (c : Char) (s : List Char) :
    readWhole (c :: s) = if c = '0' then some (['0'], s) else readDigits (c :: s) := by
  split
  · subst c
    rfl
  · rw [readWhole]
    simpa

theorem readsAlike_readWhole : ReadsAlike readWhole := by
  intro s out left rest h hrest
  cases s with
  | nil => simp [readWhole, readDigits_nil] at h
  | cons c s =>
    rw [readWhole_cons] at h
    rw [List.cons_append, readWhole_cons]
    split_ifs at h ⊢ with hzero
    · simp only [Option.some.injEq, Prod.mk.injEq] at h ⊢
      exact ⟨h.1, by rw [h.2]⟩
    · exact readsAlike_readDigits h hrest

theorem readFraction_cons (c : Char) (s : List Char) :
    readFraction (c :: s) =
      if c = '.' then (readDigits s).map (Prod.map ('.' :: ·) id) else some ([], c :: s) := by
  split
  · subst c
    rfl
  · rw [readFraction]
    simpa

theorem readFraction_of_endsNumber (h : EndsNumber s) : readFraction s = some ([], s) := by
  cases s with
  | nil => rfl
  | cons c s =>
    have hpoint : c ≠ '.' := by
      rintro rfl
      exact absurd (h _ rfl) (by decide)
    rw [readFraction_cons, if_neg hpoint]

theorem readsAlike_readFraction : ReadsAlike readFraction := by
  intro s out left rest h hrest
  cases s with
  | nil =>
    obtain ⟨rfl, rfl⟩ : [] = out ∧ [] = left := by simpa [readFraction] using h
    exact readFraction_of_endsNumber hrest
  | cons c s =>
    rw [readFraction_cons] at h
    rw [List.cons_append, readFraction_cons]
    split_ifs at h ⊢ with hpoint
    · exact readsAlike_readDigits.map _ h hrest
    · simp only [Option.some.injEq, Prod.mk.injEq] at h ⊢
      exact ⟨h.1, by rw [← h.2, List.cons_append]⟩

theorem readExponent_cons (e c : Char) (s : List Char) :
    readExponent (e :: c :: s) =
      if e = 'e' ∨ e = 'E' then
        if c = '+' ∨ c = '-' then (readDigits s).map (Prod.map (e :: c :: ·) id)
        else (readDigits (c :: s)).map (Prod.map (e :: ·) id)
      else some ([], e :: c :: s) := by
  split_ifs with hletter hsign
  · obtain rfl | rfl := hsign <;> simp only [readExponent, if_pos hletter] <;> rfl
  · rw [not_or] at hsign
    rw [readExponent, if_pos hletter]
    · rfl
    · simp [hsign]
    · simp [hsign]
  · simp [readExponent, hletter]

theorem readExponent_of_endsNumber (h : EndsNumber s) : readExponent s = some ([], s) := by
  cases s with
  | nil => rfl
  | cons c s =>
    have hletter : ¬(c = 'e' ∨ c = 'E') := by
      rintro (rfl | rfl) <;> exact absurd (h _ rfl) (by decide)
    simp [readExponent, hletter]

theorem readsAlike_readExponent : ReadsAlike readExponent := by
  intro s out left rest h hrest
  match s with
  | [] =>
    obtain ⟨rfl, rfl⟩ : [] = out ∧ [] = left := by simpa [readExponent] using h
    exact readExponent_of_endsNumber hrest
  | [e] =>
    have hletter : ¬(e = 'e' ∨ e = 'E') := by
      intro hletter
      simp [readExponent, hletter, readDigits_nil] at h
    simp only [readExponent, if_neg hletter, Option.some.injEq, Prod.mk.injEq] at h
    obtain ⟨rfl, rfl⟩ := h
    simp [readExponent, hletter]
  | e :: c :: s =>
    rw [readExponent_cons] at h
    rw [List.cons_append, List.cons_append, readExponent_cons]
    split_ifs at h ⊢ with hletter hsign
    · exact readsAlike_readDigits.map _ h hrest
    · exact readsAlike_readDigits.map _ h hrest
    · simp only [Option.some.injEq, Prod.mk.injEq] at h ⊢
      exact ⟨h.1, by rw [← h.2, List.cons_append, List.cons_append]⟩

theorem readsAlike_readUnsigned : ReadsAlike readUnsigned := by
  intro s out left rest h hrest
  simp only [readUnsigned, Option.bind_eq_some_iff, Option.map_eq_some_iff, Prod.exists,
    Prod.mk.injEq] at h ⊢
  obtain ⟨whole, _, hwhole, fraction, _, hfraction, exponent, _, hexponent, rfl, rfl⟩ := h
  exact ⟨whole, _, readsAlike_readWhole hwhole hrest, fraction, _,
    readsAlike_readFraction hfraction hrest, exponent, _, readsAlike_readExponent hexponent hrest,
    rfl, rfl⟩

theorem readNumber_cons (c : Char) (s : List Char) :
    readNumber (c :: s) =
      if c = '-' then (readUnsigned s).map (Prod.map ('-' :: ·) id) else readUnsigned (c :: s) := by
  split
  · subst c
    rfl
  · rw [readNumber]
    simpa

theorem readNumber_nil : readNumber [] = none := rfl

/-- A number is read as it stands before a text that ends it. -/
theorem readsAlike_readNumber : ReadsAlike readNumber := by
  intro s out left rest h hrest
  cases s with
  | nil => simp [readNumber_nil] at h
  | cons c s =>
    rw [readNumber_cons] at h
    rw [List.cons_append, readNumber_cons]
    split_ifs at h ⊢ with hsign
    · exact readsAlike_readUnsigned.map _ h hrest
    · exact readsAlike_readUnsigned h hrest

/-- The text is a number, from its beginning to its end. -/
def IsNumber (literal : String) : Prop := readNumber literal.toList = some (literal.toList, [])

theorem begins_of_readNumber (h : readNumber (c :: s) = some (out, rest)) :
    c = '-' ∨ c.isDigit := by
  rw [readNumber_cons] at h
  split_ifs at h with hsign
  · exact Or.inl hsign
  right
  simp only [readUnsigned, Option.bind_eq_some_iff, Prod.exists] at h
  obtain ⟨whole, afterWhole, hwhole, -⟩ := h
  rw [readWhole_cons] at hwhole
  split_ifs at hwhole with hzero
  · rw [hzero]
    decide
  · cases hdigit : c.isDigit with
    | true => rfl
    | false => simp [readDigits, hdigit] at hwhole

/-! ### The first token -/

namespace Token

theorem ne_of_begins {d : Char} (h : c = '-' ∨ c.isDigit) (hd : ¬(d = '-' ∨ d.isDigit)) :
    c ≠ d := by
  rintro rfl
  exact hd h

/-- A text that begins like a number has no other token at its front. -/
theorem read_cons_of_begins (h : c = '-' ∨ c.isDigit) :
    Token.read (c :: s) = (readNumber (c :: s)).map fun (literal, rest) =>
      (.number (String.ofList literal), rest) := by
  have hmark : ofMark? c = none := by
    rw [ofMark?] <;> exact ne_of_begins h (by decide)
  rw [Token.read, hmark]
  -- neither a word nor a string
  · exact fun _ hc => absurd hc (ne_of_begins h (by decide))
  · exact fun _ hc => absurd hc (ne_of_begins h (by decide))
  · exact fun _ hc => absurd hc (ne_of_begins h (by decide))
  · exact ne_of_begins h (by decide)

theorem isSpace_eq_false_of_begins (h : c = '-' ∨ c.isDigit) : isSpace c = false := by
  simp only [isSpace, Bool.or_eq_false_iff, beq_eq_false_iff_ne]
  refine ⟨⟨⟨?_, ?_⟩, ?_⟩, ?_⟩ <;> exact ne_of_begins h (by decide)

/-- The text without the blanks before it begins with the first token. -/
theorem ofText_eq (s : List Char) :
    Token.ofText s = match s.dropWhile isSpace with
      | [] => some []
      | c :: text => (Token.read (c :: text)).bind fun (t, rest) =>
        (Token.ofText rest).map (t :: ·) := by
  rw [Token.ofText]
  split
  case h_1 hblank => simp only [hblank]
  case h_2 c text htext =>
    split
    case h_1 hnone => simp only [htext, hnone, Option.bind_none]
    case h_2 hsome => simp only [htext, hsome, Option.bind_some]

theorem ofText_nil : Token.ofText [] = some [] := ofText_eq []

theorem ofText_cons_of_read (hspace : isSpace c = false)
    (h : Token.read (c :: s) = some (t, rest)) :
    Token.ofText (c :: s) = (Token.ofText rest).map (t :: ·) := by
  rw [ofText_eq, List.dropWhile_cons_of_neg (by simp [hspace])]
  simp only [h, Option.bind_some]

/-- Blanks do not count. -/
theorem ofText_append_of_isSpace (h : ∀ c ∈ s, isSpace c) (rest : List Char) :
    Token.ofText (s ++ rest) = Token.ofText rest := by
  rw [ofText_eq, ofText_eq rest, List.dropWhile_append_of_pos h]

theorem ofText_mark {mark : String} (hmark : mark.toList = [c]) (h : ofMark? c = some t)
    (s : List Char) : Token.ofText (mark.toList ++ s) = (Token.ofText s).map (t :: ·) := by
  rw [hmark, List.cons_append, List.nil_append]
  unfold ofMark? at h
  split at h <;> cases h <;> exact ofText_cons_of_read (by decide) rfl

theorem ofText_null (s : List Char) :
    Token.ofText ("null".toList ++ s) = (Token.ofText s).map (.null :: ·) :=
  ofText_cons_of_read (by decide) rfl

theorem ofText_bool (b : Bool) (s : List Char) :
    Token.ofText ((toString b).toList ++ s) = (Token.ofText s).map (.bool b :: ·) := by
  cases b <;> exact ofText_cons_of_read (by decide) rfl

theorem ofText_number (h : IsNumber literal) (hrest : EndsNumber rest) :
    Token.ofText (literal.toList ++ rest) = (Token.ofText rest).map (.number literal :: ·) := by
  have hnumber := readsAlike_readNumber h hrest
  rw [IsNumber] at h
  cases hliteral : literal.toList with
  | nil => simp [hliteral, readNumber_nil] at h
  | cons c s =>
    rw [hliteral] at h hnumber
    have hbegins := begins_of_readNumber h
    have hread : Token.read (c :: (s ++ rest)) = some (.number literal, rest) := by
      rw [read_cons_of_begins hbegins, ← List.cons_append, hnumber, ← hliteral]
      simp only [List.nil_append, Option.map_some, String.ofList_toList]
    exact ofText_cons_of_read (isSpace_eq_false_of_begins hbegins) hread

/-- A string is read with the text that it was written for, or with none if it was written for none. -/
theorem ofText_writeString (text? : Option String) (rest : List Char) :
    Token.ofText ((writeString text?).toList ++ rest) =
      (Token.ofText rest).map (.string text? :: ·) := by
  cases text? with
  | none =>
    have hread : Token.read ((writeString none).toList ++ rest) = some (.string none, rest) := by
      have htext : textOfUnits [.code 0xD800] = none := rfl
      simp [writeString, Token.read, readUnits, code?, hexValue?, htext]
    exact ofText_cons_of_read (by decide) hread
  | some text =>
    obtain ⟨units, htext, hunits⟩ := exists_readUnits_flatMap text.toList rest
    have hread : Token.read ((writeString (some text)).toList ++ rest) =
        some (.string (some text), rest) := by
      simp [writeString, quote, Token.read, hunits, htext]
    simp only [writeString, quote, String.toList_ofList] at hread ⊢
    exact ofText_cons_of_read (by decide) hread

end Token

end Datalog.Json
