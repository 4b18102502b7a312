import Datalog.Json.Text

/-!
# Tokens of JSON

Texts of JSON are cut into tokens first: marks, the words `null`, `true` and `false`, numbers and
strings. Blanks between tokens do not count, so two layouts of a value have the same tokens.

## Main definitions

* `Token` — a token
* `Token.ofText` — the tokens of a text
-/

namespace Datalog.Json

/-- A token. -/
inductive Token where
  /-- The opening brace of an object. -/
  | beginObject
  /-- The closing brace of an object. -/
  | endObject
  /-- The opening bracket of an array. -/
  | beginArray
  /-- The closing bracket of an array. -/
  | endArray
  /-- The comma between items or members. -/
  | comma
  /-- The colon between the name and the value of a member. -/
  | colon
  /-- The word `null`. -/
  | null
  /-- The word `true` or `false`. -/
  | bool (b : Bool)
  /-- A number, as it is written. -/
  | number (literal : String)
  /-- A string with the text that it denotes, if it denotes one. -/
  | string (text? : Option String)
  deriving DecidableEq

/-- The characters that may stand between tokens. -/
def isSpace (c : Char) : Bool := c == ' ' || c == '\t' || c == '\r' || c == '\n'

/-- Reads digits, where there has to be one. -/
def readDigits (s : List Char) : Option (List Char × List Char) :=
  match s.takeWhile Char.isDigit with
  | [] => none
  | digits => some (digits, s.dropWhile Char.isDigit)

/-- Reads the whole part of a number: a zero, or digits that do not begin with one. -/
def readWhole : List Char → Option (List Char × List Char)
  | '0' :: rest => some (['0'], rest)
  | s => readDigits s

/-- Reads the digits that follow the decimal point, if there is one. -/
def readFraction : List Char → Option (List Char × List Char)
  | '.' :: s => (readDigits s).map fun (digits, rest) => ('.' :: digits, rest)
  | s => some ([], s)

/-- Reads the exponent, if there is one. -/
def readExponent : List Char → Option (List Char × List Char)
  | [] => some ([], [])
  | e :: s =>
    if e = 'e' ∨ e = 'E' then
      match s with
      | '+' :: s => (readDigits s).map fun (digits, rest) => (e :: '+' :: digits, rest)
      | '-' :: s => (readDigits s).map fun (digits, rest) => (e :: '-' :: digits, rest)
      | s => (readDigits s).map fun (digits, rest) => (e :: digits, rest)
    else some ([], e :: s)

/-- Reads a number without its sign. -/
def readUnsigned (s : List Char) : Option (List Char × List Char) :=
  (readWhole s).bind fun (whole, afterWhole) =>
    (readFraction afterWhole).bind fun (fraction, afterFraction) =>
      (readExponent afterFraction).map fun (exponent, rest) =>
        (whole ++ fraction ++ exponent, rest)

/-- Reads a number. -/
def readNumber : List Char → Option (List Char × List Char)
  | '-' :: s => (readUnsigned s).map fun (literal, rest) => ('-' :: literal, rest)
  | s => readUnsigned s

/-- The tokens that are a single mark. -/
def Token.ofMark? : Char → Option Token
  | '{' => some .beginObject
  | '}' => some .endObject
  | '[' => some .beginArray
  | ']' => some .endArray
  | ',' => some .comma
  | ':' => some .colon
  | _ => none

/-- Reads the token at the front of a text. -/
def Token.read (s : List Char) : Option (Token × List Char) :=
  match s with
  | 'n' :: 'u' :: 'l' :: 'l' :: rest => some (.null, rest)
  | 't' :: 'r' :: 'u' :: 'e' :: rest => some (.bool true, rest)
  | 'f' :: 'a' :: 'l' :: 's' :: 'e' :: rest => some (.bool false, rest)
  | '"' :: rest => (readUnits rest).map fun (units, rest) =>
    (.string ((textOfUnits units).map String.ofList), rest)
  | c :: rest =>
    match Token.ofMark? c with
    | some mark => some (mark, rest)
    | none => (readNumber s).map fun (literal, rest) => (.number (String.ofList literal), rest)
  | [] => none

/-! ### Reading goes forward -/

theorem readDigits_shorter {s digits rest : List Char} (h : readDigits s = some (digits, rest)) :
    rest.length < s.length := by
  rw [readDigits] at h
  split at h
  · simp at h
  · rename_i hdigits
    simp only [Option.some.injEq, Prod.mk.injEq] at h
    have split := congrArg List.length
      (List.takeWhile_append_dropWhile (p := Char.isDigit) (l := s))
    have := List.length_pos_iff.2 hdigits
    rw [List.length_append, h.2] at split
    omega

theorem readWhole_shorter {s whole rest : List Char} (h : readWhole s = some (whole, rest)) :
    rest.length < s.length := by
  unfold readWhole at h
  split at h
  · simp only [Option.some.injEq, Prod.mk.injEq] at h
    simp [h.2]
  · exact readDigits_shorter h

theorem length_readFraction_le {s fraction rest : List Char}
    (h : readFraction s = some (fraction, rest)) : rest.length ≤ s.length := by
  unfold readFraction at h
  split at h
  · simp only [Option.map_eq_some_iff, Prod.exists, Prod.mk.injEq] at h
    obtain ⟨digits, rest', hdigits, -, rfl⟩ := h
    have := readDigits_shorter hdigits
    simp only [List.length_cons]
    omega
  · simp only [Option.some.injEq, Prod.mk.injEq] at h
    simp [h.2]

theorem length_readExponent_le {s exponent rest : List Char}
    (h : readExponent s = some (exponent, rest)) : rest.length ≤ s.length := by
  unfold readExponent at h
  split at h
  · simp only [Option.some.injEq, Prod.mk.injEq] at h
    simp [← h.2]
  split at h
  · split at h <;>
    · simp only [Option.map_eq_some_iff, Prod.exists, Prod.mk.injEq] at h
      obtain ⟨digits, rest', hdigits, -, rfl⟩ := h
      have := readDigits_shorter hdigits
      simp only [List.length_cons]
      omega
  · simp only [Option.some.injEq, Prod.mk.injEq] at h
    simp [← h.2]

theorem readUnsigned_shorter {s literal rest : List Char}
    (h : readUnsigned s = some (literal, rest)) : rest.length < s.length := by
  simp only [readUnsigned, Option.bind_eq_some_iff, Option.map_eq_some_iff, Prod.exists,
    Prod.mk.injEq] at h
  obtain ⟨_, _, hwhole, _, _, hfraction, _, _, hexponent, -, rfl⟩ := h
  have := readWhole_shorter hwhole
  have := length_readFraction_le hfraction
  have := length_readExponent_le hexponent
  omega

theorem readNumber_shorter {s literal rest : List Char}
    (h : readNumber s = some (literal, rest)) : rest.length < s.length := by
  unfold readNumber at h
  split at h
  · simp only [Option.map_eq_some_iff, Prod.exists, Prod.mk.injEq] at h
    obtain ⟨_, _, hunsigned, -, rfl⟩ := h
    have := readUnsigned_shorter hunsigned
    simp only [List.length_cons]
    omega
  · exact readUnsigned_shorter h

theorem Token.read_shorter {s rest : List Char} {t : Token} (h : Token.read s = some (t, rest)) :
    rest.length < s.length := by
  unfold Token.read at h
  split at h
  · simp only [Option.some.injEq, Prod.mk.injEq] at h
    simp only [List.length_cons, ← h.2]
    omega
  · simp only [Option.some.injEq, Prod.mk.injEq] at h
    simp only [List.length_cons, ← h.2]
    omega
  · simp only [Option.some.injEq, Prod.mk.injEq] at h
    simp only [List.length_cons, ← h.2]
    omega
  · simp only [Option.map_eq_some_iff, Prod.exists, Prod.mk.injEq] at h
    obtain ⟨_, _, hunits, -, rfl⟩ := h
    have := readUnits_shorter hunits
    simp only [List.length_cons]
    omega
  · split at h
    · simp only [Option.some.injEq, Prod.mk.injEq] at h
      simp [h.2]
    · simp only [Option.map_eq_some_iff, Prod.exists, Prod.mk.injEq] at h
      obtain ⟨_, _, hnumber, -, rfl⟩ := h
      exact readNumber_shorter hnumber
  · simp at h

/-- The tokens of a text, or nothing if some part of it is not a token. -/
def Token.ofText (s : List Char) : Option (List Token) :=
  match hspace : s.dropWhile isSpace with
  | [] => some []
  | c :: text =>
    match htoken : Token.read (c :: text) with
    | none => none
    | some (t, rest) =>
      have : rest.length < s.length :=
        Nat.lt_of_lt_of_le (Token.read_shorter htoken)
          (hspace ▸ (List.dropWhile_sublist isSpace).length_le)
      (Token.ofText rest).map (t :: ·)
termination_by s.length

end Datalog.Json
