/-!
# Text in JSON

A string in JSON stands between quotation marks, with some characters escaped. An escape may name any
16-bit code, so the contents of a string are a sequence of characters and codes. Two codes that form a
surrogate pair stand for one character. A surrogate without its partner stands for none, and a string
that holds one denotes no text.

## Main definitions

* `quote` — writes a text, escaping as little as possible
* `StringUnit` — a character or a code
* `readUnits` — reads the contents of a string
* `textOfUnits` — the text that the contents denote
-/

namespace Datalog.Json

/-- How a character is written in a string. Only quotation marks, backslashes and control characters
are escaped. -/
def escaped (c : Char) : List Char :=
  match c with
  | '"' => ['\\', '"']
  | '\\' => ['\\', '\\']
  | '\x08' => ['\\', 'b']
  | '\t' => ['\\', 't']
  | '\n' => ['\\', 'n']
  | '\x0c' => ['\\', 'f']
  | '\r' => ['\\', 'r']
  | c =>
    if c.toNat < 0x20 then
      ['\\', 'u', '0', '0', Nat.digitChar (c.toNat / 16), Nat.digitChar (c.toNat % 16)]
    else [c]

/-- Writes a text as a string. -/
def quote (text : String) : String :=
  String.ofList ('"' :: text.toList.flatMap escaped ++ ['"'])

/-- A part of the contents of a string. -/
inductive StringUnit where
  /-- A character that stands for itself or has an escape of its own. -/
  | char (c : Char)
  /-- A 16-bit code that is written in hexadecimal digits. -/
  | code (n : Nat)
  deriving DecidableEq

/-- The value of a hexadecimal digit in either case. -/
def hexValue? (c : Char) : Option Nat :=
  if '0' ≤ c ∧ c ≤ '9' then some (c.toNat - '0'.toNat)
  else if 'a' ≤ c ∧ c ≤ 'f' then some (c.toNat - 'a'.toNat + 10)
  else if 'A' ≤ c ∧ c ≤ 'F' then some (c.toNat - 'A'.toNat + 10)
  else none

/-- The code that four hexadecimal digits write. -/
def code? (a b c d : Char) : Option Nat :=
  match hexValue? a, hexValue? b, hexValue? c, hexValue? d with
  | some a, some b, some c, some d => some (((a * 16 + b) * 16 + c) * 16 + d)
  | _, _, _, _ => none

/-- The character that a letter after a backslash stands for. -/
def escape? : Char → Option Char
  | '"' => some '"'
  | '\\' => some '\\'
  | '/' => some '/'
  | 'b' => some '\x08'
  | 'f' => some '\x0c'
  | 'n' => some '\n'
  | 'r' => some '\r'
  | 't' => some '\t'
  | _ => none

/-- Reads the contents of a string after its opening quotation mark, with the closing one. Control
characters have to be escaped. -/
def readUnits : List Char → Option (List StringUnit × List Char)
  | [] => none
  | '"' :: rest => some ([], rest)
  | '\\' :: 'u' :: a :: b :: c :: d :: rest =>
    match code? a b c d, readUnits rest with
    | some n, some (units, rest) => some (.code n :: units, rest)
    | _, _ => none
  | '\\' :: letter :: rest =>
    match escape? letter, readUnits rest with
    | some c, some (units, rest) => some (.char c :: units, rest)
    | _, _ => none
  | c :: rest =>
    if c.toNat < 0x20 ∨ c = '\\' then none
    else
      match readUnits rest with
      | some (units, rest) => some (.char c :: units, rest)
      | none => none

/-- The code is the first of a surrogate pair. -/
def isLeading (n : Nat) : Bool := 0xD800 ≤ n && n < 0xDC00

/-- The code is the second of a surrogate pair. -/
def isTrailing (n : Nat) : Bool := 0xDC00 ≤ n && n < 0xE000

/-- The text that the contents of a string denote. There is none if a surrogate stands alone. -/
def textOfUnits : List StringUnit → Option (List Char)
  | [] => some []
  | .char c :: rest => (textOfUnits rest).map (c :: ·)
  | .code n :: .code m :: rest =>
    if isLeading n && isTrailing m then
      (textOfUnits rest).map (Char.ofNat (0x10000 + (n - 0xD800) * 0x400 + (m - 0xDC00)) :: ·)
    else if isLeading n || isTrailing n then none
    else (textOfUnits (.code m :: rest)).map (Char.ofNat n :: ·)
  | .code n :: rest =>
    if isLeading n || isTrailing n then none
    else (textOfUnits rest).map (Char.ofNat n :: ·)

theorem readUnits_shorter {s rest : List Char} {units : List StringUnit}
    (h : readUnits s = some (units, rest)) : rest.length < s.length := by
  fun_induction readUnits s generalizing units rest with
  | case1 => simp at h
  | case2 => simp_all
  | case3 a b c d tail n units' rest' hread hcode ih =>
    have := ih hread
    simp only [Option.some.injEq, Prod.mk.injEq] at h
    simp only [List.length_cons, ← h.2]
    omega
  | case4 => simp at h
  | case5 letter tail hletter c units' rest' hread hescape ih =>
    have := ih hread
    simp only [Option.some.injEq, Prod.mk.injEq] at h
    simp only [List.length_cons, ← h.2]
    omega
  | case6 => simp at h
  | case7 => simp at h
  | case8 c tail hquote hcode hbackslash hplain units' rest' hread ih =>
    have := ih hread
    simp only [Option.some.injEq, Prod.mk.injEq] at h
    simp only [List.length_cons, ← h.2]
    omega
  | case9 => simp at h

end Datalog.Json
