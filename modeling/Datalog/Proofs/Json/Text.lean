import Datalog.Json.Text

/-!
# Strings of JSON are read as they were written

What a character is written as is read as one part of a string, and this part stands for the
character wherever it occurs: a character without an escape of its own is written as a code, which is
too small to be a surrogate, so it never makes up a pair with its neighbours.

## Main definitions

* `StringUnit.Denotes` — the part stands for a character in every string

## Main results

* `exists_readUnits_escaped` — what is written of a character is read as a part that denotes it
* `exists_readUnits_flatMap` — what is written of a text is read as contents that denote it
-/

namespace Datalog.Json

variable {n : Nat} {c : Char} {rest tail : List Char} {units : List StringUnit}

/-! ### Codes -/

theorem hexValue?_digitChar (h : n < 16) : hexValue? (Nat.digitChar n) = some n := by
  revert n
  decide

/-- Two digits after two zeros write any code that fits into two digits. -/
theorem code?_digitChar (h : n < 16 * 16) :
    code? '0' '0' (Nat.digitChar (n / 16)) (Nat.digitChar (n % 16)) = some n := by
  have hzero : hexValue? '0' = some 0 := by decide
  have hhigh : hexValue? (Nat.digitChar (n / 16)) = some (n / 16) :=
    hexValue?_digitChar (Nat.div_lt_of_lt_mul h)
  have hlow : hexValue? (Nat.digitChar (n % 16)) = some (n % 16) :=
    hexValue?_digitChar (Nat.mod_lt n (by decide))
  simp only [code?, hzero, hhigh, hlow, Option.some.injEq]
  omega

/-! ### The parts of a string -/

/-- The part stands for a character, whatever comes after it. -/
def StringUnit.Denotes (unit : StringUnit) (c : Char) : Prop :=
  ∀ units, textOfUnits (unit :: units) = (textOfUnits units).map (c :: ·)

namespace StringUnit

theorem denotes_char (c : Char) : (char c).Denotes c := fun _ => by rw [textOfUnits]

theorem denotes_code (hleading : isLeading n = false) (htrailing : isTrailing n = false) :
    (code n).Denotes (Char.ofNat n) := by
  intro units
  match units with
  | [] | .char _ :: _ | .code _ :: _ => simp [textOfUnits, hleading, htrailing]

end StringUnit

/-! ### Characters -/

/-- A control character that has no escape of its own. -/
theorem exists_readUnits_control (h : c.toNat < 0x20) :
    ∃ unit : StringUnit, unit.Denotes c ∧ ∀ {rest units tail},
      readUnits rest = some (units, tail) →
        readUnits ('\\' :: 'u' :: '0' :: '0' :: Nat.digitChar (c.toNat / 16) ::
          Nat.digitChar (c.toNat % 16) :: rest) = some (unit :: units, tail) := by
  refine ⟨.code c.toNat, ?_, fun hrest => ?_⟩
  · have hleading : isLeading c.toNat = false := by
      simp only [isLeading, Bool.and_eq_false_imp, decide_eq_true_eq, decide_eq_false_iff_not]
      omega
    have htrailing : isTrailing c.toNat = false := by
      simp only [isTrailing, Bool.and_eq_false_imp, decide_eq_true_eq, decide_eq_false_iff_not]
      omega
    simpa only [Char.ofNat_toNat] using StringUnit.denotes_code hleading htrailing
  · have hcode := code?_digitChar (n := c.toNat) (by omega)
    simp only [readUnits, hcode, hrest]

/-- What is written of a character is read as one part of the string, which denotes it. -/
theorem exists_readUnits_escaped (c : Char) :
    ∃ unit : StringUnit, unit.Denotes c ∧ ∀ {rest units tail},
      readUnits rest = some (units, tail) →
        readUnits (escaped c ++ rest) = some (unit :: units, tail) := by
  unfold escaped
  split
  case h_8 hquote hbackslash _ _ _ _ _ =>
    split
    case isTrue hcontrol => exact exists_readUnits_control hcontrol
    case isFalse hplain =>
      refine ⟨_, StringUnit.denotes_char c, fun hrest => ?_⟩
      rw [List.cons_append, List.nil_append, readUnits.eq_def]
      split <;> simp_all
  -- the characters that have escapes of their own
  all_goals
    refine ⟨_, StringUnit.denotes_char _, fun hrest => ?_⟩
    simp [readUnits, escape?, hrest]

/-! ### Texts -/

/-- What is written of a text is read, up to the closing quotation mark, as contents that denote the
text. -/
theorem exists_readUnits_flatMap (text rest : List Char) :
    ∃ units, textOfUnits units = some text ∧
      readUnits (text.flatMap escaped ++ '"' :: rest) = some (units, rest) := by
  induction text with
  | nil => exact ⟨[], rfl, by simp [readUnits]⟩
  | cons c text ih =>
    obtain ⟨units, htext, hread⟩ := ih
    obtain ⟨unit, hunit, hescaped⟩ := exists_readUnits_escaped c
    refine ⟨unit :: units, ?_, ?_⟩
    · rw [hunit, htext, Option.map_some]
    · rw [List.flatMap_cons, List.append_assoc]
      exact hescaped hread

end Datalog.Json
