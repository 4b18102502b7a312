import Datalog.Proofs.Grammar.Spelling

/-!
# What is spelled at the front of a text

A text may begin with some signs and go on with anything. What follows the signs is told from behind the
blanks after them, which is where a reader is when it has taken them. A whole text spells some signs if
it begins with them and nothing follows.

## Main definitions

* `SpellsUpTo` — a text begins with some signs, and this is what follows

## Main results

* `spellsUpTo_nil_iff`, `spellsUpTo_cons_iff` — the front of a text is told sign by sign
* `Spells.upTo` — what is spelled is spelled at the front of every text that it begins
-/

namespace Datalog.Grammar

/-- The text begins with the signs, and `rest` is what follows, behind all blanks. -/
structure SpellsUpTo (signs : List Sign) (s rest : List Char) : Prop where
  /-- The signs are spelled by what stands before the rest. -/
  exists_front : ∃ front, s = front ++ rest ∧ Spells signs front
  /-- No blanks are left over. -/
  skips : skipBlanks rest = rest

variable {signs : List Sign} {sign : Sign} {s rest t : List Char}

/-- A whole text is a front that nothing follows. -/
theorem spellsUpTo_nil_right : SpellsUpTo signs s [] ↔ Spells signs s := by
  constructor
  · rintro ⟨⟨front, hs, hfront⟩, -⟩
    rwa [hs, List.append_nil]
  · exact fun h => ⟨⟨s, (List.append_nil s).symm, h⟩, rfl⟩

/-- No signs are spelled by the blanks at the front. -/
theorem spellsUpTo_nil_iff : SpellsUpTo [] s rest ↔ skipBlanks s = rest := by
  constructor
  · rintro ⟨⟨front, rfl, ⟨hblanks⟩⟩, hskips⟩
    rw [skipBlanks_append hblanks, hskips]
  · rintro rfl
    obtain ⟨blanks, hblanks, hs⟩ := exists_append_skipBlanks s
    exact ⟨⟨blanks, hs, .nil hblanks⟩, skipBlanks_skipBlanks s⟩

/-- The first sign stands behind the blanks at the front of the text. -/
theorem spellsUpTo_cons_iff :
    SpellsUpTo (sign :: signs) s rest ↔
      sign.WellFormed ∧
        ∃ found, skipBlanks s = sign.chars ++ found ∧ SpellsUpTo signs found rest := by
  constructor
  · rintro ⟨⟨front, rfl, _ | ⟨hblanks, hsign, hfront⟩⟩, hskips⟩
    refine ⟨hsign, _, ?_, ⟨⟨_, rfl, hfront⟩, hskips⟩⟩
    rw [List.append_assoc, skipBlanks_append hblanks, List.append_assoc, skipBlanks_chars hsign]
  · rintro ⟨hsign, found, hs, ⟨front, rfl, hfront⟩, hskips⟩
    obtain ⟨blanks, hblanks, happend⟩ := exists_append_skipBlanks s
    refine ⟨⟨blanks ++ (sign.chars ++ front), ?_, .cons hblanks hsign hfront⟩, hskips⟩
    rw [happend, hs, List.append_assoc, List.append_assoc]

/-- Blanks at the front of a text do not matter. -/
@[simp] theorem spellsUpTo_skipBlanks :
    SpellsUpTo signs (skipBlanks s) rest ↔ SpellsUpTo signs s rest := by
  cases signs with
  | nil => simp only [spellsUpTo_nil_iff, skipBlanks_skipBlanks]
  | cons sign signs => simp only [spellsUpTo_cons_iff, skipBlanks_skipBlanks]

/-- What is spelled by a text is spelled at the front of all texts that it begins. -/
theorem Spells.upTo (h : Spells signs s) (t : List Char) :
    SpellsUpTo signs (s ++ t) (skipBlanks t) := by
  obtain ⟨blanks, hblanks, ht⟩ := exists_append_skipBlanks t
  refine ⟨⟨s ++ blanks, ?_, ?_⟩, skipBlanks_skipBlanks t⟩
  · rw [List.append_assoc, ← ht]
  · simpa using h.append (.nil hblanks)

end Datalog.Grammar
