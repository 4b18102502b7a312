import Datalog.Grammar.Position
import Mathlib.Data.List.DropRight
import Mathlib.Data.String.Basic

/-!
# Finding the place that a report means

A report counts the line feeds before a place, and the bytes from the last of them to the place. Going
on in the text makes one of these numbers greater and never brings both back, so they tell the place. A
number of bytes that ends inside a character is the column of no place.

## Main definitions

* `Text.IsFirstLine`, `Text.IsLastLine` — what stands before the first line break of a text, and after
  its last line feed
* `SyntaxError.PointsTo` — the places of a text where the line and the column of a report are right

## Main results

* `Text.isFirstLine_firstLine`, `Text.isLastLine_iff` — the lines at the ends of a text
* `Text.eq_of_isLastLine` — line feeds and bytes tell how much of a text stands before a place
* `SyntaxError.pointsTo_ofRest_iff` — a report is right at the place that it was made for, and nowhere
  else
-/

namespace Datalog

namespace Text

/-- A line break stands at the front: a line feed, or a carriage return and a line feed. -/
def BeginsWithBreak (s : List Char) : Prop := ['\n'] <+: s ∨ ['\r', '\n'] <+: s

/-- The line stands in the text before its first line break, or it is all of the text. -/
structure IsFirstLine (line s : List Char) : Prop where
  /-- The line begins the text, and it goes to a line break or to the end. -/
  exists_tail : ∃ tail, s = line ++ tail ∧ (tail = [] ∨ BeginsWithBreak tail)
  /-- There is no line break before its end. -/
  length_le : ∀ {front tail}, s = front ++ tail → BeginsWithBreak tail → line.length ≤ front.length

/-- The line stands in the text after its last line feed, or it is all of the text. -/
structure IsLastLine (line s : List Char) : Prop where
  /-- The line ends the text, and it begins at the beginning or after a line feed. -/
  exists_lines : ∃ lines, s = lines ++ line ∧ (lines = [] ∨ lines.getLast? = some '\n')
  /-- There is no line feed after its beginning. -/
  not_mem : '\n' ∉ line

variable {line s t gap : List Char}

/-! ### The first line -/

theorem IsFirstLine.isPrefix (h : IsFirstLine line s) : line <+: s := by
  obtain ⟨tail, rfl, -⟩ := h.exists_tail
  exact List.prefix_append line tail

theorem IsFirstLine.not_mem (h : IsFirstLine line s) : '\n' ∉ line := by
  intro hmem
  obtain ⟨front, back, rfl⟩ := List.append_of_mem hmem
  obtain ⟨tail, rfl, -⟩ := h.exists_tail
  have hle := h.length_le (List.append_assoc front _ tail) (Or.inl ⟨back ++ tail, rfl⟩)
  simp at hle

/-- A text that begins neither with a carriage return nor with a line feed has something on its first
line. -/
theorem IsFirstLine.ne_nil {c : Char} (h : IsFirstLine line (c :: s)) (hcr : c ≠ '\r')
    (hlf : c ≠ '\n') : line ≠ [] := by
  rintro rfl
  obtain ⟨tail, rfl, hnil | ⟨t, ht⟩ | ⟨t, ht⟩⟩ := h.exists_tail
  · simp at hnil
  · exact hlf (List.cons.inj ht).1.symm
  · exact hcr (List.cons.inj ht).1.symm

theorem isFirstLine_firstLine (s : List Char) : IsFirstLine (firstLine s) s := by
  fun_induction firstLine s with
  | case1 => exact ⟨⟨[], rfl, Or.inl rfl⟩, fun _ _ => Nat.zero_le _⟩
  | case2 s => exact ⟨⟨_, rfl, Or.inr (Or.inl ⟨s, rfl⟩)⟩, fun _ _ => Nat.zero_le _⟩
  | case3 s => exact ⟨⟨_, rfl, Or.inr (Or.inr ⟨s, rfl⟩)⟩, fun _ _ => Nat.zero_le _⟩
  | case4 c s hlf hcrlf ih =>
    obtain ⟨tail, hs, htail⟩ := ih.exists_tail
    refine ⟨⟨tail, congrArg (c :: ·) hs, htail⟩, ?_⟩
    intro front tail hfront hbreak
    cases front with
    -- The first character begins no line break.
    | nil =>
      obtain rfl : c :: s = tail := hfront
      obtain ⟨t, ht⟩ | ⟨t, ht⟩ := hbreak
      · exact absurd (List.cons.inj ht).1.symm hlf
      · exact absurd (List.cons.inj ht).2.symm (hcrlf t (List.cons.inj ht).1.symm)
    | cons d front =>
      exact Nat.succ_le_succ (ih.length_le (List.cons.inj hfront).2 hbreak)

/-! ### The last line -/

/-- The last line goes back from the end as far as there is no line feed. -/
theorem isLastLine_iff : IsLastLine line s ↔ line = s.rtakeWhile (· ≠ '\n') := by
  constructor
  · rintro ⟨⟨lines, rfl, hlines⟩, hline⟩
    have hall : ∀ c ∈ line.reverse, decide (c ≠ '\n') = true := by
      intro c hc
      simpa using fun heq : c = '\n' => hline (heq ▸ List.mem_reverse.mp hc)
    -- Going back stops where the lines before end.
    have hstop : lines.reverse.takeWhile (· ≠ '\n') = [] := by
      rcases hlines with rfl | hlast
      · rfl
      · rw [← List.head?_reverse] at hlast
        obtain ⟨t, ht⟩ := List.head?_eq_some_iff.mp hlast
        rw [ht, List.takeWhile_cons_of_neg (by simp)]
    rw [List.rtakeWhile, List.reverse_append, List.takeWhile_append_of_pos hall, hstop,
      List.append_nil, List.reverse_reverse]
  · rintro rfl
    refine ⟨⟨s.rdropWhile (· ≠ '\n'), List.rdropWhile_append_rtakeWhile.symm, ?_⟩, ?_⟩
    · rcases eq_or_ne (s.rdropWhile (· ≠ '\n')) [] with hnil | hne
      · exact Or.inl hnil
      · have hlast := List.rdropWhile_last_not _ s hne
        rw [List.getLast?_eq_some_getLast hne]
        exact Or.inr (by simpa using hlast)
    · intro hmem
      simpa using List.mem_rtakeWhile_imp hmem

/-- What is written without a line feed makes the last line longer. -/
theorem IsLastLine.append (h : IsLastLine line s) (hgap : '\n' ∉ gap) :
    IsLastLine (line ++ gap) (s ++ gap) := by
  obtain ⟨⟨lines, rfl, hlines⟩, hline⟩ := h
  refine ⟨⟨lines, List.append_assoc lines line gap, hlines⟩, ?_⟩
  simp [hline, hgap]

/-! ### Bytes -/

theorem byteLength_eq (s : List Char) : byteLength s = String.utf8Len s := by
  induction s with
  | nil => rfl
  | cons c s ih => rw [byteLength, ih, String.utf8Len_cons, Nat.add_comm]

/-- A text that goes on has a line feed more, or more bytes on its last line. -/
theorem eq_of_isPrefix_of_isLastLine {last last' : List Char} (hst : s <+: t)
    (hcount : s.count '\n' = t.count '\n') (hs : IsLastLine last s) (ht : IsLastLine last' t)
    (hbytes : String.utf8Len last = String.utf8Len last') : s = t := by
  obtain ⟨gap, rfl⟩ := hst
  have hgap : '\n' ∉ gap := by
    rw [List.count_append] at hcount
    exact List.count_eq_zero.mp (by omega)
  obtain rfl : last ++ gap = last' :=
    (isLastLine_iff.mp (hs.append hgap)).trans (isLastLine_iff.mp ht).symm
  have hnil : gap = [] := String.utf8Len_eq_zero.mp (by rw [String.utf8Len_append] at hbytes; omega)
  rw [hnil, List.append_nil]

/-- A place in a text is told by the line feeds before it and the bytes after the last of them. -/
theorem eq_of_isLastLine (text : List Char) {last last' : List Char} (hs : s <+: text)
    (ht : t <+: text) (hcount : s.count '\n' = t.count '\n') (hlast : IsLastLine last s)
    (hlast' : IsLastLine last' t) (hbytes : String.utf8Len last = String.utf8Len last') : s = t := by
  rcases List.prefix_or_prefix_of_prefix hs ht with hst | hts
  · exact eq_of_isPrefix_of_isLastLine hst hcount hlast hlast' hbytes
  · exact (eq_of_isPrefix_of_isLastLine hts hcount.symm hlast' hlast hbytes.symm).symm

end Text

namespace SyntaxError

open Text

/-- The line of the report counts the line feeds before the place, and its column counts the bytes
after the last of them. Both are counted from one. A place is an offset in bytes at which a character
begins or the text ends. -/
def PointsTo (e : SyntaxError) {text : String} (place : text.Pos) : Prop :=
  ∃ before rest line : String, place.Splits before rest ∧
    e.line = before.toList.count '\n' + 1 ∧
    IsLastLine line.toList before.toList ∧ e.column = line.utf8ByteSize + 1

variable {consumed rest : List Char} {text : String}

/-- A report is right at the place that it was made for, and nowhere else in the text. -/
theorem pointsTo_ofRest_iff (h : text.toList = consumed ++ rest) {place : text.Pos} :
    (ofRest text.toList rest).PointsTo place ↔
      place.Splits (String.ofList consumed) (String.ofList rest) := by
  have hlast : IsLastLine (consumed.rtakeWhile (· ≠ '\n')) consumed := isLastLine_iff.mpr rfl
  have hbytes : byteLength (consumed.reverse.takeWhile (· ≠ '\n')) =
      String.utf8Len (consumed.rtakeWhile (· ≠ '\n')) := by
    rw [byteLength_eq, List.rtakeWhile, String.utf8Len_reverse]
  rw [h, ofRest_append]
  constructor
  · rintro ⟨before, rest', line, hsplits, hline, hlast', hcolumn⟩
    have htext := h.symm.trans (congrArg String.toList hsplits.eq_append)
    rw [String.toList_append] at htext
    have hbefore : before.toList = consumed := by
      refine eq_of_isLastLine (consumed ++ rest) ?_ (List.prefix_append _ _) ?_ hlast' hlast ?_
      · exact htext ▸ List.prefix_append _ _
      · exact (Nat.succ.inj hline).symm
      · rw [← hbytes, ← String.utf8ByteSize_ofList, String.ofList_toList]
        exact (Nat.succ.inj hcolumn).symm
    rw [← hbefore] at htext ⊢
    rwa [List.append_cancel_left htext, String.ofList_toList, String.ofList_toList]
  · intro hsplits
    refine ⟨_, _, String.ofList (consumed.rtakeWhile (· ≠ '\n')), hsplits, ?_, ?_, ?_⟩
    · rw [String.toList_ofList, after]
    · rwa [String.toList_ofList, String.toList_ofList]
    · rw [String.utf8ByteSize_ofList, ← hbytes, after]

theorem existsUnique_pointsTo_ofRest (h : text.toList = consumed ++ rest) :
    ∃! place : text.Pos, (ofRest text.toList rest).PointsTo place := by
  have happend : text = String.ofList consumed ++ String.ofList rest := by
    rw [← String.ofList_append, ← h, String.ofList_toList]
  have hsplits := String.Pos.splits_ofEqAppend happend
  refine ⟨_, (pointsTo_ofRest_iff h).mpr hsplits, fun place hplace => ?_⟩
  exact ((pointsTo_ofRest_iff h).mp hplace).pos_eq hsplits

/-! ### What is shown -/

/-- What is shown of a line is its beginning. -/
theorem snippet_ofRest (text : List Char) (h : firstLine rest ≠ []) :
    (ofRest text rest).snippet = String.ofList ((firstLine rest).take 24) := by
  rw [ofRest, after, excerpt]
  split
  · rename_i hnil
    simp [h] at hnil
  · rfl

end SyntaxError

end Datalog
