import Datalog.Loading

/-!
# What is loaded from a file

The bytes of a text, with or without a byte order mark in front, are loaded as that text. Only a
text that begins with the character of the mark itself would lose it.

## Main definitions

* `FileHolds` — a file holds a text, marked or not

## Main results

* `withoutByteOrderMark_append`, `withoutByteOrderMark_toUTF8` — a mark is taken off, and nothing
  else
* `Program.result_load_eq_ok_some_iff` — which files a program is loaded from
* `Program.result_load` — a file with the text of a program, marked or not, is loaded as the program
-/

namespace Datalog

/-- The character whose bytes are the byte order mark. -/
def markCharacter : Char := '\uFEFF'

theorem utf8Encode_markCharacter : [markCharacter].utf8Encode = byteOrderMark.toByteArray := by
  decide

theorem size_byteOrderMark : byteOrderMark.toByteArray.size = byteOrderMark.length := rfl

/-- A mark in front of bytes is taken off. -/
theorem withoutByteOrderMark_append (bytes : ByteArray) :
    withoutByteOrderMark (byteOrderMark.toByteArray ++ bytes) = bytes := by
  rw [withoutByteOrderMark, ByteArray.extract_append_eq_left size_byteOrderMark.symm, if_pos,
    ByteArray.extract_append_eq_right size_byteOrderMark.symm ByteArray.size_append]
  exact List.toList_data_toByteArray

/-- Either a mark is taken off or there is none in front. -/
theorem withoutByteOrderMark_cases (bytes : ByteArray) :
    bytes = byteOrderMark.toByteArray ++ withoutByteOrderMark bytes ∨
      bytes = withoutByteOrderMark bytes ∧ ∀ rest, bytes ≠ byteOrderMark.toByteArray ++ rest := by
  by_cases hmark : (bytes.extract 0 byteOrderMark.length).data.toList = byteOrderMark
  · have hfront : bytes.extract 0 byteOrderMark.length = byteOrderMark.toByteArray := by
      ext1
      rw [← Array.toList_inj, hmark, List.toList_data_toByteArray]
    have hlength : byteOrderMark.length ≤ bytes.size := by
      have hsize := congrArg ByteArray.size hfront
      rw [size_byteOrderMark, ByteArray.size_extract] at hsize
      omega
    left
    rw [withoutByteOrderMark, if_pos hmark, ← hfront,
      ← ByteArray.extract_eq_extract_append_extract _ (Nat.zero_le _) hlength,
      ByteArray.extract_zero_size]
  · refine Or.inr ⟨by rw [withoutByteOrderMark, if_neg hmark], fun rest hrest => hmark ?_⟩
    rw [hrest, ByteArray.extract_append_eq_left size_byteOrderMark.symm,
      List.toList_data_toByteArray]

/-- Nothing is taken off the bytes of a text that does not begin with the character of the mark. -/
theorem withoutByteOrderMark_toUTF8 {text : String} (h : text.toList.head? ≠ some markCharacter) :
    withoutByteOrderMark text.toUTF8 = text.toUTF8 := by
  rcases withoutByteOrderMark_cases text.toUTF8 with hmark | ⟨hplain, -⟩
  · have hsplit : [markCharacter].utf8Encode ++ withoutByteOrderMark text.toUTF8 =
        text.toList.utf8Encode := by
      rw [utf8Encode_markCharacter, ← hmark, String.utf8Encode_toList, String.toUTF8_eq_toByteArray]
    obtain ⟨rest, hrest⟩ := List.isPrefix_of_utf8Encode_append_eq_utf8Encode _ hsplit
    rw [← hrest] at h
    exact absurd rfl h
  · exact hplain.symm

theorem fromUTF8?_toUTF8 (text : String) : String.fromUTF8? text.toUTF8 = some text := by
  rw [String.toUTF8_eq_toByteArray, String.fromUTF8?, dif_pos text.isValidUTF8]
  rfl

theorem fromUTF8?_eq_some_iff {bytes : ByteArray} {text : String} :
    String.fromUTF8? bytes = some text ↔ bytes = text.toUTF8 := by
  refine ⟨fun h => ?_, fun h => h ▸ fromUTF8?_toUTF8 text⟩
  rw [String.fromUTF8?] at h
  split at h
  · rw [← Option.some.inj h]
    rfl
  · exact absurd h (Option.some_ne_none text).symm

/-- The file holds the text, or a byte order mark and the text. A mark in front of a text is none of
its characters. -/
def FileHolds (files : String → ReadOutcome) (path text : String) : Prop :=
  files path = .contents (byteOrderMark.toByteArray ++ text.toUTF8) ∨
    files path = .contents text.toUTF8 ∧ text.toList.head? ≠ some markCharacter

theorem fileHolds_iff {files : String → ReadOutcome} {path text : String} :
    FileHolds files path text ↔
      ∃ bytes, files path = .contents bytes ∧
        String.fromUTF8? (withoutByteOrderMark bytes) = some text := by
  simp only [fromUTF8?_eq_some_iff]
  constructor
  · rintro (h | ⟨h, hbegin⟩)
    · exact ⟨_, h, withoutByteOrderMark_append _⟩
    · exact ⟨_, h, withoutByteOrderMark_toUTF8 hbegin⟩
  · rintro ⟨bytes, h, htext⟩
    rcases withoutByteOrderMark_cases bytes with hmark | ⟨hplain, hnone⟩
    · exact Or.inl (by rw [h, ← htext, ← hmark])
    · rw [htext] at hplain
      refine Or.inr ⟨by rw [h, hplain], fun hbegin => ?_⟩
      -- A text that begins with the character of the mark has the bytes of the mark in front.
      obtain ⟨rest, hrest⟩ := List.head?_eq_some_iff.mp hbegin
      refine hnone rest.utf8Encode ?_
      rw [hplain, String.toUTF8_eq_toByteArray, ← String.utf8Encode_toList, hrest,
        ← utf8Encode_markCharacter, ← List.utf8Encode_append, List.singleton_append]

/-- A program is loaded from a file exactly if the file holds a text of the program. -/
theorem Program.result_load_eq_ok_some_iff {files : String → ReadOutcome} {path : String}
    {p : Program} :
    (Program.load files path).result = .ok (some p) ↔
      ∃ text, FileHolds files path text ∧ Program.parse text = .ok p := by
  simp only [fileHolds_iff]
  rw [load]
  cases files path with
  | missing => simp
  | unreadable => simp
  | contents bytes =>
    cases htext : String.fromUTF8? (withoutByteOrderMark bytes) with
    | none => simp [htext]
    | some text => cases hparse : Program.parse text <;> simp [htext, hparse]

/-- A file with the text of a program, with or without a mark in front, is loaded as the program. -/
theorem Program.result_load {files : String → ReadOutcome} {path text : String} {p : Program}
    (hfile : files path = .contents text.toUTF8 ∨
      files path = .contents (byteOrderMark.toByteArray ++ text.toUTF8))
    (hbegin : text.toList.head? ≠ some markCharacter) (hparse : Program.parse text = .ok p) :
    (Program.load files path).result = .ok (some p) := by
  refine result_load_eq_ok_some_iff.mpr ⟨text, ?_, hparse⟩
  exact hfile.symm.imp_right fun hplain => ⟨hplain, hbegin⟩

end Datalog
