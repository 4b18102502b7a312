import Datalog.Proofs.Grammar.Position
import Datalog.Proofs.Grammar.Texts

/-!
# Where texts are refused

A reader that stops gives back what it could not use: the blanks and the whole of an element or a body
that it tried in vain. What it has kept is the first signs of a value, so the text up to the place of
the report can always be completed. What it gives back begins with no blank, so the report shows what
stands at the place, unless the text ends there.

A program is read rule by rule, and a rule that cannot be read is given back from its beginning. So the
text up to the place of the report is a program by itself, and no rule begins at the place.

## Main definitions

* `Begins`, `StopsInside` — a reader that stops has kept the first signs of a value
* `SyntaxError.Shows` — what a report shows of the text behind its place
* `LocatesFaults` — the reports of a parser point to one place each, up to which the text is right

## Main results

* `stopsInside_term`, `stopsInside_atom`, `stopsInside_rule` — how readers stop
* `ReadsUpTo.locatesFaults` — from a reader to the reports about whole texts
* `parsers_locate_faults` — all five parsers locate the faults that they report
* `program_fault_at_first_bad_rule` — a program is reported at its first bad rule
-/

namespace Datalog

namespace Grammar

variable {α : Type} {s rest : List Char} {text : String} {e : SyntaxError}

/-! ### Readers that stop -/

/-- The signs are the first of those of a value, and the others can be written. -/
def Begins (signs : α → List Sign) (front : List Sign) : Prop :=
  ∃ a more, signs a = front ++ more ∧ ∀ sign ∈ more, sign.WellFormed

/-- Where the reader stops, the text before spells the first signs of a value. -/
def StopsInside (read : List Char → Reading α) (signs : α → List Sign) : Prop :=
  ∀ {s rest}, read s = .error rest → ∃ front, SpellsUpTo front s rest ∧ Begins signs front

theorem begins_signs (signs : α → List Sign) (a : α) : Begins signs (signs a) :=
  ⟨a, [], (List.append_nil _).symm, by simp⟩

/-- A mark that is missing is missed behind the blanks. -/
theorem spellsUpTo_nil_of_expect {mark : List Char} (h : expect mark s = .error rest) :
    SpellsUpTo [] s rest := by
  rw [expect] at h
  split at h
  · simp at h
  · exact spellsUpTo_nil_iff.mpr (Except.error.inj h)

/-- A sign that is missing is missed behind the blanks. -/
theorem spellsUpTo_nil_of_spaced {read : List Char → Reading α}
    (hread : ∀ {s rest}, read s = .error rest → rest = s) (h : spaced read s = .error rest) :
    SpellsUpTo [] s rest := by
  rw [spaced] at h
  split at h
  · simp at h
  · rename_i hstop
    obtain rfl := Except.error.inj h
    exact spellsUpTo_nil_iff.mpr (hread hstop).symm

theorem eq_of_readWord (h : readWord s = .error rest) : rest = s := by
  rw [readWord] at h
  split at h
  · exact (Except.error.inj h).symm
  · simp at h

/-- A question mark without a word is given back. -/
theorem eq_of_readTerm (h : readTerm s = .error rest) : rest = s := by
  unfold readTerm at h
  split at h
  · split at h
    · simp at h
    · exact (Except.error.inj h).symm
  · split at h
    · simp at h
    · rename_i hword
      obtain rfl := Except.error.inj h
      exact eq_of_readWord hword

theorem stopsInside_term : StopsInside (spaced readTerm) fun t => [t.sign] := by
  intro s rest h
  refine ⟨[], spellsUpTo_nil_of_spaced eq_of_readTerm h, .const "a", [.word "a"], rfl, ?_⟩
  simp [Sign.WellFormed, IsWord, isWordChar]

/-- An atom is refused for its predicate or for one of its parentheses. -/
theorem readAtom_eq_error (h : readAtom s = .error rest) :
    spaced readWord s = .error rest ∨
      ∃ predicate afterPredicate, spaced readWord s = .ok (predicate, afterPredicate) ∧
        (expect Mark.opening.chars afterPredicate = .error rest ∨
          ∃ afterOpening, expect Mark.opening.chars afterPredicate = .ok afterOpening ∧
            expect Mark.closing.chars (readTerms afterOpening).2 = .error rest) := by
  unfold readAtom at h
  split at h
  · rename_i hpredicate
    exact Or.inl (Except.error.inj h ▸ hpredicate)
  · rename_i predicate afterPredicate hpredicate
    refine Or.inr ⟨predicate, afterPredicate, hpredicate, ?_⟩
    split at h
    · rename_i hopening
      exact Or.inl (Except.error.inj h ▸ hopening)
    · rename_i afterOpening hopening
      refine Or.inr ⟨afterOpening, hopening, ?_⟩
      simp only at h
      split at h
      · rename_i hclosing
        exact Except.error.inj h ▸ hclosing
      · simp at h

theorem stopsInside_atom : StopsInside readAtom Atom.signs := by
  intro s rest h
  rcases readAtom_eq_error h with hpredicate | ⟨predicate, afterPredicate, hpredicate, hparenthesis⟩
  -- Without a predicate there is nothing yet.
  · refine ⟨[], spellsUpTo_nil_of_spaced eq_of_readWord hpredicate, { predicate := "a", terms := [] },
      _, rfl, ?_⟩
    simp [separated, Sign.WellFormed, IsWord, isWordChar]
  rcases hparenthesis with hopening | ⟨afterOpening, hopening, hclosing⟩
  -- After the predicate, the parentheses of an atom without terms could follow.
  · refine ⟨[.word predicate], ?_, { predicate, terms := [] }, [.mark .opening, .mark .closing],
      rfl, ?_⟩
    · exact readsUpTo_word.sound hpredicate (spellsUpTo_nil_of_expect hopening)
    · simp [Sign.WellFormed]
  -- After the terms, only the parenthesis is left.
  · refine ⟨[.word predicate] ++ .mark .opening ::
        (separated (fun t => [Term.sign t]) (readTerms afterOpening).1 ++ []), ?_,
      { predicate, terms := (readTerms afterOpening).1 }, [.mark .closing], ?_, ?_⟩
    · exact readsUpTo_word.sound hpredicate (spellsUpTo_of_expect hopening
        (readsUpTo_term.sound_separated spaced_readTerm_shorter (spellsUpTo_nil_of_expect hclosing)))
    · simp [Atom.signs]
    · simp [Sign.WellFormed]

/-- A rule is refused for its head or for its point. What is wrong in its body is given back with the
body. -/
theorem readRule_eq_error (h : readRule s = .error rest) :
    readAtom s = .error rest ∨
      ∃ head afterHead, readAtom s = .ok (head, afterHead) ∧
        expect Mark.point.chars (readBody afterHead).2 = .error rest := by
  unfold readRule at h
  split at h
  · rename_i hhead
    exact Or.inl (Except.error.inj h ▸ hhead)
  · rename_i head afterHead hhead
    refine Or.inr ⟨head, afterHead, hhead, ?_⟩
    simp only at h
    split at h
    · rename_i hpoint
      exact Except.error.inj h ▸ hpoint
    · simp at h

theorem stopsInside_rule : StopsInside readRule Rule.signs := by
  intro s rest h
  rcases readRule_eq_error h with hhead | ⟨head, afterHead, hhead, hpoint⟩
  -- What begins an atom begins a fact.
  · obtain ⟨front, hfront, a, more, ha, hmore⟩ := stopsInside_atom hhead
    refine ⟨front, hfront, { head := a, body := [] }, more ++ [.mark .point], ?_, ?_⟩
    · simp [Rule.signs, Rule.bodySigns, ha]
    · simpa [or_imp, forall_and, Sign.WellFormed] using hmore
  · refine ⟨head.signs ++ (Rule.bodySigns (readBody afterHead).1 ++ []), ?_,
      { head, body := (readBody afterHead).1 }, [.mark .point], ?_, ?_⟩
    · exact readsUpTo_atom.sound hhead (sound_body (spellsUpTo_nil_of_expect hpoint))
    · simp [Rule.signs]
    · simp [Sign.WellFormed]

/-- A query is refused for its atom only. -/
theorem readQuery_eq_error (h : readQuery s = .error rest) : readAtom s = .error rest := by
  rw [readQuery] at h
  split at h
  · rename_i hatom
    exact Except.error.inj h ▸ hatom
  · split at h <;> simp at h

/-! ### Whole texts -/

/-- A text is refused where the reader stops, or where it leaves something. -/
theorem parseWhole_eq_error {read : List Char → Reading α} (h : parseWhole read text = .error e) :
    ∃ rest, e = .ofRest text.toList rest ∧
      (read text.toList = .error rest ∨ rest ≠ [] ∧ ∃ a, read text.toList = .ok (a, rest)) := by
  rw [parseWhole] at h
  split at h
  · simp at h
  · rename_i a rest hne hread
    exact ⟨rest, (Except.error.inj h).symm, Or.inr ⟨hne, a, hread⟩⟩
  · rename_i rest hread
    exact ⟨rest, (Except.error.inj h).symm, Or.inl hread⟩

/-- The parser accepts all texts that spell the signs. -/
def Accepts (parse : String → Except SyntaxError α) (signs : List Sign) : Prop :=
  ∀ text : String, Spells signs text.toList → ∃ a, parse text = .ok a

end Grammar

open Grammar

/-- What a report shows of the text behind its place: the beginning of its first line, which is no
blank, or that there is nothing. -/
def SyntaxError.Shows (e : SyntaxError) (rest : String) : Prop :=
  rest = "" ∧ e.snippet = "end of input" ∨
    (∃ c, rest.toList.head? = some c ∧ isBlank c = false) ∧ e.snippet ≠ "" ∧
      e.snippet.toList <+: rest.toList ∧ e.snippet.length ≤ 24 ∧ '\n' ∉ e.snippet.toList

namespace Grammar

/-- Every report of the parser points to one place of the text. Up to there the text can be completed
to one that the parser accepts, and what stands there is shown. -/
structure LocatesFaults {α : Type} (parse : String → Except SyntaxError α) : Prop where
  /-- There is one place where the line and the column of the report are right. -/
  existsUnique_place : ∀ {text e}, parse text = .error e → ∃! place : text.Pos, e.PointsTo place
  /-- The text before the place can be continued. -/
  viable : ∀ {text e} {place : text.Pos} {before rest : String}, parse text = .error e →
    e.PointsTo place → place.Splits before rest → ∃ t a, parse (before ++ t) = .ok a
  /-- The report shows what follows the place. -/
  shows : ∀ {text e} {place : text.Pos} {before rest : String}, parse text = .error e →
    e.PointsTo place → place.Splits before rest → e.Shows rest

variable {α : Type} {s rest : List Char} {text : String} {e : SyntaxError}

/-- Behind all blanks the text ends, or something stands that is no blank. -/
theorem eq_nil_or_eq_cons_of_skipBlanks (h : skipBlanks s = s) :
    s = [] ∨ ∃ c t, s = c :: t ∧ isBlank c = false := by
  cases s with
  | nil => exact Or.inl rfl
  | cons c t =>
    have hhead := List.head?_dropWhile_not isBlank (c :: t)
    rw [show List.dropWhile isBlank (c :: t) = c :: t from h] at hhead
    exact Or.inr ⟨c, t, rfl, hhead⟩

/-- The first line of what follows a place behind all blanks is not empty. -/
theorem firstLine_ne_nil (h : skipBlanks rest = rest) (hne : rest ≠ []) :
    Text.firstLine rest ≠ [] := by
  obtain rfl | ⟨c, t, rfl, hc⟩ := eq_nil_or_eq_cons_of_skipBlanks h
  · exact absurd rfl hne
  · refine (Text.isFirstLine_firstLine (c :: t)).ne_nil ?_ ?_
    · rintro rfl
      simp [isBlank] at hc
    · rintro rfl
      simp [isBlank] at hc

theorem shows_ofRest (consumed : List Char) (h : skipBlanks rest = rest) :
    (SyntaxError.ofRest consumed rest).Shows (String.ofList rest) := by
  obtain rfl | ⟨c, t, hrest, hc⟩ := eq_nil_or_eq_cons_of_skipBlanks h
  · exact Or.inl ⟨rfl, rfl⟩
  · have hline := Text.isFirstLine_firstLine rest
    have hne := firstLine_ne_nil h (by simp [hrest])
    have hsnippet := SyntaxError.snippet_ofRest consumed hne
    have hbegins := List.take_prefix 24 (Text.firstLine rest)
    refine Or.inr ⟨⟨c, ?_, hc⟩, ?_⟩
    · rw [String.toList_ofList, hrest, List.head?_cons]
    · rw [hsnippet, String.toList_ofList, String.toList_ofList, String.length_ofList]
      refine ⟨?_, hbegins.trans hline.isPrefix, List.length_take_le _ _, ?_⟩
      · simpa using hne
      · exact fun hmem => hline.not_mem (hbegins.mem hmem)

/-- A parser that refuses texts at places behind the first signs of something that it accepts locates
the faults. -/
theorem locatesFaults_of_accepts {parse : String → Except SyntaxError α}
    (h : ∀ {text e}, parse text = .error e → ∃ front more rest, SpellsUpTo front text.toList rest ∧
      e = .ofRest text.toList rest ∧ (∀ sign ∈ more, sign.WellFormed) ∧
      Accepts parse (front ++ more)) :
    LocatesFaults parse where
  existsUnique_place herror := by
    obtain ⟨front, more, rest, ⟨⟨consumed, htext, -⟩, -⟩, rfl, -⟩ := h herror
    exact SyntaxError.existsUnique_pointsTo_ofRest htext
  viable herror hplace hsplits := by
    obtain ⟨front, more, rest, ⟨⟨consumed, htext, hfront⟩, -⟩, rfl, hmore, haccepts⟩ := h herror
    rw [SyntaxError.pointsTo_ofRest_iff htext] at hplace
    rw [hsplits.eq_left hplace]
    refine ⟨String.ofList (more.flatMap Sign.chars), haccepts _ ?_⟩
    rw [String.toList_append, String.toList_ofList, String.toList_ofList]
    exact hfront.append (spells_flatMap_chars hmore)
  shows herror hplace hsplits := by
    obtain ⟨front, more, rest, ⟨⟨consumed, htext, -⟩, hskips⟩, rfl, -⟩ := h herror
    rw [SyntaxError.pointsTo_ofRest_iff htext] at hplace
    rw [hsplits.eq_right hplace]
    exact shows_ofRest _ hskips

/-- A reader that agrees with the spelling of its values, also where it stops, gives a parser that
locates faults. -/
theorem ReadsUpTo.locatesFaults {read : List Char → Reading α} {signs : α → List Sign}
    {before : List Sign → List Char → Prop} {before' : List Sign → Prop}
    (hread : ReadsUpTo read signs before)
    (hbefore : ∀ {more}, before' more → before more []) (hnil : before' [])
    (hstops : StopsInside read signs) : LocatesFaults (parseWhole read) := by
  refine locatesFaults_of_accepts fun {text e} h => ?_
  obtain ⟨rest, rfl, hrefused⟩ := parseWhole_eq_error h
  have hfront : ∃ front, SpellsUpTo front text.toList rest ∧ Begins signs front := by
    rcases hrefused with hstop | ⟨-, a, hok⟩
    · exact hstops hstop
    · exact ⟨signs a, hread.spellsUpTo hok, begins_signs signs a⟩
  obtain ⟨front, hfront, a, more, ha, hmore⟩ := hfront
  refine ⟨front, more, rest, hfront, rfl, hmore, fun text' hspells => ⟨a, ?_⟩⟩
  exact ((hread.reads hbefore).parseWhole_eq_ok_iff hnil).mpr (ha ▸ hspells)

theorem locatesFaults_query : LocatesFaults Query.parse := by
  refine locatesFaults_of_accepts fun {text e} h => ?_
  have hquery : ∀ q : Atom, Accepts Query.parse q.signs := fun q text' hspells =>
    ⟨q, parseWhole_readQuery_eq_ok_iff.mpr (Or.inl hspells)⟩
  have hpoint : ∀ q : Atom, Accepts Query.parse (q.signs ++ [.mark .point]) := fun q text' hspells =>
    ⟨q, parseWhole_readQuery_eq_ok_iff.mpr (Or.inr hspells)⟩
  obtain ⟨rest, rfl, hstop | ⟨-, q, hok⟩⟩ := parseWhole_eq_error h
  · obtain ⟨front, hfront, q, more, hq, hmore⟩ := stopsInside_atom (readQuery_eq_error hstop)
    exact ⟨front, more, rest, hfront, rfl, hmore, hq ▸ hquery q⟩
  -- Whatever follows a whole query is too much.
  · rcases spellsUpTo_of_readQuery hok with hfront | hfront
    · exact ⟨_, [], rest, hfront, rfl, by simp, (List.append_nil _).symm ▸ hquery q⟩
    · exact ⟨_, [], rest, hfront, rfl, by simp, (List.append_nil _).symm ▸ hpoint q⟩

/-- Reading rules never fails, so a program is refused for what is left behind its rules. -/
theorem parse_program_eq_error (h : Program.parse text = .error e) :
    ∃ rules rest, readRules (skipBlanks text.toList) = (rules, rest) ∧ rest ≠ [] ∧
      e = .ofRest text.toList rest := by
  rw [Program.parse] at h
  cases hwhole : parseWhole (fun s => .ok (readRules (skipBlanks s))) text with
  | ok rules => simp [hwhole, Except.map] at h
  | error e' =>
    obtain rfl : e' = e := by simpa [hwhole, Except.map] using h
    obtain ⟨rest, he, hstop | ⟨hne, rules, hok⟩⟩ := parseWhole_eq_error hwhole
    · simp at hstop
    · exact ⟨rules, rest, Except.ok.inj hok, hne, he⟩

/-- The rules before the place of a report make up a program. -/
theorem accepts_rules (rules : List Rule) : Accepts Program.parse (rules.flatMap Rule.signs) :=
  fun _ hspells => ⟨_, parse_program_eq_ok_iff.mpr ⟨rules, hspells, rfl⟩⟩

theorem spellsUpTo_of_readRules {rules : List Rule} (h : readRules (skipBlanks s) = (rules, rest)) :
    SpellsUpTo (rules.flatMap Rule.signs) s rest :=
  readsUpTo_rules.spellsUpTo (congrArg Except.ok h)

theorem locatesFaults_program : LocatesFaults Program.parse := by
  refine locatesFaults_of_accepts fun {text e} h => ?_
  obtain ⟨rules, rest, hrules, -, he⟩ := parse_program_eq_error h
  refine ⟨rules.flatMap Rule.signs, [], rest, spellsUpTo_of_readRules hrules, he, by simp, ?_⟩
  rw [List.append_nil]
  exact accepts_rules rules

/-- Every text that a parser refuses is reported at one place of it. The line and the column of the
report are right there and nowhere else, the text before the place can be continued to one that the
same parser accepts, and the report shows what stands behind the place: the end of the text, or the
beginning of a line, which is no blank. -/
theorem parsers_locate_faults :
    LocatesFaults Term.parse ∧ LocatesFaults Atom.parse ∧ LocatesFaults Rule.parse ∧
      LocatesFaults Query.parse ∧ LocatesFaults Program.parse :=
  ⟨readsUpTo_term.locatesFaults BeginsNoWord.endsBefore beginsNoWord_nil stopsInside_term,
    readsUpTo_atom.locatesFaults id trivial stopsInside_atom,
    readsUpTo_rule.locatesFaults id trivial stopsInside_rule,
    locatesFaults_query, locatesFaults_program⟩

/-- A body without a point is given back from its `:-` on. The rule can be completed there. -/
theorem rule_fault_at_body :
    Rule.parse "p(a)\n :- q(ö)" = .error ⟨2, 2, ":- q(ö)"⟩ ∧
      ∃ (place : ("p(a)\n :- q(ö)" : String).Pos) (before rest : String),
        place.Splits before rest ∧ (∃ t r, Rule.parse (before ++ t) = .ok r) ∧
        (⟨2, 2, ":- q(ö)"⟩ : SyntaxError).Shows rest := by
  have herror : Rule.parse "p(a)\n :- q(ö)" = .error ⟨2, 2, ":- q(ö)"⟩ := by decide +kernel
  obtain ⟨-, -, hrule, -⟩ := parsers_locate_faults
  obtain ⟨place, hplace, -⟩ := hrule.existsUnique_place herror
  exact ⟨herror, place, _, _, place.splits, hrule.viable herror hplace place.splits,
    hrule.shows herror hplace place.splits⟩

/-! ### Programs -/

/-- Where no rule can be read, none stands at the front. -/
theorem parse_rule_ne_ok {front : String} {back : List Char} {r : Rule}
    (hnone : ∀ r rest, readRule (front.toList ++ back) ≠ .ok (r, rest)) :
    Rule.parse front ≠ .ok r := by
  intro h
  have hspells := (reads_rule.parseWhole_eq_ok_iff trivial).mp h
  exact hnone r _ ((readsUpTo_rule.eq_ok_iff trivial).mpr (hspells.upTo back))

/-- A program that is refused is reported at its first bad rule. The text before the place of the report
is a program, and at the place stands something that is no blank and does not begin with a rule,
whatever of it is taken. The report shows what stands there up to the next line break, but at most 24
characters of it. -/
theorem program_fault_at_first_bad_rule {text : String} {e : SyntaxError}
    (h : Program.parse text = .error e) :
    (∃! place : text.Pos, e.PointsTo place) ∧
      ∀ (place : text.Pos) (before rest : String), e.PointsTo place → place.Splits before rest →
        (∃ p, Program.parse before = .ok p) ∧
        (∃ c, rest.toList.head? = some c ∧ isBlank c = false) ∧
        (∀ front back r, rest = front ++ back → Rule.parse front ≠ .ok r) ∧
        e.snippet ≠ "" ∧
        ∃ line, Text.IsFirstLine line rest.toList ∧ e.snippet = String.ofList (line.take 24) := by
  refine ⟨locatesFaults_program.existsUnique_place h, ?_⟩
  intro place before rest hplace hsplits
  obtain ⟨rules, left, hrules, hne, rfl⟩ := parse_program_eq_error h
  obtain ⟨⟨consumed, htext, hfront⟩, hskips⟩ := spellsUpTo_of_readRules hrules
  rw [SyntaxError.pointsTo_ofRest_iff htext] at hplace
  obtain ⟨rfl, rfl⟩ := hsplits.eq hplace
  -- Reading rules went on as long as there was one at the front.
  have hnone := readRule_readRules_ne_ok (skipBlanks text.toList)
  rw [hrules] at hnone
  have hline := firstLine_ne_nil hskips hne
  rw [String.toList_ofList, SyntaxError.snippet_ofRest text.toList hline]
  refine ⟨?_, ?_, ?_, ?_, ?_⟩
  · exact accepts_rules rules _ (by rwa [String.toList_ofList])
  · obtain rfl | ⟨c, t, rfl, hc⟩ := eq_nil_or_eq_cons_of_skipBlanks hskips
    · exact absurd rfl hne
    · exact ⟨c, List.head?_cons, hc⟩
  · intro front back r hrest
    have hleft : left = front.toList ++ back.toList := by
      simpa using congrArg String.toList hrest
    exact parse_rule_ne_ok (hleft ▸ hnone)
  · simpa using hline
  · exact ⟨_, Text.isFirstLine_firstLine left, rfl⟩

/-- The second rule of the text lacks a comma. It is reported from its beginning. -/
theorem program_fault_at_missing_comma :
    Program.parse "edge(a, b).\nedge(b c).\n" = .error ⟨2, 1, "edge(b c)."⟩ ∧
      ∃ (place : ("edge(a, b).\nedge(b c).\n" : String).Pos) (before rest : String),
        place.Splits before rest ∧ (∃ p, Program.parse before = .ok p) ∧
        ∀ front back r, rest = front ++ back → Rule.parse front ≠ .ok r := by
  have herror : Program.parse "edge(a, b).\nedge(b c).\n" = .error ⟨2, 1, "edge(b c)."⟩ := by
    decide +kernel
  obtain ⟨⟨place, hplace, -⟩, hfault⟩ := program_fault_at_first_bad_rule herror
  obtain ⟨hprogram, -, hnone, -⟩ := hfault place _ _ hplace place.splits
  exact ⟨herror, place, _, _, place.splits, hprogram, hnone⟩

end Grammar
end Datalog
