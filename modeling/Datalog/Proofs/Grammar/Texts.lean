import Datalog.Proofs.Grammar.Reading

/-!
# Which texts are read

A text is read as a value exactly if it spells the signs of the value: a term, an atom, a rule, a
query or a program. The readers of phrases look at their parts in turn, so what they accept follows
from what the readers of the parts accept.

## Main results

* `readsUpTo_atom`, `readsUpTo_rule`, `readsUpTo_rules` — the readers of phrases agree with what is
  spelled at the front of a text
* `reads_atom`, `reads_rule`, `reads_rules`, `Reads.parseWhole_eq_ok_iff` — and with what whole texts
  spell
* `parse_eq_ok_iff` — which texts are read as terms, atoms, rules, queries and programs
-/

namespace Datalog

namespace Grammar

variable {s s' rest t : List Char} {more : List Sign}

/-! ### Atoms -/

theorem spaced_readTerm_shorter {t : Term} (h : spaced readTerm s = .ok (t, rest)) :
    rest.length < s.length :=
  spaced_shorter readTerm_shorter h

/-- The terms of an atom, as they are read. -/
abbrev readTerms (s : List Char) : List Term × List Char :=
  readSeparated (spaced readTerm) spaced_readTerm_shorter s

theorem readAtom_eq_ok_iff {a : Atom} :
    readAtom s = .ok (a, rest) ↔
      ∃ afterPredicate afterOpening, spaced readWord s = .ok (a.predicate, afterPredicate) ∧
        expect Mark.opening.chars afterPredicate = .ok afterOpening ∧
        (readTerms afterOpening).1 = a.terms ∧
        expect Mark.closing.chars (readTerms afterOpening).2 = .ok rest := by
  constructor
  · intro h
    unfold readAtom at h
    split at h
    · simp at h
    split at h
    · simp at h
    simp only at h
    split at h
    · simp at h
    · rename_i hpredicate _ _ hopening _ _ hclosing
      simp only [Except.ok.injEq, Prod.mk.injEq] at h
      obtain ⟨rfl, rfl⟩ := h
      exact ⟨_, _, hpredicate, hopening, rfl, hclosing⟩
  · rintro ⟨afterPredicate, afterOpening, hpredicate, hopening, hterms, hclosing⟩
    simp only [Mark.chars] at hopening hclosing
    simp [readAtom, hpredicate, hopening, hclosing, hterms]

theorem readsUpTo_atom : ReadsUpTo readAtom Atom.signs fun _ _ => True where
  sound h hmore := by
    obtain ⟨afterPredicate, afterOpening, hpredicate, hopening, hterms, hclosing⟩ :=
      readAtom_eq_ok_iff.mp h
    have hlist := readsUpTo_term.sound_separated spaced_readTerm_shorter
      (spellsUpTo_of_expect hclosing hmore)
    rw [hterms] at hlist
    have hatom := readsUpTo_word.sound hpredicate (spellsUpTo_of_expect hopening hlist)
    simpa [Atom.signs] using hatom
  complete {s a more t} h _ := by
    simp only [Atom.signs, List.cons_append, List.append_assoc, List.nil_append] at h
    obtain ⟨afterPredicate, hpredicate, h⟩ := readsUpTo_word.complete h (endsBefore_mark _ _ _)
    obtain ⟨afterOpening, hopening, h⟩ := exists_expect h
    obtain ⟨hterms, h⟩ := readsUpTo_term.complete_separated spaced_readTerm_shorter
      endsBefore_mark (by decide) (fun a rest hclosing => readTerm_ne_ok hclosing) h
    obtain ⟨rest, hclosing, h⟩ := exists_expect h
    exact ⟨rest, readAtom_eq_ok_iff.mpr
      ⟨afterPredicate, afterOpening, hpredicate, hopening, hterms, hclosing⟩, h⟩
  skips h := by
    obtain ⟨_, _, _, _, _, hclosing⟩ := readAtom_eq_ok_iff.mp h
    exact skipBlanks_of_expect hclosing

theorem reads_atom : Reads readAtom Atom.signs fun _ => True :=
  readsUpTo_atom.reads id

/-! ### Rules -/

/-- The atoms of a body after the first, as they are read. -/
abbrev readMoreAtoms (s : List Char) : List Atom × List Char := readMore readAtom readAtom_shorter s

theorem readBody_of_ne_ok
    (h : ∀ afterMark a rest, expect Mark.implies.chars s = .ok afterMark →
      readAtom afterMark ≠ .ok (a, rest)) :
    readBody s = ([], s) := by
  rw [readBody]
  split
  · rfl
  · rename_i afterMark hmark
    split
    · rfl
    · rename_i hatom
      exact absurd hatom (h _ _ _ hmark)

theorem readBody_of_eq_ok {a : Atom} (hmark : expect Mark.implies.chars s = .ok s')
    (hatom : readAtom s' = .ok (a, rest)) :
    readBody s = (a :: (readMoreAtoms rest).1, (readMoreAtoms rest).2) := by
  simp only [Mark.chars] at hmark
  simp [readBody, hmark, hatom]

theorem sound_body (hmore : SpellsUpTo more (readBody s).2 t) :
    SpellsUpTo (Rule.bodySigns (readBody s).1 ++ more) s t := by
  by_cases hok : ∃ afterMark a rest, expect Mark.implies.chars s = .ok afterMark ∧
      readAtom afterMark = .ok (a, rest)
  · obtain ⟨afterMark, a, rest, hmark, hatom⟩ := hok
    rw [readBody_of_eq_ok hmark hatom] at hmore ⊢
    have hbody := readsUpTo_atom.sound hatom (readsUpTo_atom.sound_more readAtom_shorter hmore)
    rw [← separated_cons_append] at hbody
    exact spellsUpTo_of_expect hmark hbody
  -- Whatever was tried for a body in vain is given back.
  · have hnone := readBody_of_ne_ok fun afterMark a rest hmark hatom =>
      hok ⟨afterMark, a, rest, hmark, hatom⟩
    rw [hnone] at hmore ⊢
    exact hmore

theorem complete_body {body : List Atom}
    (h : SpellsUpTo (Rule.bodySigns body ++ .mark .point :: more) s t) :
    (readBody s).1 = body ∧ SpellsUpTo (.mark .point :: more) (readBody s).2 t := by
  cases body with
  -- The point is not taken for the mark of a body.
  | nil =>
    rw [readBody_of_ne_ok fun afterMark a rest hmark => absurd hmark (expect_ne_ok h (by decide))]
    exact ⟨rfl, h⟩
  | cons a body =>
    rw [Rule.bodySigns, List.cons_append, separated_cons_append] at h
    obtain ⟨afterMark, hmark, h⟩ := exists_expect h
    obtain ⟨rest, hatom, h⟩ := readsUpTo_atom.complete h trivial
    rw [readBody_of_eq_ok hmark hatom]
    obtain ⟨hbody, h⟩ := readsUpTo_atom.complete_more readAtom_shorter
      (fun _ _ _ => trivial) (by decide) h
    exact ⟨congrArg (a :: ·) hbody, h⟩

theorem readRule_eq_ok_iff {r : Rule} :
    readRule s = .ok (r, rest) ↔
      ∃ afterHead, readAtom s = .ok (r.head, afterHead) ∧ (readBody afterHead).1 = r.body ∧
        expect Mark.point.chars (readBody afterHead).2 = .ok rest := by
  constructor
  · intro h
    unfold readRule at h
    split at h
    · simp at h
    simp only at h
    split at h
    · simp at h
    · rename_i hhead _ _ hpoint
      simp only [Except.ok.injEq, Prod.mk.injEq] at h
      obtain ⟨rfl, rfl⟩ := h
      exact ⟨_, hhead, rfl, hpoint⟩
  · rintro ⟨afterHead, hhead, hbody, hpoint⟩
    simp only [Mark.chars] at hpoint
    simp [readRule, hhead, hpoint, hbody]

theorem readsUpTo_rule : ReadsUpTo readRule Rule.signs fun _ _ => True where
  sound h hmore := by
    obtain ⟨afterHead, hhead, hbody, hpoint⟩ := readRule_eq_ok_iff.mp h
    have hrest := sound_body (spellsUpTo_of_expect hpoint hmore)
    rw [hbody] at hrest
    have hrule := readsUpTo_atom.sound hhead hrest
    simpa [Rule.signs] using hrule
  complete {s r more t} h _ := by
    simp only [Rule.signs, List.append_assoc, List.cons_append, List.nil_append] at h
    obtain ⟨afterHead, hhead, h⟩ := readsUpTo_atom.complete h trivial
    obtain ⟨hbody, h⟩ := complete_body h
    obtain ⟨rest, hpoint, h⟩ := exists_expect h
    exact ⟨rest, readRule_eq_ok_iff.mpr ⟨afterHead, hhead, hbody, hpoint⟩, h⟩
  skips h := by
    obtain ⟨_, _, _, hpoint⟩ := readRule_eq_ok_iff.mp h
    exact skipBlanks_of_expect hpoint

theorem reads_rule : Reads readRule Rule.signs fun _ => True :=
  readsUpTo_rule.reads id

/-! ### Programs and queries -/

theorem readRules_of_ne_ok (h : ∀ r rest, readRule s ≠ .ok (r, rest)) : readRules s = ([], s) := by
  rw [readRules]
  split
  · rfl
  · rename_i hrule
    exact absurd hrule (h _ _)

theorem readRules_of_eq_ok {r : Rule} (h : readRule s = .ok (r, rest)) :
    readRules s = (r :: (readRules rest).1, (readRules rest).2) := by
  rw [readRules]
  split
  · rename_i hstop
    exact absurd (hstop.symm.trans h) (by simp)
  · rename_i hrule
    obtain ⟨rfl, rfl⟩ := Prod.mk.inj (Except.ok.inj (hrule.symm.trans h))
    rfl

theorem sound_rules (hmore : SpellsUpTo more (readRules s).2 t) :
    SpellsUpTo ((readRules s).1.flatMap Rule.signs ++ more) s t := by
  fun_induction readRules s with
  | case1 s => exact hmore
  | case2 s r rest hrule _ tail ih =>
    rw [List.flatMap_cons, List.append_assoc]
    exact readsUpTo_rule.sound hrule (ih hmore)

/-- Rules are read up to where no rule can be read. -/
theorem complete_rules {rules : List Rule} (hnone : ∀ r rest, readRule t ≠ .ok (r, rest))
    (hskip : skipBlanks s = s) (h : SpellsUpTo (rules.flatMap Rule.signs) s t) :
    readRules s = (rules, t) := by
  induction rules generalizing s with
  | nil =>
    obtain rfl : s = t := hskip.symm.trans (spellsUpTo_nil_iff.mp h)
    exact readRules_of_ne_ok hnone
  | cons r rules ih =>
    rw [List.flatMap_cons] at h
    obtain ⟨rest, hrule, h⟩ := readsUpTo_rule.complete h trivial
    rw [readRules_of_eq_ok hrule, ih (readsUpTo_rule.skips hrule) h]

theorem skipBlanks_readRules (hskip : skipBlanks s = s) :
    skipBlanks (readRules s).2 = (readRules s).2 := by
  fun_induction readRules s with
  | case1 s => exact hskip
  | case2 s r rest hrule _ tail ih => exact ih (readsUpTo_rule.skips hrule)

/-- No rule can be read where reading rules stops. -/
theorem readRule_readRules_ne_ok (s : List Char) (r : Rule) (rest : List Char) :
    readRule (readRules s).2 ≠ .ok (r, rest) := by
  fun_induction readRules s with
  | case1 s found hstop => simp [hstop]
  | case2 s r' rest' hrule _ tail ih => exact ih

/-- A rule takes something, so there is none at the end of a text. -/
theorem readRule_nil_ne_ok (r : Rule) (rest : List Char) : readRule [] ≠ .ok (r, rest) :=
  fun hrule => Nat.not_lt_zero _ (readRule_shorter hrule)

/-- Blanks before the first rule and after the last are passed over. -/
theorem readsUpTo_rules :
    ReadsUpTo (fun s => .ok (readRules (skipBlanks s))) (fun rules => rules.flatMap Rule.signs)
      (fun more t => more = [] ∧ ∀ r rest, readRule t ≠ .ok (r, rest)) where
  sound {s rest rules more t} h hmore := by
    have heq : readRules (skipBlanks s) = (rules, rest) := Except.ok.inj h
    have hrest : SpellsUpTo more (readRules (skipBlanks s)).2 t := by
      rw [heq]
      exact hmore
    have hrules := sound_rules hrest
    rw [heq] at hrules
    exact spellsUpTo_skipBlanks.mp hrules
  complete {s rules more t} h hmore := by
    obtain ⟨rfl, hnone⟩ := hmore
    rw [List.append_nil] at h
    refine ⟨t, ?_, spellsUpTo_nil_iff.mpr h.skips⟩
    rw [complete_rules hnone (skipBlanks_skipBlanks s) (spellsUpTo_skipBlanks.mpr h)]
  skips {s rest rules} h := by
    have heq : readRules (skipBlanks s) = (rules, rest) := Except.ok.inj h
    simpa [heq] using skipBlanks_readRules (skipBlanks_skipBlanks s)

theorem reads_rules :
    Reads (fun s => .ok (readRules (skipBlanks s))) (fun rules => rules.flatMap Rule.signs)
      (fun more => more = []) :=
  readsUpTo_rules.reads fun hmore => ⟨hmore, readRule_nil_ne_ok⟩

theorem readQuery_eq_ok_iff {q : Atom} :
    readQuery s = .ok (q, rest) ↔
      ∃ afterAtom, readAtom s = .ok (q, afterAtom) ∧
        (expect Mark.point.chars afterAtom = .ok rest ∨
          (∀ rest', expect Mark.point.chars afterAtom ≠ .ok rest') ∧ rest = afterAtom) := by
  rw [readQuery]
  split
  · rename_i hatom
    simp [hatom]
  · rename_i a afterAtom hatom
    simp only [hatom, Mark.chars]
    split
    · rename_i hpoint
      simp [hpoint, and_assoc, eq_comm]
    · rename_i rest' hpoint
      simp [hpoint, and_assoc, eq_comm]

/-- A query is an atom at the front of the text, or an atom with a point. -/
theorem spellsUpTo_of_readQuery {q : Atom} (h : readQuery s = .ok (q, rest)) :
    SpellsUpTo q.signs s rest ∨ SpellsUpTo (q.signs ++ [.mark .point]) s rest := by
  obtain ⟨afterAtom, hatom, hpoint | ⟨-, rfl⟩⟩ := readQuery_eq_ok_iff.mp h
  · have hend := spellsUpTo_nil_iff.mpr (skipBlanks_of_expect hpoint)
    exact Or.inr (readsUpTo_atom.sound hatom (spellsUpTo_of_expect hpoint hend))
  · exact Or.inl ((readsUpTo_atom.eq_ok_iff trivial).mp hatom)

/-! ### Whole texts -/

theorem parseWhole_eq_ok_iff_read {α : Type} {read : List Char → Reading α} {text : String}
    {a : α} :
    parseWhole read text = .ok a ↔ read text.toList = .ok (a, []) := by
  rw [parseWhole]
  split <;> simp_all

/-- A reader that agrees with the spelling of its values accepts exactly the texts that spell one.
-/
theorem Reads.parseWhole_eq_ok_iff {α : Type} {read : List Char → Reading α}
    {signs : α → List Sign} {before : List Sign → Prop} (hread : Reads read signs before)
    (hbefore : before []) {text : String} {a : α} :
    parseWhole read text = .ok a ↔ Spells (signs a) text.toList := by
  rw [parseWhole_eq_ok_iff_read]
  constructor
  · intro h
    simpa using hread.sound h (spells_nil_iff.mpr rfl)
  · intro h
    rw [← List.append_nil (signs a)] at h
    obtain ⟨rest, hrest, hnil⟩ := hread.complete h hbefore
    obtain rfl : rest = [] := hnil.eq_nil (hread.skips hrest)
    exact hrest

/-- A query may end in a point. -/
theorem parseWhole_readQuery_eq_ok_iff {text : String} {q : Atom} :
    parseWhole readQuery text = .ok q ↔
      Spells q.signs text.toList ∨ Spells (q.signs ++ [.mark .point]) text.toList := by
  simp only [← spellsUpTo_nil_right]
  rw [parseWhole_eq_ok_iff_read]
  constructor
  · exact spellsUpTo_of_readQuery
  · rw [readQuery_eq_ok_iff]
    rintro (h | h)
    -- Without a point the atom is followed by the end of the text, where no point can be.
    · have hend : Spells [] [] := spells_nil_iff.mpr rfl
      exact ⟨[], (readsUpTo_atom.eq_ok_iff trivial).mpr h,
        Or.inr ⟨fun rest' => expect_ne_ok_of_spells_nil hend, rfl⟩⟩
    · obtain ⟨afterAtom, hatom, h⟩ := readsUpTo_atom.complete h trivial
      obtain ⟨rest, hpoint, hnil⟩ := exists_expect h
      obtain rfl : rest = [] := (skipBlanks_of_expect hpoint).symm.trans (spellsUpTo_nil_iff.mp hnil)
      exact ⟨afterAtom, hatom, Or.inl hpoint⟩

end Grammar

theorem Program.eq_ofRules_iff {p : Program} {rules : List Rule} :
    p = ofRules rules ↔
      p.rules = rules.filter (fun r => r.body ≠ []) ∧
        p.facts = (rules.filter fun r => r.body = []).map Rule.head := by
  have hfact : ∀ r : Rule, decide (r.body = []) = r.isFact := by
    intro r
    rw [Bool.eq_iff_iff, decide_eq_true_eq, Rule.isFact_iff]
  cases p
  simp [ofRules, hfact]

namespace Grammar

theorem parse_program_eq_ok_iff {text : String} {p : Program} :
    Program.parse text = .ok p ↔
      ∃ rules : List Rule, Spells (rules.flatMap Rule.signs) text.toList ∧
        p = Program.ofRules rules := by
  have hrules : ∀ rules : List Rule,
      parseWhole (fun s => .ok (readRules (skipBlanks s))) text = .ok rules ↔
        Spells (rules.flatMap Rule.signs) text.toList := fun rules =>
    reads_rules.parseWhole_eq_ok_iff rfl
  -- The rules are read first and told apart afterwards.
  simp only [← hrules, Program.parse]
  cases parseWhole (fun s => .ok (readRules (skipBlanks s))) text with
  | error e => simp [Except.map]
  | ok rules => simp [Except.map, eq_comm]

/-- A text is read as a term, atom, rule, query or program exactly if it spells the signs of the
value, with any blanks around them. A query may end in a point. A program is any number of rules;
those without a body are its facts. -/
theorem parse_eq_ok_iff (text : String) :
    (∀ t, Term.parse text = .ok t ↔ Spells [t.sign] text.toList) ∧
    (∀ a, Atom.parse text = .ok a ↔ Spells a.signs text.toList) ∧
    (∀ r, Rule.parse text = .ok r ↔ Spells r.signs text.toList) ∧
    (∀ q, Query.parse text = .ok q ↔
      Spells q.signs text.toList ∨ Spells (q.signs ++ [.mark .point]) text.toList) ∧
    (∀ p, Program.parse text = .ok p ↔
      ∃ rules : List Rule, Spells (rules.flatMap Rule.signs) text.toList ∧
        p.rules = rules.filter (fun r => r.body ≠ []) ∧
        p.facts = (rules.filter fun r => r.body = []).map Rule.head) := by
  refine ⟨fun t => ?_, fun a => ?_, fun r => ?_, fun q => ?_, fun p => ?_⟩
  · exact reads_term.parseWhole_eq_ok_iff beginsNoWord_nil
  · exact reads_atom.parseWhole_eq_ok_iff trivial
  · exact reads_rule.parseWhole_eq_ok_iff trivial
  · exact parseWhole_readQuery_eq_ok_iff
  · simp only [← Program.eq_ofRules_iff]
    exact parse_program_eq_ok_iff

end Grammar

end Datalog
