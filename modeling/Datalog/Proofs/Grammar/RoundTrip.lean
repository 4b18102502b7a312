import Datalog.Proofs.Grammar.Texts
import Datalog.Proofs.Loading

/-!
# Writing and reading

Writing and reading are inverse to each other. What a reader returns can be written: its predicates
and constants are words, its variables a question mark and a word, and its rules, if it is a
program, have bodies. Conversely the written form of such a value spells exactly its signs, so it is
read as the value.

## Main definitions

* `Term.WellFormed`, `Atom.WellFormed`, `Rule.WellFormed`, `Program.WellFormed` — the values that
  can be written
* `Program.asRules` — the rules that a program is written as

## Main results

* `Term.spells_render`, `Atom.spells_render`, `Rule.spells_render`, `Program.spells_render` —
  written forms spell the signs of their values
* `parse_render` — what is read can be written, and what is written is read
-/

namespace Datalog

open Grammar

/-! ### Values that can be written -/

/-- The term can be written: a constant is a word, a variable a question mark followed by a word. -/
def Term.WellFormed : Term → Prop
  | .var x => ∃ word, IsWord word ∧ x = "?" ++ word
  | .const c => IsWord c

/-- The atom can be written. -/
structure Atom.WellFormed (a : Atom) : Prop where
  /-- The predicate is a word. -/
  predicate : IsWord a.predicate
  /-- The terms can be written. -/
  terms : ∀ t ∈ a.terms, t.WellFormed

/-- The rule can be written. -/
structure Rule.WellFormed (r : Rule) : Prop where
  /-- The head can be written. -/
  head : r.head.WellFormed
  /-- The atoms of the body can be written. -/
  body : ∀ a ∈ r.body, a.WellFormed

/-- The program can be written, and no rule of it would be read as a fact. -/
structure Program.WellFormed (p : Program) : Prop where
  /-- The rules can be written. -/
  rules : ∀ r ∈ p.rules, r.WellFormed
  /-- The rules have bodies. -/
  body_ne_nil : ∀ r ∈ p.rules, r.body ≠ []
  /-- The facts can be written. -/
  facts : ∀ a ∈ p.facts, a.WellFormed

/-! ### What was read can be written -/

namespace Grammar

variable {α : Type} {signs : α → List Sign} {items : List α} {a : α} {sign : Sign}

theorem mem_afterCommas (ha : a ∈ items) (hsign : sign ∈ signs a) :
    sign ∈ afterCommas signs items := by
  induction items with
  | nil => simp at ha
  | cons b items ih =>
    rcases List.mem_cons.mp ha with rfl | ha
    · simp [afterCommas, hsign]
    · simp [afterCommas, ih ha]

theorem mem_separated (ha : a ∈ items) (hsign : sign ∈ signs a) : sign ∈ separated signs items := by
  cases items with
  | nil => simp at ha
  | cons b items =>
    rcases List.mem_cons.mp ha with rfl | ha
    · simp [separated, hsign]
    · simp [separated, mem_afterCommas ha hsign]

end Grammar

theorem Term.wellFormed_of_signs {t : Term} (h : ∀ sign ∈ [t.sign], sign.WellFormed) :
    t.WellFormed := by
  have hsign := h t.sign (List.mem_singleton_self _)
  cases t <;> exact hsign

theorem Atom.wellFormed_of_signs {a : Atom} (h : ∀ sign ∈ a.signs, sign.WellFormed) :
    a.WellFormed where
  predicate := h (.word a.predicate) (by simp [signs])
  terms t ht := by
    refine Term.wellFormed_of_signs fun sign hsign => h sign ?_
    have hterm : sign ∈ separated (fun t => [Term.sign t]) a.terms := mem_separated ht hsign
    simp [signs, hterm]

theorem Rule.wellFormed_of_signs {r : Rule} (h : ∀ sign ∈ r.signs, sign.WellFormed) :
    r.WellFormed where
  head := Atom.wellFormed_of_signs fun sign hsign => h sign (by simp [signs, hsign])
  body a ha := by
    refine Atom.wellFormed_of_signs fun sign hsign => h sign ?_
    have hbody : sign ∈ bodySigns r.body := by
      cases hr : r.body with
      | nil => simp [hr] at ha
      | cons b body =>
        rw [hr] at ha
        exact List.mem_cons_of_mem _ (mem_separated ha hsign)
    simp [signs, hbody]

/-- A program that is made of rules that can be written can be written. -/
theorem Program.wellFormed_ofRules {rules : List Rule} (h : ∀ r ∈ rules, r.WellFormed) :
    (ofRules rules).WellFormed where
  rules r hr := h r (List.mem_filter.mp hr).1
  body_ne_nil r hr := by simpa [Rule.isFact] using (List.mem_filter.mp hr).2
  facts a ha := by
    obtain ⟨r, hr, rfl⟩ := List.mem_map.mp ha
    exact (h r (List.mem_filter.mp hr).1).head

/-! ### What is written can be read -/

namespace Grammar

variable {α : Type} {signs : α → List Sign} {items : List α}

theorem separated_eq_intercalate (signs : α → List Sign) (items : List α) :
    separated signs items = [.mark .comma].intercalate (items.map signs) := by
  induction items with
  | nil => rfl
  | cons a items ih =>
    cases items with
    | nil => simp [separated, afterCommas]
    | cons b items =>
      rw [List.map_cons, List.map_cons, List.intercalate_cons_cons, ← List.map_cons, ← ih]
      simp [separated, afterCommas]

theorem flatMap_eq_intercalate (signs : α → List Sign) (items : List α) :
    items.flatMap signs = ([] : List Sign).intercalate (items.map signs) := by
  induction items with
  | nil => rfl
  | cons a items ih =>
    cases items with
    | nil => simp
    | cons b items =>
      rw [List.map_cons, List.map_cons, List.intercalate_cons_cons, ← List.map_cons, ← ih]
      simp

/-- A list of texts with separators between them spells what the elements spell, with what the
separator spells between them. -/
theorem spells_intercalate {between : List Sign} {separator : String} {render : α → String}
    (hseparator : Spells between separator.toList)
    (h : ∀ a ∈ items, Spells (signs a) (render a).toList) :
    Spells (between.intercalate (items.map signs))
      (separator.intercalate (items.map render)).toList := by
  induction items with
  | nil => exact spells_nil_iff.mpr rfl
  | cons a items ih =>
    cases items with
    | nil => simpa using h
    | cons b items =>
      rw [List.forall_mem_cons] at h
      simp only [List.map_cons, List.intercalate_cons_cons, String.intercalate_cons_cons,
        String.toList_append] at ih ⊢
      exact (h.1.append hseparator).append (ih h.2)

end Grammar

theorem Term.spells_render {t : Term} (h : t.WellFormed) : Spells [t.sign] t.render.toList := by
  cases t with
  | var x => exact spells_chars (.var x) h
  | const c => exact spells_chars (.word c) h

/-- The comma that separates written elements has a blank after it. -/
theorem Grammar.spells_comma : Spells [.mark .comma] ", ".toList :=
  (spells_mark .comma).append (spells_blank rfl)

theorem Atom.spells_render {a : Atom} (h : a.WellFormed) : Spells a.signs a.render.toList := by
  have hterms := spells_intercalate spells_comma fun t ht => Term.spells_render (h.terms t ht)
  rw [← separated_eq_intercalate] at hterms
  have hpredicate := spells_chars (.word a.predicate) h.predicate
  have hopening := spells_mark .opening
  have hclosing := spells_mark .closing
  have hatom := (hpredicate.append hopening).append (hterms.append hclosing)
  simpa [Atom.signs, Atom.render, Sign.chars, Mark.chars] using hatom

theorem Rule.spells_render {r : Rule} (h : r.WellFormed) : Spells r.signs r.render.toList := by
  obtain ⟨head, body⟩ := r
  have hhead := Atom.spells_render h.head
  have hpoint := spells_mark .point
  cases body with
  | nil =>
    have hfact := hhead.append hpoint
    simpa [Rule.signs, Rule.render, bodySigns, Sign.chars, Mark.chars] using hfact
  | cons a body =>
    have hbody := spells_intercalate spells_comma fun b hb => Atom.spells_render (h.body b hb)
    rw [← separated_eq_intercalate] at hbody
    -- The mark is written with a blank on either side.
    have himplies : Spells [.mark .implies] " :- ".toList :=
      (spells_blank rfl).append ((spells_mark .implies).append (spells_blank rfl))
    have hrule := (hhead.append himplies).append (hbody.append hpoint)
    simpa [Rule.signs, Rule.render, bodySigns, Sign.chars, Mark.chars] using hrule

/-- The rules that a program is written as: its facts are rules without a body. -/
def Program.asRules (p : Program) : List Rule := p.rules ++ p.facts.map fun fact => ⟨fact, []⟩

theorem Program.render_eq (p : Program) :
    p.render = "\n".intercalate (p.asRules.map Rule.render) := by
  simp [render, asRules, Rule.render, Function.comp_def]

/-- Read back, a program is told apart into rules and facts as it was, unless a rule has no body. -/
theorem Program.ofRules_asRules {p : Program} (h : ∀ r ∈ p.rules, r.body ≠ []) :
    ofRules p.asRules = p := by
  have hrules : ∀ r ∈ p.rules, r.isFact = false := fun r hr => by simpa [Rule.isFact] using h r hr
  have hrules_rules : p.rules.filter (fun r => !r.isFact) = p.rules :=
    List.filter_eq_self.mpr fun r hr => by simp [hrules r hr]
  have hrules_facts : p.rules.filter Rule.isFact = [] :=
    List.filter_eq_nil_iff.mpr fun r hr => by simp [hrules r hr]
  have hfacts : ∀ fact : Atom, Rule.isFact ⟨fact, []⟩ = true := fun _ => rfl
  simp [ofRules, asRules, hrules_rules, hrules_facts, List.filter_map, Function.comp_def, hfacts]

theorem Program.WellFormed.asRules {p : Program} (h : p.WellFormed) :
    ∀ r ∈ p.asRules, r.WellFormed := by
  intro r hr
  rcases List.mem_append.mp hr with hr | hr
  · exact h.rules r hr
  · obtain ⟨fact, hfact, rfl⟩ := List.mem_map.mp hr
    exact ⟨h.facts fact hfact, by simp⟩

theorem Program.spells_render {p : Program} (h : p.WellFormed) :
    Spells (p.asRules.flatMap Rule.signs) p.render.toList := by
  rw [render_eq, flatMap_eq_intercalate]
  -- The line breaks between rules are blanks and spell nothing.
  have hbreak : Spells [] "\n".toList := spells_blank rfl
  exact spells_intercalate hbreak fun r hr => Rule.spells_render (h.asRules r hr)

theorem Program.head?_render_ne {p : Program} (h : p.WellFormed) :
    p.render.toList.head? ≠ some markCharacter := by
  have hmarks : ∀ m : Mark, markCharacter ∉ m.chars := by
    intro m
    cases m <;> decide
  have habsent := (spells_render h).not_mem (by decide) (by decide) (by decide) hmarks
  exact fun hhead => habsent (List.mem_of_mem_head? hhead)

namespace Grammar

theorem wellFormed_of_parse (text : String) :
    (∀ t, Term.parse text = .ok t → t.WellFormed) ∧
    (∀ a, Atom.parse text = .ok a → a.WellFormed) ∧
    (∀ r, Rule.parse text = .ok r → r.WellFormed) ∧
    (∀ q, Query.parse text = .ok q → q.WellFormed) ∧
    (∀ p, Program.parse text = .ok p → p.WellFormed) := by
  refine ⟨fun t h => ?_, fun a h => ?_, fun r h => ?_, fun q h => ?_, fun p h => ?_⟩
  · have hspells := (reads_term.parseWhole_eq_ok_iff beginsNoWord_nil).mp h
    exact Term.wellFormed_of_signs hspells.wellFormed
  · exact Atom.wellFormed_of_signs ((reads_atom.parseWhole_eq_ok_iff trivial).mp h).wellFormed
  · exact Rule.wellFormed_of_signs ((reads_rule.parseWhole_eq_ok_iff trivial).mp h).wellFormed
  · rcases parseWhole_readQuery_eq_ok_iff.mp h with h | h
    · exact Atom.wellFormed_of_signs h.wellFormed
    · exact Atom.wellFormed_of_signs fun sign hsign =>
        h.wellFormed sign (List.mem_append_left _ hsign)
  -- The signs of a program are those of the rules it was read as.
  · obtain ⟨rules, hspells, rfl⟩ := parse_program_eq_ok_iff.mp h
    exact Program.wellFormed_ofRules fun r hr => Rule.wellFormed_of_signs fun sign hsign =>
      hspells.wellFormed sign (List.mem_flatMap.mpr ⟨r, hr, hsign⟩)

/-- Whatever is read can be written, and whatever can be written is read back as it was: terms,
atoms, also as queries with or without a point, rules, and programs, also from a file with or
without a byte order mark. -/
theorem parse_render :
    (∀ text,
      (∀ t, Term.parse text = .ok t → t.WellFormed) ∧
      (∀ a, Atom.parse text = .ok a → a.WellFormed) ∧
      (∀ r, Rule.parse text = .ok r → r.WellFormed) ∧
      (∀ q, Query.parse text = .ok q → q.WellFormed) ∧
      (∀ p, Program.parse text = .ok p → p.WellFormed)) ∧
    (∀ t : Term, t.WellFormed → Term.parse t.render = .ok t) ∧
    (∀ a : Atom, a.WellFormed → Atom.parse a.render = .ok a ∧
      Query.parse a.render = .ok a ∧ Query.parse (a.render ++ ".") = .ok a) ∧
    (∀ r : Rule, r.WellFormed → Rule.parse r.render = .ok r) ∧
    (∀ p : Program, p.WellFormed → Program.parse p.render = .ok p ∧
      ∀ files path, (files path = .contents p.render.toUTF8 ∨
          files path = .contents (byteOrderMark.toByteArray ++ p.render.toUTF8)) →
        (Program.load files path).result = .ok (some p)) := by
  refine ⟨wellFormed_of_parse, fun t ht => ?_, fun a ha => ⟨?_, ?_, ?_⟩, fun r hr => ?_,
    fun p hp => ?_⟩
  · exact (reads_term.parseWhole_eq_ok_iff beginsNoWord_nil).mpr (Term.spells_render ht)
  · exact (reads_atom.parseWhole_eq_ok_iff trivial).mpr (Atom.spells_render ha)
  · exact parseWhole_readQuery_eq_ok_iff.mpr (Or.inl (Atom.spells_render ha))
  · have hpoint := spells_mark .point
    have hquery := (Atom.spells_render ha).append hpoint
    refine parseWhole_readQuery_eq_ok_iff.mpr (Or.inr ?_)
    simpa [Sign.chars, Mark.chars] using hquery
  · exact (reads_rule.parseWhole_eq_ok_iff trivial).mpr (Rule.spells_render hr)
  · have hparse : Program.parse p.render = .ok p :=
      parse_program_eq_ok_iff.mpr
        ⟨p.asRules, Program.spells_render hp, (Program.ofRules_asRules hp.body_ne_nil).symm⟩
    exact ⟨hparse, fun files path hfile =>
      Program.result_load hfile (Program.head?_render_ne hp) hparse⟩

/-- A program with a rule, a fact and a fact without arguments, in a file with a mark. -/
theorem parse_render_marked_file :
    let p : Program := ⟨[⟨⟨"path", [.var "?x", .var "?y"]⟩, [⟨"edge", [.var "?x", .var "?y"]⟩]⟩],
      [⟨"edge", [.const "a", .const "b"]⟩, ⟨"ready", []⟩]⟩
    Program.parse " path (?x,?y):-edge(?x, ?y) .edge(a,b).\n ready( )." = .ok p ∧ p.WellFormed ∧
      p.render = "path(?x, ?y) :- edge(?x, ?y).\nedge(a, b).\nready()." ∧
      (Program.load (fun _ => .contents (byteOrderMark.toByteArray ++ p.render.toUTF8))
        "graph").result = .ok (some p) := by
  intro p
  have hparse : Program.parse " path (?x,?y):-edge(?x, ?y) .edge(a,b).\n ready( )." = .ok p := by
    decide +kernel
  have hp : p.WellFormed := (parse_render.1 _).2.2.2.2 p hparse
  exact ⟨hparse, hp, by decide, (parse_render.2.2.2.2 p hp).2 _ _ (Or.inr rfl)⟩

end Grammar

end Datalog
