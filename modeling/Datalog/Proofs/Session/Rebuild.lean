import Datalog.Proofs.Engine.OrderIndependence
import Datalog.Session

/-!
# The engine of a session is as good as a new one

A session keeps a program and, once it was built, an engine. What is added goes to both, by different
ways: the program grows, and the engine is pushed the addition. Loading replaces the program and gives
the engine up. Whatever the commands are and whatever the files hold at the time, an engine that is
there has its session's program on record, and it knows what a new engine for this program would know.

## Main definitions

* `Engine.KnowsProgram` — an engine knows what follows from the program that it has on record
* `Session.UpToDate` — the engine of a session, if there is one, is up to date with the program
* `Session.reached` — the session after some command lines
* `Session.SameListing` — two answers that list the same facts

## Main results

* `Engine.KnowsProgram.agree` — engines with the same program on record agree
* `Session.UpToDate.perform` — no command puts a session out of date
* `Session.session_start` — an argument of the program opens a session as command lines would
* `Session.engine_agrees_with_rebuild` — building again changes nothing that can be seen
-/

namespace Datalog

namespace Program

theorem mem_items_merge {p q : Program} {item : Item} :
    item ∈ (p.merge q).items ↔ item ∈ p.items ∨ item ∈ q.items := by
  simp only [items, merge, List.map_append, List.mem_append]
  tauto

end Program

/-! ### Engines that know their program -/

namespace Engine

variable {e e' : Engine}

/-- The engine knows what follows from the program that it has on record, and nothing else. -/
def KnowsProgram (e : Engine) : Prop :=
  ∃ given, Knowledge.IsClosure given e.knowledge ∧ ∀ item, item ∈ given ↔ item ∈ e.program.items

@[simp] theorem program_pushProgram (e : Engine) (p : Program) :
    (e.pushProgram p).engine.program = e.program.merge p := rfl

theorem knowsProgram_empty : empty.KnowsProgram :=
  ⟨[], Knowledge.isClosure_empty, by simp [empty, Program.items]⟩

theorem KnowsProgram.pushProgram (h : e.KnowsProgram) (p : Program) :
    (e.pushProgram p).engine.KnowsProgram := by
  obtain ⟨given, hclosure, hgiven⟩ := h
  refine ⟨given ++ p.items, isClosure_pushProgram hclosure p, fun item => ?_⟩
  rw [List.mem_append, hgiven, program_pushProgram, Program.mem_items_merge]

theorem knowsProgram_ofProgram (p : Program) : (ofProgram p).engine.KnowsProgram :=
  knowsProgram_empty.pushProgram p

/-- Engines that know the same program agree, however they came to know it. -/
theorem KnowsProgram.agree (h : e.KnowsProgram) (h' : e'.KnowsProgram)
    (hprogram : e.program = e'.program) : Agree e e' := by
  obtain ⟨given, hclosure, hgiven⟩ := h
  obtain ⟨given', hclosure', hgiven'⟩ := h'
  have hsame : ∀ item, item ∈ given ↔ item ∈ given' := fun item => by
    rw [hgiven, hgiven', hprogram]
  have hrules := properRules_congr hsame
  have hfacts := hclosure.perm_facts hclosure' (statedFacts_congr hsame) hrules
  have hregister := hclosure.perm_rules hclosure' hfacts hrules
  exact
    { facts := hfacts
      rules := hregister
      listed := hclosure.perm_listed hclosure' hfacts
      factCount := hfacts.length_eq
      ruleCount := hregister.length_eq
      answers := hclosure.perm_answers hclosure' hfacts }

end Engine

/-! ### Sessions -/

namespace Session

/-- If there is an engine, the session's program is the one that the engine has on record, and the
engine knows what follows from it. -/
def UpToDate (session : Session) : Prop :=
  ∀ e, session.engine = some e → session.program = some e.program ∧ e.KnowsProgram

variable {session : Session}

theorem upToDate_of_engine_eq_none (h : session.engine = none) : session.UpToDate := by
  intro e he
  rw [h] at he
  exact absurd he (Option.some_ne_none e).symm

/-- Loading gives the engine up, or changes nothing. -/
theorem UpToDate.load (h : session.UpToDate) (files : String → ReadOutcome) (path : String) :
    (session.load files path).session.UpToDate := by
  rw [Session.load]
  split
  · exact h
  · split
    · exact upToDate_of_engine_eq_none rfl
    · exact h
    · exact h

/-- Building makes a new engine, if there is a program. -/
theorem UpToDate.build (h : session.UpToDate) : session.build.session.UpToDate := by
  rw [Session.build]
  split
  · exact h
  · rename_i p hp
    intro e he
    obtain rfl : (Engine.ofProgram p).engine = e := Option.some.inj he
    exact ⟨hp, Engine.knowsProgram_ofProgram p⟩

/-- Adding extends the program and the engine by the same rules and facts, or changes nothing. -/
theorem UpToDate.add (h : session.UpToDate) (text : String) :
    (session.add text).session.UpToDate := by
  rw [Session.add]
  split
  · exact h
  · split
    · exact h
    · rename_i addition _
      split
      · exact h
      · intro e' he'
        obtain ⟨e, he, rfl⟩ := Option.map_eq_some_iff.mp he'
        obtain ⟨hprogram, hknows⟩ := h e he
        refine ⟨?_, hknows.pushProgram addition⟩
        simp [say, hprogram]

/-- Showing something changes nothing. -/
theorem session_display (session : Session) (subject : Subject) :
    (session.display subject).session = session := by
  cases subject with
  | loaded => rw [display]; split <;> rfl
  | inferences => rw [display]; split <;> rfl
  | unnamed => rfl
  | unknown => rfl

/-- Asking changes nothing. -/
theorem session_query (session : Session) (text : String) :
    (session.query text).session = session := by
  rw [query]
  split
  · rfl
  · split
    · rfl
    · split <;> rfl

/-- No command puts a session out of date. -/
theorem UpToDate.perform (h : session.UpToDate) (files : String → ReadOutcome) (command : Command) :
    (session.perform files command).session.UpToDate := by
  cases command with
  | load path => exact h.load files path
  | build => exact h.build
  | add text => exact h.add text
  | display subject => exact (session_display session subject).symm ▸ h
  | query text => exact (session_query session text).symm ▸ h
  | blank => exact h
  | help => exact h
  | quit => exact h
  | unknown word => exact h

/-- The session after some command lines, each of them with the files as they are at that time. -/
def reached (lines : List ((String → ReadOutcome) × String)) : Session :=
  lines.foldl (fun session line => (session.respond line.1 line.2).session) empty

theorem reached_append_singleton (lines : List ((String → ReadOutcome) × String))
    (line : (String → ReadOutcome) × String) :
    reached (lines ++ [line]) = ((reached lines).respond line.1 line.2).session := by
  rw [reached, List.foldl_append, List.foldl_cons, List.foldl_nil, reached]

theorem session_respondAll (files : String → ReadOutcome) (session : Session) (lines : List String) :
    (session.respondAll files lines).session =
      lines.foldl (fun session line => (session.respond files line).session) session := by
  induction lines generalizing session with
  | nil => rfl
  | cons line rest ih =>
    rw [List.foldl_cons, ← ih]
    simp only [respondAll]

/-- An argument of the program opens a session as command lines would. -/
theorem session_start (files : String → ReadOutcome) (argument : Option String) :
    (start files argument).session = reached ((openingLines argument).map (Prod.mk files)) := by
  rw [reached, List.foldl_map]
  exact session_respondAll files empty (openingLines argument)

theorem upToDate_reached (lines : List ((String → ReadOutcome) × String)) :
    (reached lines).UpToDate := by
  induction lines using List.reverseRecOn with
  | nil => exact upToDate_of_engine_eq_none rfl
  | append_singleton lines line ih =>
    rw [reached_append_singleton]
    exact ih.perform line.1 (Command.parse line.2)

/-- Both texts list the same facts, perhaps in another order, and close with the same line. -/
def SameListing (text text' : String) : Prop :=
  ∃ (facts facts' : List Atom) (closing : String), facts.Perm facts' ∧
    text = lines (facts.map Atom.render ++ [closing]) ∧
    text' = lines (facts'.map Atom.render ++ [closing])

theorem SameListing.refl_lines (closing : String) :
    SameListing (lines [closing]) (lines [closing]) :=
  ⟨[], [], closing, List.Perm.refl [], rfl, rfl⟩

variable {session' : Session} {e e' : Engine}

/-- Engines that agree show the same inferences. -/
theorem sameListing_inferences (he : session.engine = some e) (he' : session'.engine = some e')
    (h : e.Agree e') :
    SameListing (session.display .inferences).text (session'.display .inferences).text := by
  refine ⟨e.facts, e'.facts, s!"==> {e.facts.length} facts currently known.", h.listed, ?_, ?_⟩
  · simp only [display, he, say]
  · simp only [display, he', say, h.listed.length_eq]

/-- Engines that agree answer every query by the same facts. A text that is no query is refused by
the same line. -/
theorem sameListing_query (he : session.engine = some e) (he' : session'.engine = some e')
    (h : e.Agree e') (text : String) :
    SameListing (session.query text).text (session'.query text).text := by
  simp only [query, he, he']
  split
  · exact SameListing.refl_lines _
  · cases Query.parse text with
    | error _ => exact SameListing.refl_lines _
    | ok atom =>
      refine ⟨e.answers atom, e'.answers atom,
        s!"==> {(e.answers atom).length} facts match query {atom.render}", h.answers atom, rfl, ?_⟩
      simp only [say, (h.answers atom).length_eq]

/-- Building makes the engine of the program, and keeps the program. -/
theorem session_respond_build {p : Program} (h : session.program = some p)
    (files : String → ReadOutcome) :
    (session.respond files "build").session =
      { program := some p, engine := some (Engine.ofProgram p).engine } := by
  have hparse : Command.parse "build" = .build := by decide +kernel
  simp only [respond, hparse, perform, build, h, say]

/-- **Building again changes nothing that can be seen.** If there is an engine after some command
lines, there is a program too, which is the one that the engine has on record, and the engine agrees
with a new one for it. To build at this point keeps the program, and neither the inferences nor the
answers to any query differ from those before, except in their order. -/
theorem engine_agrees_with_rebuild (lines : List ((String → ReadOutcome) × String)) {e : Engine}
    (h : (reached lines).engine = some e) :
    ∃ p, (reached lines).program = some p ∧ e.program = p ∧
      e.Agree (Engine.ofProgram p).engine ∧
      ∀ files, ∃ rebuilt, ((reached lines).respond files "build").session = rebuilt ∧
        rebuilt.program = some p ∧ rebuilt.engine = some (Engine.ofProgram p).engine ∧
        SameListing ((reached lines).display .inferences).text (rebuilt.display .inferences).text ∧
        ∀ text, SameListing ((reached lines).query text).text (rebuilt.query text).text := by
  obtain ⟨hprogram, hknows⟩ := upToDate_reached lines e h
  have hagree : e.Agree (Engine.ofProgram e.program).engine :=
    hknows.agree (Engine.knowsProgram_ofProgram e.program) rfl
  refine ⟨e.program, hprogram, rfl, hagree, fun files => ?_⟩
  refine ⟨_, session_respond_build hprogram files, rfl, rfl, ?_, fun text => ?_⟩
  · exact sameListing_inferences h rfl hagree
  · exact sameListing_query h rfl hagree text

/-- A rule is added before the engine is built, and a fact for it afterwards. -/
theorem engine_agrees_after_additions :
    ∃ e, (reached [(fun _ => .missing, "add t(?x) :- s(?x)."), (fun _ => .missing, "build"),
        (fun _ => .missing, "add s(a).")]).engine = some e ∧
      e.Agree (Engine.ofProgram e.program).engine := by
  have hbuilt : (reached [(fun _ => .missing, "add t(?x) :- s(?x)."),
      (fun _ => .missing, "build"), (fun _ => .missing, "add s(a).")]).engine.isSome = true := by
    decide +kernel
  obtain ⟨e, he⟩ := Option.isSome_iff_exists.mp hbuilt
  obtain ⟨p, _, rfl, hagree, _⟩ := engine_agrees_with_rebuild _ he
  exact ⟨e, he, hagree⟩

end Session

end Datalog
