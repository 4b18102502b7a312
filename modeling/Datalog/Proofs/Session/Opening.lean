import Datalog.Proofs.Loading
import Datalog.Proofs.Session.CommandLine
import Datalog.Proofs.Session.Rebuild

/-!
# Which program a session opens with

An argument of the program is put into a command line, from which it comes back without the white space
at its ends. So it names the path that it surrounds with white space, which is itself if it has none at
its ends: the program at that path is loaded and built. White space within a path does no harm, but a
path that begins or ends with it cannot be named.

## Main definitions

* `Session.Surrounds` — a text is a path with white space around it

## Main results

* `Session.session_start_of_load`, `Session.session_start_of_not_load` — a session opens with the
  program at the path that is named, or with nothing
* `Session.start_loads_surrounded_path` — which path that is, for every argument
* `Session.start_passes_over_blank` — a program at a path with a blank in front is passed over
-/

namespace Datalog

namespace Session

/-- The argument is the path with white space around it, and the path has none at its ends. -/
def Surrounds (argument path : String) : Prop :=
  ∃ before after, Text.Blank before ∧ Text.Blank after ∧ Text.Trimmed path.toList ∧
    argument.toList = before ++ path.toList ++ after

variable {files : String → ReadOutcome} {argument path : String}

theorem surrounds_iff : Surrounds argument path ↔ Text.trim argument.toList = path.toList :=
  Text.trim_eq_iff.symm

/-- Every argument surrounds some path. -/
theorem surrounds_trim (argument : String) :
    Surrounds argument (.ofList (Text.trim argument.toList)) :=
  surrounds_iff.mpr String.toList_ofList.symm

/-- An argument without white space at its ends surrounds itself, and nothing else. -/
theorem Surrounds.eq_of_trimmed (h : Surrounds argument path) (htrimmed : Text.Trimmed argument.toList) :
    path = argument := by
  rw [surrounds_iff, Text.trim_eq_self htrimmed] at h
  exact (String.toList_inj.mp h).symm

/-- The first command line of a session loads the program at the path that the argument surrounds. -/
theorem Surrounds.parse_load (h : Surrounds argument path) :
    Command.parse ("load " ++ argument) = .load path := by
  have hword : ∀ c ∈ "load".toList, Text.isWhitespace c = false := by
    simp [Text.isWhitespace, Text.whitespaceRanges]
  have hgiven := Command.given_append "load" (by decide) hword argument
  rw [surrounds_iff.mp h, String.ofList_toList] at hgiven
  exact Command.parse_eq_load_iff.mpr hgiven

theorem session_start_some (files : String → ReadOutcome) (argument : String) :
    (start files (some argument)).session =
      ((empty.respond files ("load " ++ argument)).session.respond files "build").session :=
  session_start files (some argument)

/-- A session opens with the program at the path that the argument surrounds. -/
theorem session_start_of_load {p : Program} (h : Surrounds argument path) (hpath : path ≠ "")
    (hload : (Program.load files path).result = .ok (some p)) :
    (start files (some argument)).session =
      { program := some p, engine := some (Engine.ofProgram p).engine } := by
  have hloaded : (empty.respond files ("load " ++ argument)).session =
      { program := some p, engine := none } := by
    simp only [respond, h.parse_load, perform, load, if_neg hpath, hload, say]
  rw [session_start_some, hloaded]
  exact session_respond_build rfl files

/-- If there is no program at this path, or no path, the session opens empty. -/
theorem session_start_of_not_load (h : Surrounds argument path)
    (hnone : path = "" ∨ ∀ p, (Program.load files path).result ≠ .ok (some p)) :
    (start files (some argument)).session = empty := by
  have hkept : (empty.respond files ("load " ++ argument)).session = empty := by
    rw [respond, h.parse_load, perform, load]
    split
    · rfl
    · rename_i hpath
      have hload := hnone.resolve_left hpath
      split
      · rename_i p hp
        exact absurd hp (hload p)
      · rfl
      · rfl
  have hbuild : Command.parse "build" = .build := by decide +kernel
  rw [session_start_some, hkept, respond, hbuild]
  rfl

/-- **A session opens with the program at the path that its argument surrounds.** Every argument is
some path with white space around it, which is the argument itself if it has no white space at its ends.
If a program can be loaded from that path, the session begins with it and with a new engine for it;
otherwise it begins with nothing. -/
theorem start_loads_surrounded_path (files : String → ReadOutcome) (argument : String) :
    ∃ path, Surrounds argument path ∧ (Text.Trimmed argument.toList → path = argument) ∧
      (∀ p, path ≠ "" → (Program.load files path).result = .ok (some p) →
        (start files (some argument)).session =
          { program := some p, engine := some (Engine.ofProgram p).engine }) ∧
      ((path = "" ∨ ∀ p, (Program.load files path).result ≠ .ok (some p)) →
        (start files (some argument)).session = empty) := by
  have hpath := surrounds_trim argument
  exact ⟨_, hpath, hpath.eq_of_trimmed, fun p hne hload => session_start_of_load hpath hne hload,
    session_start_of_not_load hpath⟩

/-- A file with a blank before its name holds a program, but the argument names another path: nothing
is loaded. If there is a program at that other path, it is loaded, though there is none at the path of
the argument. -/
theorem start_passes_over_blank :
    let fact : Program := { facts := [⟨"s", [.const "a"]⟩] }
    let only (path : String) : String → ReadOutcome := fun path' =>
      if path' = path then .contents "s(a).".toUTF8 else .missing
    ((Program.load (only " g.dl") " g.dl").result = .ok (some fact) ∧
      (start (only " g.dl") (some " g.dl")).session = empty) ∧
    (∀ p, (Program.load (only "g.dl") " g.dl").result ≠ .ok (some p)) ∧
      (start (only "g.dl") (some " g.dl")).session =
        { program := some fact, engine := some (Engine.ofProgram fact).engine } := by
  intro fact only
  have hload : ∀ path, (Program.load (only path) path).result = .ok (some fact) := by
    intro path
    have hparse : Program.parse "s(a)." = .ok fact := by decide +kernel
    exact Program.result_load (Or.inl (if_pos rfl)) (by decide) hparse
  have hnone : ∀ path path' : String, path' ≠ path →
      (Program.load (only path) path').result = .ok none := by
    intro path path' hne
    have hmissing : only path path' = .missing := if_neg hne
    rw [Program.load, hmissing]
  have hblank : Surrounds " g.dl" "g.dl" := surrounds_iff.mpr (by decide +kernel)
  refine ⟨⟨hload _, session_start_of_not_load hblank (Or.inr fun p => ?_)⟩, fun p => ?_,
    session_start_of_load hblank (by decide) (hload _)⟩
  · simp [hnone " g.dl" "g.dl" (by decide)]
  · simp [hnone "g.dl" " g.dl" (by decide)]

end Session

end Datalog
