import Datalog.Engine
import Datalog.Loading
import Datalog.Session.Command

/-!
# Sessions

A session holds a program, and the engine that was built for it if there is one. Commands load a
program, build the engine, add rules and facts to both, and show what there is. Each command answers
with a text.

## Main definitions

* `Session` — the program and the engine
* `Session.perform` — carries a command out
* `Session.respond` — carries out the command that a line gives
* `Session.start` — the beginning of a session, with a program to load if one was named
-/

namespace Datalog

/-- The state of a session. -/
structure Session where
  /-- The loaded program with what was added to it. -/
  program : Option Program := none
  /-- The engine built for the program. -/
  engine : Option Engine := none

/-- A session after a command, and the text that answers the command. -/
structure Reply where
  /-- The session. -/
  session : Session
  /-- The text, whose lines are all ended. -/
  text : String

namespace Session

/-- The session in which nothing was loaded. -/
def empty : Session := {}

/-- A text of the given lines. -/
def lines (texts : List String) : String := String.join (texts.map fun text => text ++ "\n")

/-- The greeting. -/
def greeting : String :=
  lines ["trielog interactive shell", "Type 'help' for an overview of commands. Ctrl-D exits."]

/-- What stands before every command line. -/
def prompt : String := "(trielog) "

/-- The explanation of the commands. -/
def helpText : String :=
  lines
    ["load <file>        load the program in <file>",
      "build              infer every fact the loaded program entails",
      "show loaded        print the loaded program",
      "show inferences    print every inferred fact",
      "add <rule>         add a rule or fact, e.g. 'add p(?x, ?y) :- q(?y, ?x).'",
      "query <atom>       print the inferred facts matching <atom>, e.g. 'query f(?x, b).'",
      "help               print this message",
      "quit               leave the shell"]

/-- The session stays as it is. -/
def say (session : Session) (texts : List String) : Reply := ⟨session, lines texts⟩

/-- Loads a program. The engine belongs to the former program and is given up. -/
def load (files : String → ReadOutcome) (session : Session) (path : String) : Reply :=
  if path = "" then session.say ["What file should I load?"]
  else
    match (Program.load files path).result with
    | .ok (some program) =>
      { program := some program, engine := none : Session }.say ["==> program loaded."]
    | .ok none => session.say [s!"{path} does not seem to exist."]
    | .error e => session.say [s!"Cannot load {path}: {e.message}"]

/-- Builds the engine for the program. -/
def build (session : Session) : Reply :=
  match session.program with
  | none => session.say ["No program was loaded. Try 'load' first."]
  | some program =>
    { session with engine := some (Engine.ofProgram program).engine }.say
      ["Building model...", "==> Model built (do 'show inferences' to see all known facts)"]

/-- Shows a subject. -/
def display (session : Session) : Subject → Reply
  | .loaded =>
    match session.program with
    | some program => session.say [program.render]
    | none => session.say ["No program was loaded."]
  | .inferences =>
    match session.engine with
    | some engine =>
      let facts := engine.facts
      session.say (facts.map Atom.render ++ [s!"==> {facts.length} facts currently known."])
    | none => session.say ["You did not ask to deduce what I know. Try 'build'."]
  | .unnamed => session.say ["Show what? Options: loaded, inferences."]
  | .unknown => session.say ["I don't know what to show. Options: loaded, inferences."]

/-- Adds rules and facts to the program and to the engine. Nothing is added unless the whole text can
be read. -/
def add (session : Session) (text : String) : Reply :=
  if text = "" then session.say ["I don't know what to add. Add a rule or fact."]
  else
    match Program.parse text with
    | .error e =>
      session.say
        [s!"I'm not able to add '{text}'. Is it a well-formed fact or rule?",
          s!"Details: {e.message}"]
    | .ok addition =>
      if addition.isEmpty then session.say [s!"Nothing to add in '{text}'."]
      else
        { program := some ((session.program.getD Program.empty).merge addition)
          engine := session.engine.map fun engine => (engine.pushProgram addition).engine :
          Session }.say [s!"==> added {addition.render} and updated known inferences."]

/-- Shows the facts that match a query. -/
def query (session : Session) (text : String) : Reply :=
  if text = "" then session.say ["I don't know what to query."]
  else
    match session.engine with
    | none => session.say ["Do a build first."]
    | some engine =>
      match Query.parse text with
      | .ok atom =>
        let facts := engine.answers atom
        session.say
          (facts.map Atom.render ++ [s!"==> {facts.length} facts match query {atom.render}"])
      | .error e =>
        session.say [s!"I'm not able to query '{text}'. Is it well-formed? {e.message}"]

/-- Carries a command out. -/
def perform (files : String → ReadOutcome) (session : Session) : Command → Reply
  | .blank => ⟨session, ""⟩
  | .load path => session.load files path
  | .build => session.build
  | .display subject => session.display subject
  | .add text => session.add text
  | .query text => session.query text
  | .help => ⟨session, helpText⟩
  | .quit => ⟨session, ""⟩
  | .unknown word => session.say [s!"Unknown command '{word}'. Type 'help' for a list."]

/-- Carries out the command that a line gives. -/
def respond (files : String → ReadOutcome) (session : Session) (line : String) : Reply :=
  session.perform files (Command.parse line)

/-- The command lines that stand for the argument of the program: it names a program to load and
build. -/
def openingLines (argument : Option String) : List String :=
  match argument with
  | none => []
  | some path => ["load " ++ path, "build"]

/-- Carries out the commands of several lines, one after the other. -/
def respondAll (files : String → ReadOutcome) (session : Session) : List String → Reply
  | [] => ⟨session, ""⟩
  | line :: rest =>
    let reply := session.respond files line
    let later := respondAll files reply.session rest
    ⟨later.session, reply.text ++ later.text⟩

/-- The beginning of a session: the greeting, and what the argument of the program calls for. -/
def start (files : String → ReadOutcome) (argument : Option String) : Reply :=
  let reply := empty.respondAll files (openingLines argument)
  ⟨reply.session, greeting ++ reply.text⟩

end Session

end Datalog
