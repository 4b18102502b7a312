import Datalog.Engine

/-!
# Sharing engines

An engine can be put behind a handle. A handle can be copied, and a call through any copy reaches the
same engine, so that what one copy pushes is known through all of them. Calls are made one after the
other.

## Main definitions

* `Sharing` — values behind handles
* `Sharing.put`, `Sharing.copy`, `Sharing.update`, `Sharing.read?` — making, copying and using handles
* `SharedCall` — what can be done with shared engines, as data
* `Sharing.perform` — carries it out
-/

namespace Datalog

/-- Values behind handles. The handles are numbered in the order in which they were made, and several
handles may lead to one value. -/
structure Sharing (α : Type) where
  /-- The values. -/
  cells : List α := []
  /-- Where the value behind each handle is. -/
  places : List Nat := []
  /-- There is a value behind every handle. -/
  valid : ∀ place ∈ places, place < cells.length := by simp

namespace Sharing

variable {α : Type}

/-- Puts a value behind a new handle. -/
def put (s : Sharing α) (a : α) : Sharing α where
  cells := s.cells ++ [a]
  places := s.places ++ [s.cells.length]
  valid place hplace := by
    rw [List.length_append, List.length_singleton]
    rcases List.mem_append.1 hplace with hplace | hplace
    · exact Nat.lt_succ_of_lt (s.valid place hplace)
    · exact List.mem_singleton.1 hplace ▸ Nat.lt_succ_self _

/-- Makes a new handle that leads where `handle` leads. -/
def copy (s : Sharing α) (handle : Nat) : Sharing α where
  cells := s.cells
  places := s.places ++ s.places[handle]?.toList
  valid place hplace := by
    rcases List.mem_append.1 hplace with hplace | hplace
    · exact s.valid place hplace
    · exact s.valid place (List.mem_of_getElem? (Option.mem_toList.1 hplace))

/-- Changes the value behind `handle`. -/
def update (s : Sharing α) (handle : Nat) (f : α → α) : Sharing α where
  cells := match s.places[handle]? with
    | some place => s.cells.modify place f
    | none => s.cells
  places := s.places
  valid place hplace := by
    split
    · rw [List.length_modify]
      exact s.valid place hplace
    · exact s.valid place hplace

/-- The value behind `handle`. -/
def read? (s : Sharing α) (handle : Nat) : Option α :=
  s.places[handle]?.bind fun place => s.cells[place]?

end Sharing

/-- A push through a handle. -/
inductive SharedPush where
  /-- Push a fact. -/
  | fact (atom : Atom)
  /-- Push a rule. -/
  | rule (r : Rule)
  /-- Push a program. -/
  | program (p : Program)

/-- The change of an engine that a push makes. -/
def SharedPush.call : SharedPush → Engine.Call
  | .fact atom => .pushFact atom
  | .rule r => .pushRule r
  | .program p => .pushProgram p

/-- Something to do with shared engines. Handles that were not made lead nowhere, and calls through
them do nothing. -/
inductive SharedCall where
  /-- Put an engine that some changes were made to behind a new handle. -/
  | share (calls : List Engine.Call)
  /-- Copy a handle. -/
  | copy (handle : Nat)
  /-- Push through a handle. -/
  | push (handle : Nat) (push : SharedPush)

/-- Carries a call out on values that start as `start` and are changed by `apply`. -/
def Sharing.perform {α : Type} (start : α) (apply : α → Engine.Call → α) (s : Sharing α) :
    SharedCall → Sharing α
  | .share calls => s.put (calls.foldl apply start)
  | .copy handle => s.copy handle
  | .push handle push => s.update handle fun a => apply a push.call

/-- Carries a call out on shared engines. -/
def Engine.performShared (s : Sharing Engine) (call : SharedCall) : Sharing Engine :=
  s.perform Engine.empty (fun engine change => (engine.apply change).engine) call

end Datalog
