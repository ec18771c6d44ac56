import ConstrainedOpt.Parameters
import ConstrainedOpt.Problem
import ConstrainedOpt.Barrier
import ConstrainedOpt.Registry.Location
import ConstrainedOpt.Run.State

/-! # Runs

A run threads a state and a record of what happened through its steps. It may halt before its end, on a
panic or on a failure; the state is then as it was left.
-/
namespace ConstrainedOpt

/-- What happened in a run: notes, visits of the hook points with the state found there, and evaluations
at trial points with the state they were tried from. -/
inductive Event (F : Type) where
  | note (n : Note F)
  | visit (loc : Location) (state : State F)
  | trial (state : State F) (t : Trial F)

structure Run (F : Type) where
  state : State F
  events : Array (Event F)

/-- Why a run halts before its end. -/
inductive Halt where
  | panic (p : Panic)
  | failure (f : Failure)
  /-- A manipulator kept a loop from ending. -/
  | outOfFuel

abbrev Running (F α : Type) := ExceptT Halt (StateM (Run F)) α

/-- What a user hooks into a run. -/
structure Hooks (F : Type) where
  /-- Called at every location; it may change the state and request a stop. -/
  manipulate : Location → State F → State F
  /-- Receives the failure a run ends with, and answers the one to hand back. -/
  fail : Failure → Failure

def Hooks.passive {F : Type} : Hooks F := ⟨fun _ s => s, id⟩

/-- What stays fixed during a run. -/
structure Setup (F : Type) where
  par : Parameters F
  problem : Problem F
  hooks : Hooks F
  /-- Dimension of the iterate at the start. -/
  n : Nat

namespace Setup
variable {F : Type}

def equalities (k : Setup F) : Nat := k.problem.equalities

def inequalities (k : Setup F) : Nat := k.problem.inequalities

end Setup

namespace Running
variable {F : Type}

/-- A journaled computation as a part of a run. -/
def lift {α : Type} (c : Journaled F α) : Running F α :=
  ExceptT.mk fun run =>
    let (result, notes) := c.run #[]
    (result.mapError Halt.panic, { run with events := run.events ++ notes.map Event.note })

instance : MonadLift (Journaled F) (Running F) := ⟨lift⟩

def event (e : Event F) : Running F Unit :=
  modifyThe (Run F) fun run => { run with events := run.events.push e }

def log (level : Level) (message : Message F) : Running F Unit := event (.note (.record level message))

def getState : Running F (State F) := return (← getThe (Run F)).state

def update (f : State F → State F) : Running F Unit :=
  modifyThe (Run F) fun run => { run with state := f run.state }

/-- Calls the manipulator. -/
def visit (k : Setup F) (loc : Location) : Running F Unit := do
  log .trace [Registry.text loc]
  event (.visit loc (← getState))
  update (k.hooks.manipulate loc)

/-- Evaluates the functions at a step from the iterate. -/
def tryStep [Scalar F] (k : Setup F) (dx : Vec F) (α : F) : Running F (Trial F) := do
  let s ← getState
  let t ← k.problem.trial s.x dx α
  event (.trial s t)
  return t

/-- Ends the run with a failure. -/
def fail {α : Type} (k : Setup F) (f : Failure) : Running F α := do
  event (.note (.failure f))
  throw (.failure (k.hooks.fail f))

/-- Has a stop been requested or met. -/
def stopped : Running F Bool := return decide ((← getState).stop ≠ .notConverged)

def setStop (s : Stop) : Running F Unit := update fun st => { st with stop := s }

/-- A numerical failure of an auxiliary solve stops the run; any other one is fatal. -/
def stepFailure (k : Setup F) (e : StepError) (context : String) : Running F Unit := do
  match e with
  | .numericalInstability =>
      log .warn [context, ": ", e.message]
      setStop .globalizationFailure
  | _ =>
      log .error [context, ": ", e.message]
      fail k ((Failure.plain e.message).context context)

/-- Passes that a loop is given beyond its own bound, should a manipulator set its counter back. -/
def patience : Nat := UInt64.size

end Running

end ConstrainedOpt
