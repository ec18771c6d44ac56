import ConstrainedOpt.Run.Iteration

/-! # Solving

A problem is solved from a state, by a composite-step trust-region method or by a line-search method
where there are no equality constraints. Hooks see and change the state on the way.
-/
namespace ConstrainedOpt
variable {F : Type} [Scalar F]

/-- How a run ended, what happened in it, and the state it left. -/
structure Solution (F : Type) where
  result : Except Halt Stop
  state : State F
  events : Array (Event F)

def Problem.solve (p : Problem F) (par : Parameters F) (hooks : Hooks F) (s : State F) : Solution F :=
  let (result, run) := (Running.whole ⟨par, p, hooks, s.x.length⟩).run ⟨s, #[]⟩
  ⟨result, run.state, run.events⟩

namespace Solution

omit [Scalar F] in
def notes (s : Solution F) : List (Note F) :=
  s.events.toList.filterMap fun
    | .note n => some n
    | _ => none

omit [Scalar F] in
/-- The hook points visited, with the states found there. -/
def visits (s : Solution F) : List (Location × State F) :=
  s.events.toList.filterMap fun
    | .visit loc state => some (loc, state)
    | _ => none

omit [Scalar F] in
/-- The trial points evaluated, with the states they were tried from. -/
def trials (s : Solution F) : List (State F × Trial F) :=
  s.events.toList.filterMap fun
    | .trial state t => some (state, t)
    | _ => none

end Solution

end ConstrainedOpt
