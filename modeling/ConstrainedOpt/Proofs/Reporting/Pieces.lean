import ConstrainedOpt.Run.Iteration
import ConstrainedOpt.Proofs.Assertion.Mirrors
import ConstrainedOpt.Proofs.Run.Kept

/-! # Pieces of runs that report differently

A setup may report in another way: print another amount of the iteration table, check other functions and spaces, and
run its checks at other times. What no check decides about then shows the same.
-/
namespace ConstrainedOpt
variable {F : Type}

/-- How a run reports. -/
structure Reporting where
  msgLevel : Nat
  functionChecks : FunctionChecks
  spaceChecks : SpaceChecks
  checkSchedule : CheckSchedule

/-- The parameters with another way to report. -/
abbrev Parameters.reporting (par : Parameters F) (r : Reporting) : Parameters F := { par with
  msgLevel := r.msgLevel
  functionChecks := r.functionChecks
  spaceChecks := r.spaceChecks
  checkSchedule := r.checkSchedule }

/-- The setup with another way to report. -/
abbrev Setup.reporting (k : Setup F) (r : Reporting) : Setup F := { k with par := k.par.reporting r }

variable [Scalar F] {k : Setup F} {r : Reporting}
open Running

namespace Running

theorem mirrors_updateGradient (updateY : Bool) :
    Mirrors (updateGradient k updateY) (updateGradient (k.reporting r) updateY) := by
  unfold updateGradient
  refine mirrors_getState fun _ c => (mirrors_lift _).bind fun out => ?_
  obtain ⟨y, grad, outcome⟩ := out
  refine (mirrors_update fun _ c => .over c).bind fun _ => ?_
  cases outcome with
  | error e => exact mirrors_pure _
  | ok => exact (mirrors_update fun _ c => .over c).bind fun _ => mirrors_pure _

theorem mirrors_accept (hk : k.hooks.Observing) (t : Trial F) : Mirrors (accept k t) (accept (k.reporting r) t) := by
  unfold accept
  refine (mirrors_update fun _ c => .over c).bind fun _ => (mirrors_visit hk _).bind fun _ =>
    (mirrors_updateGradient true).bind fun out => ?_
  cases out with
  | error e => exact mirrors_stepFailure _ _
  | ok => exact mirrors_visit hk _

end Running

/-! ### Trust-region steps -/

namespace TrustRegion

theorem mirrors_quasinormalStep : Mirrors (quasinormalStep k) (quasinormalStep (k.reporting r)) := by
  unfold quasinormalStep
  refine mirrors_getState fun _ c => ?_
  dsimp only
  cases k.problem.equality with
  | none => exact (mirrors_update fun _ c => .over c).bind fun _ => mirrors_pure _
  | some _ =>
    refine (mirrors_lift _).bind fun safeguard => ?_
    cases safeguard with
    | error e => exact mirrors_pure _
    | ok => exact (mirrors_lift _).bind fun _ => (mirrors_update fun _ c => .over c).bind fun _ => mirrors_pure _

theorem mirrors_tangentialStep : Mirrors (tangentialStep k) (tangentialStep (k.reporting r)) := by
  unfold tangentialStep
  refine mirrors_getState fun _ c => (mirrors_lift _).bind fun out => ?_
  cases out with
  | error e => exact mirrors_pure _
  | ok => exact (mirrors_update fun _ c => .over c).bind fun _ => mirrors_pure _

theorem mirrors_predictedReduction : Mirrors (predictedReduction k) (predictedReduction (k.reporting r)) := by
  unfold predictedReduction
  refine mirrors_getState fun _ c => (mirrors_lift _).bind fun out => ?_
  dsimp only
  refine mirrors_ite (fun _ => ?_) fun _ => mirrors_getState fun _ _ => mirrors_pure _
  exact (mirrors_update fun _ c => .over c).bind fun _ => (mirrors_log _ _ _ _).bind fun _ =>
    mirrors_getState fun _ _ => mirrors_pure _

theorem mirrors_compositeStep : Mirrors (compositeStep k) (compositeStep (k.reporting r)) := by
  unfold compositeStep
  refine mirrors_quasinormalStep.bind fun out => ?_
  cases out with
  | error e => exact (mirrors_stepFailure _ _).bind fun _ => mirrors_pure _
  | ok =>
    refine (mirrors_update fun _ c => .over c).bind fun _ => mirrors_tangentialStep.bind fun out => ?_
    cases out with
    | error e => exact (mirrors_stepFailure _ _).bind fun _ => mirrors_pure _
    | ok =>
      refine mirrors_ite (fun _ => ?_) fun _ => ?_
      · exact mirrors_getState fun _ _ => (mirrors_log _ _ _ _).bind fun _ => (mirrors_setStop _).bind fun _ => mirrors_pure _
      · exact mirrors_getState fun _ _ => (mirrors_lift _).bind fun _ => (mirrors_update fun _ c => .over c).bind fun _ =>
          mirrors_pure _

theorem mirrors_reject (hk : k.hooks.Observing) (ratio : F) : Mirrors (reject k ratio) (reject (k.reporting r) ratio) := by
  unfold reject
  refine (mirrors_update fun _ c => .over c).bind fun _ => mirrors_getState fun _ c => (mirrors_log _ _ _ _).bind fun _ => ?_
  refine mirrors_note ((mirrors_visit hk _).bind fun _ => mirrors_getState fun _ c => ?_)
  refine mirrors_ite (fun _ => ?_) fun _ => mirrors_pure _
  exact (mirrors_log _ _ _ _).bind fun _ => (mirrors_setStop _).bind fun _ => mirrors_pure _

theorem mirrors_judge (hk : k.hooks.Observing) (stop : TruncatedStop) :
    Mirrors (judge k stop) (judge (k.reporting r) stop) := by
  unfold judge
  refine mirrors_predictedReduction.bind fun pred => mirrors_getState fun _ c => (mirrors_tryStep _ _).bind fun t => ?_
  refine (mirrors_lift _).bind fun here => (mirrors_lift _).bind fun there => ?_
  refine (mirrors_update fun _ c => .over c).bind fun _ => ?_
  refine mirrors_ite (fun _ => ?_) fun _ => mirrors_reject hk _
  exact mirrors_optional (mirrors_update fun _ c => .over c) ((mirrors_accept hk t).bind fun _ => mirrors_pure _)

theorem mirrors_attempt (hk : k.hooks.Observing) : Mirrors (attempt k) (attempt (k.reporting r)) := by
  unfold attempt
  refine (mirrors_visit hk _).bind fun _ => mirrors_compositeStep.bind fun out => ?_
  cases out with
  | none => exact mirrors_pure _
  | some stop =>
    refine (mirrors_visit hk _).bind fun _ => (mirrors_update fun _ c => .over c).bind fun _ => mirrors_getState fun _ c => ?_
    refine mirrors_ite (fun _ => ?_) fun _ => (mirrors_visit hk _).bind fun _ => mirrors_judge hk stop
    exact (mirrors_log _ _ _ _).bind fun _ => (mirrors_setStop _).bind fun _ => mirrors_pure _

theorem mirrors_attempts (hk : k.hooks.Observing) (fuel : Nat) :
    Mirrors (attempts k fuel) (attempts (k.reporting r) fuel) := by
  induction fuel with
  | zero => exact mirrors_throw _
  | succ fuel ih =>
    refine (mirrors_attempt hk).bind fun out => ?_
    cases out with
    | finished => exact mirrors_pure _
    | rejected => exact ih

end TrustRegion

/-! ### Line-search steps -/

namespace LineSearch

theorem mirrors_newtonDirection (last : Vec F) :
    Mirrors (newtonDirection k last) (newtonDirection (k.reporting r) last) := by
  unfold newtonDirection
  refine mirrors_getState fun _ c => (mirrors_lift _).bind fun out => ?_
  cases out with
  | error e => exact (mirrors_update fun _ c => .over c).bind fun _ => mirrors_pure _
  | ok =>
    refine (mirrors_update fun _ c => .over c).bind fun _ => mirrors_ite (fun _ => ?_) fun _ => mirrors_pure _
    exact mirrors_getState fun _ _ => (mirrors_log _ _ _ _).bind fun _ => (mirrors_setStop _).bind fun _ => mirrors_pure _

theorem mirrors_direction (last : Vec F) : Mirrors (direction k last) (direction (k.reporting r) last) := by
  unfold direction
  refine mirrors_getState fun _ c => ?_
  dsimp only
  cases k.par.direction with
  | newtonCg => exact mirrors_newtonDirection last
  | fletcherReeves | polakRibiere | hestenesStiefel =>
    exact (mirrors_lift _).bind fun _ => (mirrors_lift _).bind fun _ => mirrors_pure _
  | steepestDescent | bfgs => exact (mirrors_lift _).bind fun _ => mirrors_pure _

theorem mirrors_updateDirection : Mirrors (updateDirection k) (updateDirection (k.reporting r)) := by
  unfold updateDirection
  refine mirrors_getState fun _ c => (mirrors_direction _).bind fun out => ?_
  cases out with
  | error e => exact mirrors_pure _
  | ok => exact (mirrors_update fun _ c => .over c).bind fun _ => mirrors_pure _

theorem mirrors_descend : Mirrors (descend : Running F F) descend := by
  unfold descend
  refine mirrors_getState fun _ c => (mirrors_lift _).bind fun slope => ?_
  refine mirrors_ite (fun _ => mirrors_pure _) fun _ => ?_
  exact (mirrors_log _ _ _ _).bind fun _ => (mirrors_update fun _ c => .over c).bind fun _ => mirrors_pure _

theorem mirrors_safeLength (a : F) : Mirrors (safeLength k a) (safeLength (k.reporting r) a) := by
  unfold safeLength
  refine mirrors_ite (fun _ => mirrors_pure _) fun _ => ?_
  refine mirrors_getState fun _ c => (mirrors_lift _).bind fun out => ?_
  cases out with
  | error e => exact mirrors_fail _
  | ok => exact (mirrors_lift _).bind fun _ => mirrors_pure _

theorem mirrors_probe (a : F) : Mirrors (probe k a) (probe (k.reporting r) a) :=
  mirrors_getState fun _ _ => (mirrors_tryStep _ _).bind fun _ => mirrors_pure _

theorem Bracket.mirrors_narrow (br : Bracket F) : Mirrors (br.narrow k) (br.narrow (k.reporting r)) := by
  unfold Bracket.narrow
  exact mirrors_ite (fun _ => (mirrors_probe _).bind fun _ => mirrors_pure _) fun _ =>
    (mirrors_probe _).bind fun _ => mirrors_pure _

theorem Bracket.mirrors_narrowTimes (n : Nat) (br : Bracket F) :
    Mirrors (br.narrowTimes k n) (br.narrowTimes (k.reporting r) n) := by
  induction n generalizing br with
  | zero => exact mirrors_pure _
  | succ n ih => exact (mirrors_narrow br).bind ih

theorem mirrors_goldenSection (iterMax : Nat) (a : F) :
    Mirrors (goldenSection k iterMax a) (goldenSection (k.reporting r) iterMax a) := by
  unfold goldenSection
  refine (mirrors_probe _).bind fun left => mirrors_ite (fun _ => mirrors_pure _) fun _ => ?_
  exact (mirrors_probe _).bind fun right => (Bracket.mirrors_narrowTimes _ _).bind fun br => mirrors_pure _

theorem mirrors_backTrack (limit slope : F) (budget evals : Nat) (a : F) :
    Mirrors (backTrack k limit slope budget evals a) (backTrack (k.reporting r) limit slope budget evals a) := by
  induction budget generalizing evals a with
  | zero => exact (mirrors_probe a).bind fun _ => mirrors_pure _
  | succ budget ih =>
    exact (mirrors_probe a).bind fun t => mirrors_ite (fun _ => mirrors_pure _) fun _ => ih _ _

theorem mirrors_search (a limit slope : F) : Mirrors (search k a limit slope) (search (k.reporting r) a limit slope) := by
  unfold search
  dsimp only
  cases k.par.lengthRule with
  | goldenSection => exact mirrors_goldenSection _ _
  | backTracking => exact mirrors_backTrack _ _ _ _ _
  | twoPointA | twoPointB => exact (mirrors_probe _).bind fun _ => mirrors_pure _

theorem mirrors_reject (hk : k.hooks.Observing) (ref : Reference F) (a : F) (t : Probe F) :
    Mirrors (reject k ref a t) (reject (k.reporting r) ref a t) := by
  unfold reject
  refine (mirrors_update fun _ c => .over c).bind fun _ => mirrors_getState fun _ c => (mirrors_log _ _ _ _).bind fun _ => ?_
  refine (mirrors_visit hk _).bind fun _ => mirrors_getState fun _ c => ?_
  refine mirrors_ite (fun _ => ?_) fun _ => mirrors_pure _
  exact (mirrors_log _ _ _ _).bind fun _ => (mirrors_setStop _).bind fun _ => mirrors_pure _

theorem mirrors_attempt (hk : k.hooks.Observing) (ref : Reference F) :
    Mirrors (attempt k ref) (attempt (k.reporting r) ref) := by
  unfold attempt
  refine mirrors_getState fun _ c => (mirrors_safeLength _).bind fun a => mirrors_ite (fun _ => ?_) fun _ => ?_
  · exact mirrors_getState fun _ _ => (mirrors_log _ _ _ _).bind fun _ => (mirrors_setStop _).bind fun _ => mirrors_pure _
  · refine (mirrors_search _ _ _).bind fun out => ?_
    obtain ⟨t, evals⟩ := out
    refine (mirrors_update fun _ c => .over c).bind fun _ => mirrors_ite (fun _ => ?_) fun _ => mirrors_reject hk ref a t
    exact ((mirrors_update fun _ c => .over c).bind fun _ => mirrors_accept hk _).bind fun _ => mirrors_pure _

theorem mirrors_attempts (hk : k.hooks.Observing) (ref : Reference F) (fuel : Nat) :
    Mirrors (attempts k ref fuel) (attempts (k.reporting r) ref fuel) := by
  induction fuel with
  | zero => exact mirrors_throw _
  | succ fuel ih => exact (mirrors_attempt hk ref).bind fun again => mirrors_ite (fun _ => ih) fun _ => mirrors_pure _

theorem mirrors_step (hk : k.hooks.Observing) : Mirrors (step k) (step (k.reporting r)) := by
  have hsearch : ∀ slope : F, Mirrors
      (do
        visit k .beforeLineSearch
        attempts k (reference (← getState) slope) (k.par.rejectedMax + patience))
      (do
        visit (k.reporting r) .beforeLineSearch
        attempts (k.reporting r) (reference (← getState) slope) (k.par.rejectedMax + patience)) :=
    fun slope => (mirrors_visit hk _).bind fun _ => mirrors_getState fun _ c => mirrors_attempts hk _ _
  unfold step
  refine (mirrors_visit hk _).bind fun _ => mirrors_updateDirection.bind fun out => ?_
  cases out with
  | error e => exact (mirrors_stepFailure _ _).bind fun _ => mirrors_pure _
  | ok =>
    refine mirrors_stopped.bind fun _ => mirrors_ite (fun _ => mirrors_pure _) fun _ => ?_
    refine (mirrors_visit hk _).bind fun _ => mirrors_descend.bind fun slope => mirrors_getState fun _ c => ?_
    refine (mirrors_lift _).bind fun length => ?_
    cases length with
    | none => exact hsearch slope
    | some a => exact (mirrors_update fun _ c => .over c).bind fun _ => hsearch slope

end LineSearch

theorem UserStep.mirrors_step (hk : k.hooks.Observing) : Mirrors (UserStep.step k) (UserStep.step (k.reporting r)) := by
  unfold UserStep.step
  refine (mirrors_visit hk _).bind fun _ => (mirrors_update fun _ c => .over c).bind fun _ => (mirrors_visit hk _).bind fun _ =>
    mirrors_getState fun _ c => mirrors_ite (fun _ => ?_) fun _ => ?_
  · exact (mirrors_log _ _ _ _).bind fun _ => mirrors_fail_bind _ _ _
  · refine (mirrors_update fun _ c => .over c).bind fun _ => (mirrors_tryStep _ _).bind fun t => ?_
    exact mirrors_ite (fun _ => (mirrors_log _ _ _ _).bind fun _ => mirrors_setStop _) fun _ => mirrors_accept hk t

/-! ### Iterations -/

namespace Running

theorem mirrors_takeStep (hk : k.hooks.Observing) : Mirrors (takeStep k) (takeStep (k.reporting r)) := by
  unfold takeStep
  dsimp only
  cases k.par.algorithm with
  | trustRegion => exact TrustRegion.mirrors_attempts hk _
  | lineSearch => exact LineSearch.mirrors_step hk
  | userDefined => exact UserStep.mirrors_step hk

theorem mirrors_updateMu : Mirrors (updateMu k) (updateMu (k.reporting r)) := by
  unfold updateMu
  refine mirrors_getState fun _ c => mirrors_ite (fun _ => mirrors_pure _) fun _ => mirrors_ite (fun _ => ?_) fun _ => mirrors_pure _
  refine (mirrors_update fun _ c => .over c).bind fun _ => (mirrors_log _ _ _ _).bind fun _ =>
    (mirrors_updateGradient true).bind fun out => ?_
  cases out with
  | error e => exact mirrors_stepFailure _ _
  | ok => exact mirrors_pure _

theorem mirrors_saveOld : Mirrors (saveOld k) (saveOld (k.reporting r)) := by
  unfold saveOld
  refine (mirrors_update fun _ c => .over c).bind fun _ => ?_
  dsimp only
  cases k.problem.equality with
  | none => exact mirrors_pure _
  | some _ => exact mirrors_getState fun _ c => (mirrors_lift _).bind fun _ => mirrors_update fun _ c => .over c

theorem mirrors_body (hk : k.hooks.Observing) : Mirrors (body k) (body (k.reporting r)) :=
  (mirrors_visit hk _).bind fun _ => mirrors_saveOld.bind fun _ => (mirrors_visit hk _).bind fun _ =>
    (mirrors_update fun _ c => .over c).bind fun _ => mirrors_takeStep hk

theorem mirrors_updateHistory : Mirrors (updateHistory k) (updateHistory (k.reporting r)) := by
  unfold updateHistory
  exact mirrors_getState fun _ c => (mirrors_lift _).bind fun _ => (mirrors_lift _).bind fun _ =>
    mirrors_update fun _ c => .over c

theorem reports_printHeader (k : Setup F) (s : State F) : Reports (Table.printHeader k) s :=
  reports_ite (fun _ es => reports_note _ s es) fun _ => reports_pure _

theorem reports_printRow (k : Setup F) (s : State F) : Reports (Table.printRow k) s :=
  reports_ite (fun _ es => reports_note _ s es) fun _ => reports_pure s

theorem mirrors_countIteration : Mirrors (countIteration k) (countIteration (k.reporting r)) := by
  unfold countIteration
  refine (mirrors_update fun _ c => .over c).bind fun _ => (mirrors_update fun s c => ?_).bind fun _ => ?_
  · dsimp only
    split
    · exact .over c
    · exact .over c
  · refine mirrors_getState fun _ c => (mirrors_log _ _ _ _).bind fun _ s t hst => ?_
    exact (reports_printRow k s).matches (reports_printRow _ t) hst

theorem mirrors_tail (hk : k.hooks.Observing) : Mirrors (tail k) (tail (k.reporting r)) :=
  (mirrors_visit hk _).bind fun _ => mirrors_updateHistory.bind fun _ => (mirrors_visit hk _).bind fun _ =>
    mirrors_countIteration.bind fun _ => mirrors_visit hk _

omit [Scalar F] in
theorem mirrors_finish (hk : k.hooks.Observing) : Mirrors (finish k) (finish (k.reporting r)) := by
  have hend : Mirrors (do
      visit k .endOfOptimization
      return (← getState).stop) (do
      visit (k.reporting r) .endOfOptimization
      return (← getState).stop) :=
    (mirrors_visit hk _).bind fun _ => mirrors_getState fun _ _ => mirrors_pure _
  unfold finish
  refine mirrors_getState fun s c => ?_
  dsimp only
  cases s.stop <;> exact (mirrors_log _ _ _ _).bind fun _ => mirrors_note hend

theorem mirrors_initialEvaluation (hk : k.hooks.Observing) :
    Mirrors (initialEvaluation k) (initialEvaluation (k.reporting r)) := by
  unfold initialEvaluation
  refine (mirrors_visit hk _).bind fun _ => mirrors_getState fun _ c => (mirrors_lift _).bind fun t =>
    (mirrors_update fun _ c => .over c).bind fun _ => mirrors_getState fun _ c => mirrors_ite (fun _ => mirrors_pure _) fun _ => ?_
  exact (mirrors_log _ _ _ _).bind fun _ => (mirrors_setStop _).bind fun _ => mirrors_pure _

theorem mirrors_initialGradient : Mirrors (initialGradient k) (initialGradient (k.reporting r)) := by
  unfold initialGradient
  refine mirrors_getState fun _ c => mirrors_optional (mirrors_update fun _ c => .over c) ?_
  refine (mirrors_updateGradient _).bind fun out => ?_
  cases out with
  | error e => exact (mirrors_stepFailure _ _).bind fun _ => mirrors_pure _
  | ok => exact (mirrors_update fun _ c => .over c).bind fun _ => mirrors_pure _

theorem parameterError_reporting : (k.reporting r).parameterError? = k.parameterError? := rfl

theorem mirrors_check : Mirrors (check k) (check (k.reporting r)) := by
  unfold check
  rw [parameterError_reporting]
  cases k.parameterError? with
  | some e => exact (mirrors_log _ _ _ _).bind fun _ => mirrors_fail_bind _ _ _
  | none =>
    refine mirrors_getState fun _ c => mirrors_ite (fun _ => ?_) fun _ => mirrors_pure _
    exact (mirrors_log _ _ _ _).bind fun _ => mirrors_fail _

end Running
end ConstrainedOpt
