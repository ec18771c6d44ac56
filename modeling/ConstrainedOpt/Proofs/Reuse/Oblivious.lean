import ConstrainedOpt.Run.Iteration
import ConstrainedOpt.Proofs.Assertion.Twins

/-! # Runs do not look back

What a run does depends on the state it has reached and on nothing that happened before.
-/
namespace ConstrainedOpt
variable {F : Type} [Scalar F] (k : Setup F)
open Running

namespace Running

theorem oblivious_updateGradient (updateY : Bool) : Oblivious (updateGradient k updateY) := by
  unfold updateGradient
  refine oblivious_getState.bind fun s => (oblivious_lift _).bind fun r => ?_
  obtain ⟨y, grad, outcome⟩ := r
  refine (oblivious_update _).bind fun _ => ?_
  cases outcome with
  | error e => exact oblivious_pure _
  | ok => exact (oblivious_update _).bind fun _ => oblivious_pure _

theorem oblivious_accept (t : Trial F) : Oblivious (accept k t) := by
  unfold accept
  refine (oblivious_update _).bind fun _ => (oblivious_visit _ _).bind fun _ => (oblivious_updateGradient k true).bind fun o => ?_
  split
  · exact oblivious_stepFailure _ _ _
  · exact oblivious_visit _ _

end Running

/-! ### Trust-region steps -/

namespace TrustRegion

theorem oblivious_quasinormalStep : Oblivious (quasinormalStep k) := by
  unfold quasinormalStep
  refine oblivious_getState.bind fun s => ?_
  split
  · exact (oblivious_update _).bind fun _ => oblivious_pure _
  · refine (oblivious_lift _).bind fun safeguard => ?_
    split
    · exact oblivious_pure _
    · exact (oblivious_lift _).bind fun r => (oblivious_update _).bind fun _ => oblivious_pure _

theorem oblivious_tangentialStep : Oblivious (tangentialStep k) := by
  unfold tangentialStep
  refine oblivious_getState.bind fun s => (oblivious_lift _).bind fun r => ?_
  split
  · exact oblivious_pure _
  · exact (oblivious_update _).bind fun _ => oblivious_pure _

theorem oblivious_predictedReduction : Oblivious (predictedReduction k) := by
  unfold predictedReduction
  refine oblivious_getState.bind fun s => (oblivious_lift _).bind fun r => ?_
  dsimp only
  split
  · exact (oblivious_update _).bind fun _ => (oblivious_log _ _).bind fun _ => oblivious_getState.bind fun _ => oblivious_pure _
  · exact oblivious_getState.bind fun _ => oblivious_pure _

theorem oblivious_compositeStep : Oblivious (compositeStep k) := by
  unfold compositeStep
  refine (oblivious_quasinormalStep k).bind fun q => ?_
  split
  · exact (oblivious_stepFailure _ _ _).bind fun _ => oblivious_pure _
  · refine (oblivious_update _).bind fun _ => (oblivious_tangentialStep k).bind fun q => ?_
    split
    · exact (oblivious_stepFailure _ _ _).bind fun _ => oblivious_pure _
    · split
      · exact oblivious_getState.bind fun _ => (oblivious_log _ _).bind fun _ => (oblivious_setStop _).bind fun _ => oblivious_pure _
      · exact oblivious_getState.bind fun _ => (oblivious_lift _).bind fun _ => (oblivious_update _).bind fun _ => oblivious_pure _

theorem oblivious_reject (ratio : F) : Oblivious (reject k ratio) := by
  have hvisit : Oblivious (do
      visit k .afterRejectedTrustRegion
      let s ← getState
      if k.par.rejectedMax ≤ s.rejected then
        log .warn [s.iter, ": ", s.rejected, " steps rejected in a row"]
        setStop .globalizationFailure
        return Attempt.finished
      return if s.stop = .notConverged then .rejected else .finished) := by
    refine (oblivious_visit _ _).bind fun _ => oblivious_getState.bind fun s => ?_
    split
    · exact (oblivious_log _ _).bind fun _ => (oblivious_setStop _).bind fun _ => oblivious_pure _
    · exact oblivious_pure _
  unfold reject
  refine (oblivious_update _).bind fun _ => oblivious_getState.bind fun s => (oblivious_log _ _).bind fun _ => ?_
  split
  · exact (oblivious_event _).bind fun _ => hvisit
  · exact hvisit

theorem oblivious_judge (stop : TruncatedStop) : Oblivious (judge k stop) := by
  have haccept : ∀ t : Trial F, Oblivious (do
      accept k t
      return Attempt.finished) := fun t => (oblivious_accept k t).bind fun _ => oblivious_pure _
  unfold judge
  refine (oblivious_predictedReduction k).bind fun pred => oblivious_getState.bind fun s => (oblivious_tryStep _ _ _).bind fun t => ?_
  refine (oblivious_lift _).bind fun here => (oblivious_lift _).bind fun there => (oblivious_update _).bind fun _ => ?_
  split
  · split
    · exact (oblivious_update _).bind fun _ => haccept t
    · exact haccept t
  · exact oblivious_reject k _

theorem oblivious_attempt : Oblivious (attempt k) := by
  unfold attempt
  refine (oblivious_visit _ _).bind fun _ => (oblivious_compositeStep k).bind fun o => ?_
  split
  · exact oblivious_pure _
  · refine (oblivious_visit _ _).bind fun _ => (oblivious_update _).bind fun _ => oblivious_getState.bind fun s => ?_
    split
    · exact (oblivious_log _ _).bind fun _ => (oblivious_setStop _).bind fun _ => oblivious_pure _
    · exact (oblivious_visit _ _).bind fun _ => oblivious_judge k _

theorem oblivious_attempts (fuel : Nat) : Oblivious (attempts k fuel) := by
  induction fuel with
  | zero => exact oblivious_throw _
  | succ fuel ih =>
    refine (oblivious_attempt k).bind fun a => ?_
    cases a with
    | finished => exact oblivious_pure _
    | rejected => exact ih

end TrustRegion

/-! ### Line-search steps -/

namespace LineSearch

theorem oblivious_newtonDirection (last : Vec F) : Oblivious (newtonDirection k last) := by
  unfold newtonDirection
  refine oblivious_getState.bind fun s => (oblivious_lift _).bind fun r => ?_
  split
  · exact (oblivious_update _).bind fun _ => oblivious_pure _
  · refine (oblivious_update _).bind fun _ => ?_
    split
    · exact oblivious_getState.bind fun _ => (oblivious_log _ _).bind fun _ => (oblivious_setStop _).bind fun _ => oblivious_pure _
    · exact oblivious_pure _

theorem oblivious_direction (last : Vec F) : Oblivious (direction k last) := by
  unfold direction
  refine oblivious_getState.bind fun s => ?_
  split
  · exact (oblivious_lift _).bind fun _ => oblivious_pure _
  · exact (oblivious_lift _).bind fun _ => (oblivious_lift _).bind fun _ => oblivious_pure _
  · exact (oblivious_lift _).bind fun _ => (oblivious_lift _).bind fun _ => oblivious_pure _
  · exact (oblivious_lift _).bind fun _ => (oblivious_lift _).bind fun _ => oblivious_pure _
  · exact (oblivious_lift _).bind fun _ => oblivious_pure _
  · exact oblivious_newtonDirection k last

theorem oblivious_updateDirection : Oblivious (updateDirection k) := by
  unfold updateDirection
  refine oblivious_getState.bind fun s => (oblivious_direction k _).bind fun o => ?_
  split
  · exact oblivious_pure _
  · exact (oblivious_update _).bind fun _ => oblivious_pure _

theorem oblivious_descend : Oblivious (descend : Running F F) := by
  unfold descend
  refine oblivious_getState.bind fun s => (oblivious_lift _).bind fun slope => ?_
  split
  · exact oblivious_pure _
  · exact (oblivious_log _ _).bind fun _ => (oblivious_update _).bind fun _ => oblivious_pure _

theorem oblivious_safeLength (a : F) : Oblivious (safeLength k a) := by
  unfold safeLength
  split
  · exact oblivious_pure _
  · refine oblivious_getState.bind fun s => (oblivious_lift _).bind fun safeguard => ?_
    split
    · exact oblivious_fail _ _
    · exact (oblivious_lift _).bind fun _ => oblivious_pure _

theorem oblivious_probe (a : F) : Oblivious (probe k a) :=
  oblivious_getState.bind fun _ => (oblivious_tryStep _ _ _).bind fun _ => oblivious_pure _

theorem Bracket.oblivious_narrow (br : Bracket F) : Oblivious (br.narrow k) := by
  unfold Bracket.narrow
  split
  · exact (oblivious_probe k _).bind fun _ => oblivious_pure _
  · exact (oblivious_probe k _).bind fun _ => oblivious_pure _

theorem Bracket.oblivious_narrowTimes (n : Nat) (br : Bracket F) : Oblivious (br.narrowTimes k n) := by
  induction n generalizing br with
  | zero => exact oblivious_pure _
  | succ n ih => exact (oblivious_narrow k br).bind ih

theorem oblivious_goldenSection (iterMax : Nat) (a : F) : Oblivious (goldenSection k iterMax a) := by
  unfold goldenSection
  refine (oblivious_probe k _).bind fun left => ?_
  split
  · exact oblivious_pure _
  · refine (oblivious_probe k _).bind fun right => ?_
    exact (Bracket.oblivious_narrowTimes k _ _).bind fun br => oblivious_pure _

theorem oblivious_backTrack (limit slope : F) (budget evals : Nat) (a : F) :
    Oblivious (backTrack k limit slope budget evals a) := by
  induction budget generalizing evals a with
  | zero => exact (oblivious_probe k a).bind fun _ => oblivious_pure _
  | succ budget ih =>
    refine (oblivious_probe k a).bind fun t => ?_
    split
    · exact oblivious_pure _
    · exact ih _ _

theorem oblivious_search (a limit slope : F) : Oblivious (search k a limit slope) := by
  unfold search
  split
  · exact oblivious_goldenSection k _ _
  · exact oblivious_backTrack k _ _ _ _ _
  · exact (oblivious_probe k _).bind fun _ => oblivious_pure _
  · exact (oblivious_probe k _).bind fun _ => oblivious_pure _

theorem oblivious_reject (r : Reference F) (a : F) (t : Probe F) : Oblivious (reject k r a t) := by
  unfold reject
  refine (oblivious_update _).bind fun _ => oblivious_getState.bind fun _ => (oblivious_log _ _).bind fun _ => (oblivious_visit _ _).bind fun _ => ?_
  refine oblivious_getState.bind fun s => ?_
  split
  · exact (oblivious_log _ _).bind fun _ => (oblivious_setStop _).bind fun _ => oblivious_pure _
  · exact oblivious_pure _

theorem oblivious_attempt (r : Reference F) : Oblivious (attempt k r) := by
  unfold attempt
  refine oblivious_getState.bind fun s => (oblivious_safeLength k _).bind fun a => ?_
  split
  · exact oblivious_getState.bind fun _ => (oblivious_log _ _).bind fun _ => (oblivious_setStop _).bind fun _ => oblivious_pure _
  · refine (oblivious_search k _ _ _).bind fun o => ?_
    obtain ⟨t, evals⟩ := o
    refine (oblivious_update _).bind fun _ => ?_
    dsimp only
    split
    · exact ((oblivious_update _).bind fun _ => oblivious_accept k _).bind fun _ => oblivious_pure _
    · exact oblivious_reject k r a t

theorem oblivious_attempts (r : Reference F) (fuel : Nat) : Oblivious (attempts k r fuel) := by
  induction fuel with
  | zero => exact oblivious_throw _
  | succ fuel ih =>
    refine (oblivious_attempt k r).bind fun again => ?_
    cases again with
    | false => exact oblivious_pure _
    | true => exact ih

theorem oblivious_step : Oblivious (step k) := by
  have hsearch : ∀ slope : F, Oblivious (do
      visit k .beforeLineSearch
      attempts k (reference (← getState) slope) (k.par.rejectedMax + patience)) :=
    fun slope => (oblivious_visit _ _).bind fun _ => oblivious_getState.bind fun s => oblivious_attempts k _ _
  unfold step
  refine (oblivious_visit _ _).bind fun _ => (oblivious_updateDirection k).bind fun o => ?_
  split
  · exact (oblivious_stepFailure _ _ _).bind fun _ => oblivious_pure _
  · refine oblivious_stopped.bind fun b => ?_
    split
    · exact oblivious_pure _
    · refine (oblivious_visit _ _).bind fun _ => (oblivious_descend).bind fun slope => oblivious_getState.bind fun s => ?_
      refine (oblivious_lift _).bind fun o => ?_
      split
      · exact (oblivious_update _).bind fun _ => hsearch slope
      · exact hsearch slope

end LineSearch

theorem UserStep.oblivious_step : Oblivious (UserStep.step k) := by
  have htry : ∀ u : State F, Oblivious (do
      update fun s => { s with normDx := Vec.norm s.dx }
      let t ← tryStep k u.dx 1
      if !Scalar.isFinite (t.barrier u.mu) then
        log .warn ["user-defined step left the strictly feasible region"]
        setStop .interiorPointInstability
      else accept k t) := by
    intro u
    refine (oblivious_update _).bind fun _ => (oblivious_tryStep _ _ _).bind fun t => ?_
    split
    · exact (oblivious_log _ _).bind fun _ => oblivious_setStop _
    · exact oblivious_accept k t
  unfold UserStep.step
  refine (oblivious_visit _ _).bind fun _ => (oblivious_update _).bind fun _ => (oblivious_visit _ _).bind fun _ => oblivious_getState.bind fun s => ?_
  split
  · exact (oblivious_log _ _).bind fun _ => (oblivious_fail _ _).bind fun _ => htry s
  · exact htry s

/-! ### Iterations -/

namespace Running

theorem oblivious_takeStep : Oblivious (takeStep k) := by
  unfold takeStep
  split
  · exact TrustRegion.oblivious_attempts k _
  · exact LineSearch.oblivious_step k
  · exact UserStep.oblivious_step k

theorem oblivious_updateMu : Oblivious (updateMu k) := by
  unfold updateMu
  refine oblivious_getState.bind fun s => ?_
  split
  · exact oblivious_pure _
  · split
    · refine (oblivious_update _).bind fun _ => (oblivious_log _ _).bind fun _ => (oblivious_updateGradient k true).bind fun o => ?_
      split
      · exact oblivious_stepFailure _ _ _
      · exact oblivious_pure _
    · exact oblivious_pure _

theorem oblivious_diagnose : Oblivious (diagnose k) := by
  unfold diagnose
  refine oblivious_getState.bind fun s => (oblivious_lift _).bind fun ok => ?_
  split
  · exact (oblivious_log _ _).bind fun _ => oblivious_setStop _
  · exact oblivious_pure _

theorem oblivious_assess : Oblivious (assess k) := by
  unfold assess
  refine (oblivious_updateMu k).bind fun _ => oblivious_getState.bind fun s => (oblivious_setStop _).bind fun _ => oblivious_stopped.bind fun b => ?_
  split
  · exact oblivious_pure _
  · refine oblivious_getState.bind fun s => ?_
    split
    · exact oblivious_diagnose k
    · exact oblivious_pure _

theorem oblivious_body : Oblivious (body k) := by
  have hsave : Oblivious (saveOld k) := by
    unfold saveOld
    refine (oblivious_update _).bind fun _ => ?_
    split
    · exact oblivious_getState.bind fun s => (oblivious_lift _).bind fun _ => oblivious_update _
    · exact oblivious_pure _
  unfold body
  exact (oblivious_visit _ _).bind fun _ => hsave.bind fun _ => (oblivious_visit _ _).bind fun _ => (oblivious_update _).bind fun _ =>
    oblivious_takeStep k

theorem oblivious_printRow : Oblivious (Table.printRow k) := by
  unfold Table.printRow
  split
  · exact oblivious_getState.bind fun _ => oblivious_event _
  · exact oblivious_pure _

theorem oblivious_printHeader : Oblivious (Table.printHeader k) := by
  unfold Table.printHeader
  split
  · exact oblivious_getState.bind fun _ => oblivious_event _
  · exact oblivious_pure _

theorem oblivious_tail : Oblivious (tail k) := by
  have hhistory : Oblivious (updateHistory k) := by
    unfold updateHistory
    exact oblivious_getState.bind fun s => (oblivious_lift _).bind fun _ => (oblivious_lift _).bind fun _ => oblivious_update _
  have hcount : Oblivious (countIteration k) := by
    unfold countIteration
    exact (oblivious_update _).bind fun _ => (oblivious_update _).bind fun _ => oblivious_getState.bind fun _ => (oblivious_log _ _).bind fun _ =>
      oblivious_printRow k
  unfold tail
  exact (oblivious_visit _ _).bind fun _ => hhistory.bind fun _ => (oblivious_visit _ _).bind fun _ => hcount.bind fun _ => oblivious_visit _ _

/-- An iteration past its first hook point. -/
theorem oblivious_iterationRest : Oblivious (do
    assess k
    if ← stopped then return false
    body k
    if ← stopped then return false
    tail k
    return true) := by
  refine (oblivious_assess k).bind fun _ => oblivious_stopped.bind fun b => ?_
  split
  · exact oblivious_pure _
  · refine (oblivious_body k).bind fun _ => oblivious_stopped.bind fun b => ?_
    split
    · exact oblivious_pure _
    · exact (oblivious_tail k).bind fun _ => oblivious_pure _

theorem oblivious_iteration : Oblivious (iteration k) :=
  (oblivious_visit _ _).bind fun _ => oblivious_iterationRest k

theorem oblivious_iterations (fuel : Nat) : Oblivious (iterations k fuel) := by
  induction fuel with
  | zero => exact oblivious_throw _
  | succ fuel ih =>
    refine (oblivious_iteration k).bind fun more => ?_
    cases more with
    | false => exact oblivious_pure _
    | true => exact ih

omit [Scalar F] in
theorem oblivious_finish : Oblivious (finish k) := by
  have hend : Oblivious (do
      visit k .endOfOptimization
      return (← getState).stop) := (oblivious_visit _ _).bind fun _ => oblivious_getState.bind fun _ => oblivious_pure _
  have hline : ∀ stop : Stop, Oblivious (do
      if 1 ≤ k.par.msgLevel then
        event (.note (.line ["Optimization stopped: ", .text (Registry.text stop)]))
      visit k .endOfOptimization
      return (← getState).stop) := by
    intro stop
    split
    · exact (oblivious_event _).bind fun _ => hend
    · exact hend
  unfold finish
  refine oblivious_getState.bind fun s => ?_
  dsimp only
  split <;> exact (oblivious_log _ _).bind fun _ => hline _

theorem oblivious_loop : Oblivious (loop k) := by
  unfold loop
  exact (oblivious_printHeader k).bind fun _ => (oblivious_printRow k).bind fun _ => (oblivious_visit _ _).bind fun _ => (oblivious_log _ _).bind fun _ =>
    (oblivious_iterations k _).bind fun _ => oblivious_finish k

theorem oblivious_optimize : Oblivious (optimize k) :=
  (oblivious_visit _ _).bind fun _ => oblivious_loop k

theorem oblivious_check : Oblivious (check k) := by
  have hsizes : Oblivious (do
      let s ← getState
      if !k.sizesFit s.y then
        let sizeOf (c : Option (Constraint F)) : Piece F := .size? (c.map Constraint.size)
        log .error ["Size mismatch: x ", k.n, ", g", sizeOf k.problem.equality, ", h",
          sizeOf k.problem.inequality, ", precond", .size? (k.problem.preconditioner.map Operator.size),
          ", y ", s.y.length]
        fail k ((Failure.plain StepError.invalidOperator.message).context "Invalid problem")) := by
    refine oblivious_getState.bind fun s => ?_
    split
    · exact (oblivious_log _ _).bind fun _ => oblivious_fail _ _
    · exact oblivious_pure _
  unfold check
  split
  · exact (oblivious_log _ _).bind fun _ => (oblivious_fail _ _).bind fun _ => hsizes
  · exact hsizes

theorem oblivious_initialDiagnostics : Oblivious (initialDiagnostics k) := by
  unfold initialDiagnostics
  split
  · exact oblivious_pure _
  · refine (oblivious_diagnose k).bind fun _ => oblivious_stopped.bind fun b => ?_
    split
    · exact oblivious_pure _
    · split
      · exact oblivious_setStop _
      · exact oblivious_pure _

theorem oblivious_initialEvaluation : Oblivious (initialEvaluation k) := by
  unfold initialEvaluation
  refine (oblivious_visit _ _).bind fun _ => oblivious_getState.bind fun _ => (oblivious_lift _).bind fun _ =>
    (oblivious_update _).bind fun _ => oblivious_getState.bind fun _ => ?_
  split
  · exact oblivious_pure _
  · exact (oblivious_log _ _).bind fun _ => (oblivious_setStop _).bind fun _ => oblivious_pure _

theorem oblivious_initialGradient : Oblivious (initialGradient k) := by
  unfold initialGradient
  refine oblivious_getState.bind fun s => ?_
  extract_lets updateY grade
  have hgrade : Oblivious (grade ()) := by
    refine (oblivious_updateGradient k updateY).bind fun o => ?_
    split
    · exact (oblivious_stepFailure _ _ _).bind fun _ => oblivious_pure _
    · exact (oblivious_update _).bind fun _ => oblivious_pure _
  split
  · exact (oblivious_update _).bind fun _ => hgrade
  · exact hgrade

theorem oblivious_opening : Oblivious (opening k) := by
  unfold opening
  refine (oblivious_log _ _).bind fun _ => (oblivious_visit _ _).bind fun _ => (oblivious_check k).bind fun _ =>
    (oblivious_update _).bind fun _ => (oblivious_initialDiagnostics k).bind fun _ => oblivious_stopped.bind fun b => ?_
  split
  · exact oblivious_pure _
  · refine (oblivious_initialEvaluation k).bind fun go => ?_
    split
    · exact oblivious_pure _
    · exact oblivious_initialGradient k

end Running
end ConstrainedOpt
