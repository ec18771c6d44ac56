import ConstrainedOpt.Solver
import ConstrainedOpt.Proofs.Run.Kept

/-! # Effects

What each part of a run outside the step drivers does to the state, when the manipulator writes nothing
there.
-/
namespace ConstrainedOpt
variable {F : Type} [Scalar F]

namespace State

/-- The state at an accepted point, before its gradient. -/
def moveTo (s : State F) (t : Trial F) : State F := { s with x := t.x, f := t.f, g := t.g, h := t.h }

/-- The state with new multipliers and a new gradient. -/
def graded (s : State F) (y grad : Vec F) : State F :=
  { s with y, grad, normGrad := Vec.norm grad, normG := Vec.norm s.g }

/-- The state with a record of its iterate. -/
def remember (s : State F) (gradOld : Vec F) : State F := { s with xOld := s.x, gradOld }

/-- The state with a stored pair. -/
def paired (s : State F) (change : Vec F) (size : Nat) : State F :=
  { s with gradChange := change, history := s.history.push s.dx change size }

/-- The state after one more iteration. -/
def counted (s : State F) : State F :=
  { s with iter := s.iter + 1, normDxTyp := if s.iter = 0 then s.normDx else s.normDxTyp }

/-- The state with a reduced barrier parameter, before its gradient. -/
def lowered (s : State F) (p : Parameters F) : State F := { s with mu := s.mu * p.muReduce }

/-- Apart from the multipliers, the gradient and the norms `t` is `s`. -/
def SameButGradient (s t : State F) : Prop :=
  t = { s with y := t.y, grad := t.grad, normGrad := t.normGrad, normG := t.normG }

end State

/-- At `s` the multipliers, refreshed on demand, and the gradient are `y` and `grad`. -/
def Setup.Graded (k : Setup F) (updateY : Bool) (s : State F) (y grad : Vec F) : Prop :=
  (Barrier.lagrangianGradient k.problem k.par.normalEq updateY s.x s.h s.y s.mu s.grad.length).answer =
    .ok (y, grad, .ok ()) ∧ Scalar.isFinite (Vec.norm grad) = true

/-- A stop that is met before the criteria are tested stays. -/
theorem Setup.criterion_of_stopped {k : Setup F} {s : State F} (h : s.stop ≠ .notConverged) :
    k.criterion s = s.stop := if_pos h

/-- The criteria let an iteration begin only below the bound on their number. -/
theorem Setup.iter_lt_of_criterion {k : Setup F} {s : State F} (h : k.criterion s = .notConverged) :
    s.iter < k.par.iterMax := by
  refine Nat.lt_of_not_le fun hmax => ?_
  unfold Setup.criterion at h
  split at h
  · contradiction
  · split at h
    · cases h
    · split at h
      · cases h
      · cases h

/-- No criterion is a failure. -/
theorem Setup.criterion_of_running {k : Setup F} {s : State F} (h : s.stop = .notConverged) :
    k.criterion s ≠ .globalizationFailure := by
  unfold Setup.criterion
  rw [if_neg (by simp [h])]
  split
  · nofun
  · split
    · nofun
    · split
      · nofun
      · nofun

namespace Running
variable {W : Watch F} {Q : Unit → State F → Prop} {E : Halt → State F → Prop} {k : Setup F} {s : State F}

/-! ### Gradients -/

theorem updateGradient_spec (updateY : Bool) :
    wp W (updateGradient k updateY)
      (fun o t => match o with
        | .ok () => ∃ y grad, k.Graded updateY s y grad ∧ t = s.graded y grad
        | .error _ => State.SameButGradient s t)
      (fun _ t => t = s) s := by
  unfold updateGradient
  refine wp_bind (wp_getState (wp_bind (wp_lift (fun q hq => ?_) fun _ _ => rfl)))
  obtain ⟨y, grad, outcome⟩ := q
  refine wp_bind (wp_update ?_)
  cases outcome with
  | error e => exact wp_pure rfl
  | ok =>
    refine wp_bind (wp_update (wp_pure ?_))
    by_cases h : Scalar.isFinite (Vec.norm grad) = true
    · rw [if_pos h]
      exact ⟨y, grad, ⟨hq, h⟩, rfl⟩
    · rw [if_neg h]
      rfl

/-- What accepting a point, or reducing the barrier parameter, may leave of the state `s` in which the
gradient was due. -/
inductive Regraded (k : Setup F) (s : State F) : State F → Prop
  | sound {y grad} : k.Graded true s y grad → Regraded k s (s.graded y grad)
  | failed {t} : s.SameButGradient t → Regraded k s { t with stop := .globalizationFailure }

/-- A run that goes on has found its gradient sound. -/
theorem Regraded.sound_of_running {t : State F} (ht : Regraded k s t) (hrunning : t.stop = .notConverged) :
    ∃ y grad, k.Graded true s y grad ∧ t = s.graded y grad := by
  cases ht with
  | sound hg => exact ⟨_, _, hg, rfl⟩
  | failed => cases hrunning

theorem accept_wp (hk : k.hooks.StepOnly) (t : Trial F)
    (hbefore : W.visit .afterStepBeforeGradient (s.moveTo t))
    (hafter : ∀ y grad, k.Graded true (s.moveTo t) y grad → W.visit .afterGradient ((s.moveTo t).graded y grad))
    (hQ : ∀ u, Regraded k (s.moveTo t) u → Q () u)
    (hE : ∀ e u, (s.moveTo t).SameButGradient u → E e u) : wp W (accept k t) Q E s := by
  unfold accept
  refine wp_bind (wp_update (wp_bind (wp_quiet hk nofun hbefore ?_)))
  refine wp_bind (wp_mono (updateGradient_spec true) ?_ fun e u hu => hE e u (hu ▸ rfl))
  intro o u hu
  split
  · exact wp_stepFailure (hQ _ (.failed hu)) fun f => hE _ u hu
  · obtain ⟨y, grad, hg, rfl⟩ := hu
    exact wp_quiet hk nofun (hafter y grad hg) (hQ _ (.sound hg))

/-! ### The barrier parameter -/

/-- The barrier parameter is due to be reduced. -/
def LowerDue (k : Setup F) (s : State F) : Prop :=
  k.inequalities ≠ 0 ∧ ¬ s.mu ≤ k.par.epsMu ∧ s.normGrad ≤ k.par.epsMuGrad * s.mu

/-- The states a barrier update may leave. -/
def Lowered (k : Setup F) (s t : State F) : Prop := t = s ∨ LowerDue k s ∧ Regraded k (s.lowered k.par) t

theorem updateMu_spec :
    wp W (updateMu k) (fun _ t => Lowered k s t) (fun _ t => (s.lowered k.par).SameButGradient t) s := by
  unfold updateMu
  refine wp_bind (wp_getState ?_)
  split
  · exact wp_pure (.inl rfl)
  case isFalse h =>
    split
    · rename_i hsmall
      have hdue : LowerDue k s := ⟨fun h0 => h (.inl h0), fun h0 => h (.inr h0), hsmall⟩
      refine wp_bind (wp_update (wp_bind (wp_log (wp_bind (wp_mono (updateGradient_spec true) ?_ ?_)))))
      · intro o u hu
        split
        · exact wp_stepFailure (.inr ⟨hdue, .failed hu⟩) fun f => hu
        case h_2 hne =>
          rcases o with e | ⟨⟨⟩⟩
          · exact absurd rfl (hne e)
          · obtain ⟨y, grad, hg, rfl⟩ := hu
            exact wp_pure (.inr ⟨hdue, .sound hg⟩)
      · intro e u hu
        exact hu ▸ rfl
    · exact wp_pure (.inl rfl)

theorem diagnose_spec :
    wp W (diagnose k) (fun _ t => t = s ∨ t = { s with stop := .globalizationFailure }) (fun _ t => t = s) s := by
  unfold diagnose
  refine wp_bind (wp_getState (wp_bind (wp_lift (fun ok _ => ?_) fun _ _ => rfl)))
  split
  · exact wp_bind (wp_log (wp_setStop (.inr rfl)))
  · exact wp_pure (.inl rfl)

/-- The state after the test of the stopping criteria: a stop, or the start of a step. -/
inductive Assessed (k : Setup F) (s : State F) : State F → Prop
  | stop {t} : Lowered k s t → k.criterion t ≠ .notConverged → Assessed k s { t with stop := k.criterion t }
  | unsound {t} : Lowered k s t → Assessed k s { t with stop := .globalizationFailure }
  | go {t} : Lowered k s t → k.criterion t = .notConverged → Assessed k s { t with stop := .notConverged }

/-- A state that is gone on from has at most had its barrier parameter reduced. -/
theorem Assessed.lowered {t : State F} (ht : Assessed k s t) (hrunning : t.stop = .notConverged) : Lowered k s t := by
  cases ht with
  | stop _ hc => exact absurd hrunning hc
  | unsound => cases hrunning
  | @go u hl hc =>
    have hstop : u.stop = .notConverged := Decidable.byContradiction fun hne =>
      hne ((Setup.criterion_of_stopped hne).symm.trans hc)
    have heq : { u with stop := .notConverged } = u := by rw [← hstop]
    exact heq ▸ hl

theorem assess_spec :
    wp W (assess k) (fun _ t => Assessed k s t)
      (fun _ t => (s.lowered k.par).SameButGradient t ∨ ∃ u stop, Lowered k s u ∧ t = { u with stop }) s := by
  unfold assess
  refine wp_bind (wp_mono updateMu_spec ?_ fun e t h => .inl h)
  intro _ t ht
  refine wp_bind (wp_getState (wp_bind (wp_setStop (wp_bind (wp_stopped ?_)))))
  by_cases hc : k.criterion t = .notConverged
  · rw [hc, if_neg (by simp)]
    refine wp_bind (wp_getState ?_)
    split
    · refine wp_mono diagnose_spec ?_ fun _ u h => .inr ⟨t, _, ht, h⟩
      rintro _ u (rfl | rfl)
      · exact .go ht hc
      · exact .unsound (t := t) ht
    · exact wp_pure (.go ht hc)
  · rw [if_pos (by simpa using hc)]
    exact wp_pure (.stop ht hc)

/-! ### The iteration around a step -/

/-- `w` is the gradient `v` of the Lagrangian without the part of the multipliers `y` at `x`. -/
def WithoutMultipliers (k : Setup F) (x y v w : Vec F) : Prop :=
  match k.problem.equality with
  | none => w = v
  | some c => ((c.jacobian x).applyTransposed (-1) y 1 v).answer = .ok w

theorem WithoutMultipliers.of_none {x y v w : Vec F} (hp : k.problem.equality = none)
    (h : WithoutMultipliers k x y v w) : w = v := by
  unfold WithoutMultipliers at h
  rwa [hp] at h

/-- The change of the gradient that is stored, both gradients taken with the new multipliers. -/
def Changed (k : Setup F) (s : State F) (v : Vec F) : Prop :=
  ∃ u, Checked.add (-1) s.gradOld s.grad = .ok u ∧ WithoutMultipliers k s.xOld s.y u v

theorem Changed.of_none {v : Vec F} (hp : k.problem.equality = none) (h : Changed k s v) :
    Checked.add (-1) s.gradOld s.grad = .ok v := by
  obtain ⟨u, hu, hv⟩ := h
  rw [WithoutMultipliers.of_none hp hv, hu]

theorem saveOld_spec :
    wp W (saveOld k) (fun _ t => ∃ v, t = s.remember v ∧ WithoutMultipliers k s.x s.y s.grad v)
      (fun _ t => ∃ v, t = s.remember v) s := by
  unfold saveOld WithoutMultipliers
  refine wp_bind (wp_update ?_)
  split
  case h_1 c hc =>
    refine wp_bind (wp_getState (wp_bind (wp_lift (fun v hv => ?_) fun _ _ => ⟨s.grad, rfl⟩)))
    exact wp_update ⟨v, rfl, by rwa [hc]⟩
  case h_2 hnone =>
    refine wp_pure ⟨s.grad, rfl, ?_⟩
    split
    · rfl
    case h_2 c hc => exact absurd hc (hnone c)

theorem updateHistory_spec :
    wp W (updateHistory k) (fun _ t => ∃ v, t = s.paired v k.par.storedHistory ∧ Changed k s v)
      (fun _ t => t = s) s := by
  unfold updateHistory
  refine wp_bind (wp_getState (wp_bind (wp_lift (fun v hv => ?_) fun _ _ => rfl)))
  have hv := Checked.lift_answer hv
  cases hp : k.problem.equality with
  | none =>
    refine wp_bind (wp_lift (fun w hw => ?_) fun _ _ => rfl)
    cases hw
    exact wp_update ⟨v, rfl, v, hv, by simp [WithoutMultipliers, hp]⟩
  | some c =>
    refine wp_bind (wp_lift (fun w hw => ?_) fun _ _ => rfl)
    exact wp_update ⟨w, rfl, v, hv, by simpa [WithoutMultipliers, hp] using hw⟩

theorem printRow_wp (h : Q () s) : wp W (Table.printRow k) Q E s := by
  unfold Table.printRow
  split
  · exact wp_bind (wp_getState (wp_event trivial h))
  · exact wp_pure h

theorem printHeader_wp (h : Q () s) : wp W (Table.printHeader k) Q E s := by
  unfold Table.printHeader
  split
  · exact wp_bind (wp_getState (wp_event trivial h))
  · exact wp_pure h

theorem countIteration_wp (h : Q () s.counted) : wp W (countIteration k) Q E s := by
  unfold countIteration
  refine wp_bind (wp_update (wp_bind (wp_update_of (P := fun t => t = s.counted) ?_ fun t ht => ?_)))
  · unfold State.counted
    by_cases hi : s.iter = 0 <;> simp [hi]
  · exact wp_bind (wp_getState (wp_bind (wp_log (printRow_wp (ht ▸ h)))))

/-- A run has stopped for a reason that certifies nothing. -/
def Abandoned (s : State F) : Prop :=
  s.stop = .globalizationFailure ∨ s.stop = .interiorPointInstability ∨ s.stop = .userDefined

end Running
end ConstrainedOpt
