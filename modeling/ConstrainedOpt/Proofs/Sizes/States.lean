import ConstrainedOpt.Run.TrustRegion
import ConstrainedOpt.Proofs.Assertion.Running
import ConstrainedOpt.Proofs.Sizes.Solvers

/-! # States that fit their problem

Where the functions of a problem fill their sizes and the vectors of a state have theirs, everything that is computed
from the state is answered: the functions at trial points, gradients and multipliers, and the solves of a step.
-/
namespace ConstrainedOpt
open Journaled Checked
variable {F : Type} [Scalar F] {n : Nat} {p : Problem F} {x h y : Vec F}

namespace Problem

omit [Scalar F] in
theorem Fills.rows_equality (hp : p.Fills n) {c : Constraint F} (hc : p.equality = some c) :
    c.Fills c.rows n := by
  have hfills := hp.equality c hc
  rwa [hfills.rows]

omit [Scalar F] in
theorem Fills.rows_inequality (hp : p.Fills n) {c : Constraint F} (hc : p.inequality = some c) :
    c.Fills c.rows n := by
  have hfills := hp.inequality c hc
  rwa [hfills.rows]

omit [Scalar F] in
/-- The values of the functions have their sizes. -/
theorem Fills.evaluate (hp : p.Fills n) (hx : x.length = n) :
    (p.evaluate x).Answers fun t => t.x = x ∧ t.g.length = p.equalities ∧ t.h.length = p.inequalities := by
  unfold Problem.evaluate
  refine answers_bind (P := fun g => g.length = p.equalities) ?_ fun g hg => ?_
  · unfold Problem.equalities
    split
    case h_1 hc =>
      rw [hc]
      exact ⟨[], rfl, rfl⟩
    case h_2 c hc =>
      rw [hc]
      exact (hp.rows_equality hc).value x hx
  refine answers_bind (P := fun h => h.length = p.inequalities) ?_ fun h hh => ?_
  · unfold Problem.inequalities
    split
    case h_1 hc =>
      rw [hc]
      exact ⟨[], rfl, rfl⟩
    case h_2 c hc =>
      rw [hc]
      exact (hp.rows_inequality hc).value x hx
  exact answers_bind (hp.objective.value x hx) fun f _ => ⟨_, rfl, rfl, hg, hh⟩

theorem Fills.trial (hp : p.Fills n) (hx : x.length = n) {dx : Vec F} (hdx : dx.length = n) (α : F) :
    (p.trial x dx α).Answers fun t =>
      t.x.length = n ∧ t.g.length = p.equalities ∧ t.h.length = p.inequalities := by
  refine answers_bind (answers_add α hdx hx) fun z hz => (hp.evaluate hz).mono fun t ht => ?_
  exact ⟨ht.1 ▸ hz, ht.2⟩

end Problem

namespace Barrier

theorem merit_answers {f : F} {g : Vec F} (hy : y.length = g.length) (μ ρ : F) :
    (merit f g h y μ ρ).Answers fun _ => True := by
  unfold merit
  dsimp only
  split
  · exact ⟨_, rfl, trivial⟩
  · exact answers_bind (answers_inner hy rfl) fun _ _ => ⟨_, rfl, trivial⟩

theorem gradient_sized (hp : p.Fills n) (hx : x.length = n) (hh : h.length = p.inequalities) (μ : F) :
    (gradient p x h μ n).Yields fun v => v.length = n := by
  unfold gradient
  refine yields_bind (yields_lift (hp.objective.gradient x hx)) fun out hout => ?_
  split
  · exact yields_pure hout
  case h_2 c hc =>
    have hones : (Vec.ones h.length : Vec F).length = p.inequalities := by rw [Vec.length_ones, hh]
    refine yields_bind (yields_lift (answers_quotient hh hones)) fun w hw => ?_
    exact ((hp.inequality c hc).jacobian hx).applyTransposed _ _ _ _ hw hout

theorem multipliers_sized (hp : p.Fills n) (par : NormalParam F) (hx : x.length = n) {φ : Vec F} (hφ : φ.length = n)
    (hy : y.length = p.equalities) :
    (multipliers p par x φ y).Yields fun r => r.1.length = p.equalities ∧ OnlyUnstable r.2 := by
  cases hc : p.equality with
  | none =>
    unfold multipliers
    rw [hc]
    exact yields_pure ⟨hy, nofun⟩
  | some c => exact multipliers_fills hc ((hp.equality c hc).jacobian hx) par hφ hy

theorem lagrangianGradient_sized (hp : p.Fills n) (par : NormalParam F) (updateY : Bool) (hx : x.length = n)
    (hh : h.length = p.inequalities) (hy : y.length = p.equalities) (μ : F) :
    (lagrangianGradient p par updateY x h y μ n).Yields fun r =>
      r.1.length = p.equalities ∧ r.2.1.length = n ∧ OnlyUnstable r.2.2 := by
  unfold lagrangianGradient
  refine yields_bind (gradient_sized hp hx hh μ) fun φ hφ => ?_
  split
  · exact yields_pure ⟨hy, hφ, nofun⟩
  case h_2 c hc =>
    refine yields_bind (P := fun r => r.1.length = p.equalities ∧ OnlyUnstable r.2) ?_ ?_
    · split
      · exact multipliers_sized hp par hx hφ hy
      · exact yields_pure ⟨hy, nofun⟩
    · rintro ⟨y, outcome⟩ ⟨hy, houtcome⟩
      cases outcome with
      | error e => exact yields_pure ⟨hy, hφ, houtcome⟩
      | ok =>
        refine yields_bind (((hp.equality c hc).jacobian hx).applyTransposed _ _ _ _ hy hφ) fun grad hgrad => ?_
        exact yields_pure ⟨hy, hgrad, nofun⟩

end Barrier

/-! ### The solves of a step -/

variable {k : Setup F} {s : State F}

omit [Scalar F] in
/-- The vectors a step starts from have their sizes. -/
structure Setup.Sized (k : Setup F) (s : State F) : Prop where
  x : s.x.length = k.n
  y : s.y.length = k.equalities
  g : s.g.length = k.equalities
  h : s.h.length = k.inequalities
  grad : s.grad.length = k.n
  dxNormal : s.dxNormal.length = k.n
  dxCauchy : s.dxCauchy.length = k.n
  dxTangential : s.dxTangential.length = k.n
  history : s.history.Sized k.n

namespace Setup.Sized
variable (hp : k.problem.Fills k.n) (hs : k.Sized s)
include hp hs

theorem hessian_fills : (k.hessian s).Fills k.n k.n := by
  unfold Setup.hessian
  split
  · exact Barrier.hessian_fills hp hs.x hs.y hs.h s.mu
  · exact QuasiNewton.operator_fills _ _ hs.history

theorem preconditioner_fills : (k.preconditioner s).Fills k.n k.n := by
  unfold Setup.preconditioner
  split
  case h_1 b _ hb => exact hp.preconditioner b hb
  case h_2 => exact QuasiNewton.operator_fills _ _ hs.history

theorem safeguard_fills (κ : F) : (k.safeguard s κ).Yields fun r => ∃ sg, r = .ok sg ∧ sg.Fills k.n := by
  unfold Setup.safeguard
  split
  · exact yields_pure ⟨_, rfl, Safeguard.unlimited_fills _⟩
  case h_2 c hc =>
    exact Safeguard.linear_fills ((hp.inequality c hc).jacobian hs.x) hs.h κ (Nat.le_refl _)

theorem projector_fills : (TrustRegion.projector k s).Fills k.n k.n := by
  unfold TrustRegion.projector
  split
  · exact Operator.identity_fills k.n
  case h_2 c hc => exact Barrier.nullProjector_fills ((hp.equality c hc).jacobian hs.x) k.par.normalEq

theorem quasinormal_sized {c : Constraint F} (hc : k.problem.equality = some c) {sg : Safeguard F}
    (hsg : sg.Fills k.n) : (Quasinormal.solve k.par.quasinormal (c.jacobian s.x) s.g s.delta sg s.dxNormal s.dxCauchy
      (Quasinormal.workLength k.equalities k.n)).Yields fun r => r.Sized k.n :=
  Quasinormal.solve_sized ((hp.equality c hc).jacobian hs.x) hs.g hsg s.delta hs.dxNormal hs.dxCauchy (Nat.le_refl _)

theorem tangentialSolve_sized :
    (TrustRegion.tangentialSolve k s).Yields fun out => ∃ r, out = .ok r ∧ r.step.length = k.n := by
  unfold TrustRegion.tangentialSolve
  refine yields_bind ((hs.hessian_fills hp).apply _ _ _ _ hs.dxNormal hs.grad) fun g hg => ?_
  refine yields_bind (hs.safeguard_fills hp k.par.gamma) ?_
  rintro _ ⟨sg, rfl, hsg⟩
  refine TruncatedCG.solve_sized (k := ⟨_, _, _, _, g, _, sg⟩) ?_ hs.dxNormal hs.dxTangential (Nat.le_refl _)
  exact ⟨hs.hessian_fills hp, hs.preconditioner_fills hp, hs.projector_fills hp, hg, hsg⟩

theorem modelAndViolation_answers (hdx : s.dx.length = k.n) :
    (TrustRegion.modelAndViolation k s).Yields fun _ => True := by
  unfold TrustRegion.modelAndViolation
  refine yields_bind ((hs.hessian_fills hp).apply _ _ _ _ hdx (Vec.length_zeros _)) fun hdx' hlen => ?_
  refine yields_bind (yields_lift (answers_inner hs.grad hdx)) fun sloped _ => ?_
  refine yields_bind (yields_lift (answers_inner hdx hlen)) fun curved _ => ?_
  dsimp only
  split
  · exact yields_pure trivial
  case h_2 c hc =>
    exact yields_bind (((hp.equality c hc).jacobian hs.x).apply _ _ _ _ hdx hs.g) fun _ _ => yields_pure trivial

end Setup.Sized

namespace Running
variable {α : Type} {W : Watch F} {E : Halt → State F → Prop}

omit [Scalar F] in
/-- A part of a run that answers for certain. -/
theorem wp_yields {c : Journaled F α} {P : α → Prop} {Q : α → State F → Prop} (hc : c.Yields P)
    (h : ∀ a, c.answer = .ok a → P a → Q a s) : wp W (liftM c) Q E s := by
  obtain ⟨a, ha, hP⟩ := hc.answer
  refine wp_lift (fun b hb => ?_) fun q hq => ?_
  · cases ha.symm.trans hb
    exact h a ha hP
  · cases ha.symm.trans hq

omit [Scalar F] in
theorem wp_ok {c : Checked α} {a : α} {Q : α → State F → Prop} (hc : c = .ok a) (h : Q a s) :
    wp W (liftM (liftM c : Journaled F α)) Q E s :=
  wp_yields (P := fun b => b = a) (yields_lift ⟨a, hc, rfl⟩) fun _ _ hb => hb ▸ h

theorem wp_tryStep_of_ok {dx : Vec F} {a : F} {t : Trial F} {Q : Trial F → State F → Prop}
    (ht : k.problem.trial s.x dx a = .ok t) (hW : W.trial s t) (h : Q t s) : wp W (tryStep k dx a) Q E s := by
  unfold tryStep
  exact wp_bind (wp_getState (wp_bind (wp_ok ht (wp_bind (wp_event hW (wp_pure h))))))

end Running
end ConstrainedOpt
