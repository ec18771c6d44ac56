import ConstrainedOpt.Proofs.Quadratic.Steps

/-! # Trust-region attempts on quadratic programs

The model of a quadratic program is exact, so the merit falls along a composite step by just what was predicted. An
attempt ends with an accepted step: no penalty, radius or multiplier can spoil it.
-/
namespace ConstrainedOpt
open Exact Journaled Running TruncatedCG
variable {ε : Set.Ioi (0 : ℝ)} {n m : ℕ} {Q : QuadraticProgram n m} {k : Setup (Exact ε)} {s t : State (Exact ε)}
  {x d : Euclidean n} {y : Euclidean m} {W : Watch (Exact ε)} {E : Halt → State (Exact ε) → Prop}

namespace QuadraticProgram

/-- What the functions of the program answer at a point. -/
noncomputable def sample (Q : QuadraticProgram n m) (x : Euclidean n) : Trial (Exact ε) :=
  ⟨vec x, real (Q.value x), vec (Q.constraint x), []⟩

/-- How much the merit falls along the step `d`. -/
noncomputable def fall (Q : QuadraticProgram n m) (x : Euclidean n) (y : Euclidean m) (d : Euclidean n) (ρ : ℝ) : ℝ :=
  Q.merit x y ρ - Q.merit (x + d) y ρ

end QuadraticProgram

/-- The step `d` from `x` is ready to be judged. It does not raise the linearised violation, and where it does not
lower it either it does not raise the model. -/
structure Setup.Ready (k : Setup (Exact ε)) (Q : QuadraticProgram n m) (x : Euclidean n) (y : Euclidean m)
    (d : Euclidean n) (s : State (Exact ε)) : Prop extends k.At Q x y s where
  room : s.Roomy n
  bounds : Bounds s.delta s.rho
  dx : s.dx = vec d
  violation : 0 ≤ violationReduction Q.A (Q.constraint x) d
  model : violationReduction Q.A (Q.constraint x) d ≤ 0 → quadratic Q.P (Q.gradient x y) d ≤ 0

/-- The step from `s` to `t` delivers what it promised: with the multipliers of `s` and the penalty of `t` the merit
falls by the predicted reduction, which is not negative, and the ratio of the two is one. -/
structure TrustRegion.Delivers (k : Setup (Exact ε)) (s t : State (Exact ε)) : Prop where
  moved : Checked.add 1 t.dx s.x = .ok t.x
  values : k.problem.evaluate t.x = .ok ⟨t.x, t.f, t.g, t.h⟩
  reductions : ∃ here there π, Barrier.merit s.f s.g s.h s.y s.mu t.rho = .ok here ∧
    Barrier.merit t.f t.g t.h s.y s.mu t.rho = .ok there ∧ t.ared = here - there ∧ t.ared = real π ∧
    t.pred = real π ∧ 0 ≤ π ∧ reductionRatio here t.ared t.pred = 1

/-- At `u` the step `d` from the state `s` was judged, and the merit falls by what was predicted. -/
structure Setup.Judged (k : Setup (Exact ε)) (Q : QuadraticProgram n m) (x : Euclidean n) (y : Euclidean m)
    (d : Euclidean n) (s u : State (Exact ε)) : Prop where
  kept : u.kept = s.kept
  room : u.Roomy n
  running : u.stop = .notConverged
  dx : u.dx = vec d
  delta : ∃ δ, u.delta = real δ ∧ 0 < δ
  reductions : ∃ ρ, u.rho = real ρ ∧ 0 < ρ ∧ u.ared = real (Q.fall x y d ρ) ∧ u.pred = real (Q.fall x y d ρ) ∧
    0 ≤ Q.fall x y d ρ
  rejected : u.rejected = s.rejected
  rejectedTotal : u.rejectedTotal = s.rejectedTotal

/-- The step from `s` ended at `t`, at some point of the program. -/
structure Setup.Arrived (k : Setup (Exact ε)) (Q : QuadraticProgram n m) (s t : State (Exact ε)) : Prop where
  point : ∃ x y, k.At Q x y t
  room : t.Roomy n
  bounds : Bounds t.delta t.rho
  running : t.stop = .notConverged
  dx : ∃ d : Euclidean n, t.dx = vec d
  delivers : TrustRegion.Delivers k s t
  xOld : t.xOld = s.xOld
  gradOld : t.gradOld = s.gradOld
  iter : t.iter = s.iter
  rejected : t.rejected = s.rejected
  rejectedTotal : t.rejectedTotal = s.rejectedTotal

/-- The watch lets pass what an attempt from `s` shows, once it started, when its step is accepted. -/
structure Watch.Admits (W : Watch (Exact ε)) (k : Setup (Exact ε)) (s : State (Exact ε)) : Prop where
  step : ∀ t, W.visit .getStep t
  judged : ∀ t, W.visit .beforeActualVersusPredicted t
  accepted : ∀ t, TrustRegion.Delivers k s t → W.visit .afterStepBeforeGradient t
  graded : ∀ t, W.visit .afterGradient t
  trial : ∀ t v, W.trial t v

/-- Nothing of the state a step starts from matters that its composite step changes. -/
theorem TrustRegion.Delivers.of_kept {u : State (Exact ε)} (ht : TrustRegion.Delivers k u t) (hu : u.kept = s.kept) :
    TrustRegion.Delivers k s t := by
  have hx : u.x = s.x := congrArg Kept.x hu
  have hf : u.f = s.f := congrArg Kept.f hu
  have hg : u.g = s.g := congrArg Kept.g hu
  have hh : u.h = s.h := congrArg Kept.h hu
  have hy : u.y = s.y := congrArg Kept.y hu
  have hmu : u.mu = s.mu := congrArg Kept.mu hu
  obtain ⟨hmoved, hvalues, hreductions⟩ := ht
  rw [hx] at hmoved
  rw [hf, hg, hh, hy, hmu] at hreductions
  exact ⟨hmoved, hvalues, hreductions⟩

theorem Setup.Arrived.of_kept {u : State (Exact ε)} (ht : k.Arrived Q u t) (hu : u.kept = s.kept)
    (hrejected : u.rejected = s.rejected) (htotal : u.rejectedTotal = s.rejectedTotal) : k.Arrived Q s t where
  point := ht.point
  room := ht.room
  bounds := ht.bounds
  running := ht.running
  dx := ht.dx
  delivers := ht.delivers.of_kept hu
  xOld := ht.xOld.trans (congrArg Kept.xOld hu)
  gradOld := ht.gradOld.trans (congrArg Kept.gradOld hu)
  iter := ht.iter.trans (congrArg Kept.iter hu)
  rejected := ht.rejected.trans hrejected
  rejectedTotal := ht.rejectedTotal.trans htotal

theorem Setup.At.merit (hs : k.At Q x y s) (ρ : ℝ) :
    Barrier.merit s.f s.g s.h s.y s.mu (real ρ) = .ok (real (Q.merit x y ρ)) := by
  rw [hs.objective, hs.values, hs.slack, hs.multipliers]
  exact Barrier.merit_vec _ _ _ _ _

theorem QuadraticProgram.merit_sample (hs : s.y = vec y) (x : Euclidean n) (ρ : ℝ) :
    Barrier.merit (Q.sample x).f (Q.sample x).g (Q.sample x).h s.y s.mu (real ρ) = .ok (real (Q.merit x y ρ)) := by
  rw [hs]
  exact Barrier.merit_vec _ _ _ _ _

/-- Equal reductions have the ratio one, if they are not negative. -/
theorem TrustRegion.reductionRatio_self (m : ℝ) {π : ℝ} (hπ : 0 ≤ π) :
    reductionRatio (real m : Exact ε) (real π) (real π) = 1 := by
  have hpos : 0 < π + allowance ε m := add_pos_of_nonneg_of_pos hπ (allowance_pos ε m)
  unfold reductionRatio
  rw [allowance_real]
  dsimp only
  rw [real_add, zero_eq, if_pos (real_lt.mpr hpos), real_div hpos.ne', div_self hpos.ne']
  rfl

namespace Setup.Programmed
variable (hk : k.Programmed Q)
include hk

/-! ### The prediction -/

/-- A composite step is ready to be judged. -/
theorem ready (hs : k.At Q x y s) (hR : Bounds s.delta s.rho) {stop : TruncatedStop}
    (ht : TrustRegion.CompositeStep k s stop t) (hroom : t.Roomy n) : ∃ d, k.Ready Q x y d t := by
  have hkept : t.kept = s.kept := by
    obtain ⟨step, cauchy, normal, r, dx, -, -, -, -, -, -, rfl⟩ := ht
    rfl
  obtain ⟨γ, ζ, hpar⟩ := Setup.exists_fractions hk.valid
  obtain ⟨⟨δ, hδ, hδ0⟩, hρ⟩ := hR
  obtain ⟨⟨normal, hnormal⟩, hdelta, hrho⟩ := ht.normalStep
  obtain ⟨d, e, hcomp⟩ := TrustRegion.CompositeStep.composed (hk.realAt hs) hpar hδ hδ0 (V := LinearMap.ker Q.A)
    (fun u hu => hk.projector_into (hu.trans hs.point)) ht
  rw [hcomp.normal] at hnormal
  have hd : d = 0 ∨ ‖Q.constraint x + Q.A d‖ < ‖Q.constraint x‖ := by
    cases hc : k.problem.equality with
    | none =>
      unfold Setup.NormalStep at hnormal
      rw [hc] at hnormal
      have hzero := hnormal.1
      have hlen := congrArg List.length hzero
      rw [length_vec, Vec.length_zerosLike] at hlen
      rw [Vec.zerosLike, ← hlen, zeros_eq] at hzero
      exact .inl (vec_inj.mp hzero)
    | some c =>
      have hA := hk.poses.jacobian_acts hc x
      rw [← hs.point] at hA
      exact TrustRegion.normalStep_reduces (hk.realAt hs) hpar hδ hδ0 hc hA hs.values hnormal
  have hlinear : Q.A (d + e) = Q.A d := TrustRegion.linear_add_kernel hcomp.mem
  have hv : violationReduction Q.A (Q.constraint x) (d + e) = violationReduction Q.A (Q.constraint x) d := by
    unfold violationReduction
    rw [hlinear]
  have hat : k.At Q x y t := hs.of_kept hkept
  refine ⟨d + e, hat, hroom, ⟨⟨δ, hdelta.trans hδ, hδ0⟩, hrho ▸ hρ⟩, hcomp.dx, ?_, fun hle => ?_⟩
  · rw [hv]
    exact TrustRegion.violationReduction_nonneg hd
  · obtain rfl : d = 0 := TrustRegion.eq_zero_of_violationReduction hd (hv ▸ hle)
    obtain ⟨r, -, -, hvalue⟩ := hcomp.answer
    have hnonpos := (hvalue _ _ (hk.modelAt hat)).2
    rwa [map_zero, add_zero, ← zero_add e] at hnonpos

/-- The model and the reduction of the violation are those of the program. -/
theorem modelAndViolation_yields (hs : k.At Q x y s) (hroom : s.Roomy n) (hd : s.dx = vec d) :
    (TrustRegion.modelAndViolation k s).Yields fun r =>
      r = (real (quadratic Q.P (Q.gradient x y) d), real (violationReduction Q.A (Q.constraint x) d)) := by
  have hlen : s.dx.length = k.n := by rw [hd, length_vec, hk.dim]
  have hensures : (TrustRegion.modelAndViolation k s).Ensures fun r =>
      r = (real (quadratic Q.P (Q.gradient x y) d), real (violationReduction Q.A (Q.constraint x) d)) := by
    cases hc : k.problem.equality with
    | some c =>
      have hA := hk.poses.jacobian_acts hc x
      rw [← hs.point] at hA
      exact TrustRegion.modelAndViolation_ensures hk.dim hc hA (hk.hessian_acts hs) hs.values hs.grad hd
    | none =>
      have := hk.poses.multipliers_subsingleton hc
      have hv : violationReduction Q.A (Q.constraint x) d = 0 := by
        unfold violationReduction
        rw [Subsingleton.elim (Q.constraint x + Q.A d) (Q.constraint x), sub_self]
      unfold TrustRegion.modelAndViolation
      rw [hd, hs.grad, hk.dim, zeros_eq, hc, hv]
      refine ensures_bind ((hk.hessian_acts hs).apply 1 0 d 0) ?_
      rintro _ rfl
      rw [one_smul, smul_zero, add_zero]
      refine ensures_bind (ensures_lift fun _ => checked_inner_eq_ok) ?_
      rintro _ rfl
      refine ensures_bind (ensures_lift fun _ => checked_inner_eq_ok) ?_
      rintro _ rfl
      refine ensures_pure ?_
      rw [half_eq, real_mul, real_add]
      rfl
  exact (((hk.sized hs hroom).modelAndViolation_answers hk.fills hlen).and hensures).mono fun _ h => h.2

/-- The prediction is the true fall of the merit for the penalty it leaves, and not negative. -/
theorem predictedReduction_wp (hs : k.Ready Q x y d s) :
    wp W (TrustRegion.predictedReduction k)
      (fun pred t => ∃ ρ, 0 < ρ ∧ 0 ≤ Q.fall x y d ρ ∧ pred = real (Q.fall x y d ρ) ∧
        t = { s with rho := real ρ }) E s := by
  obtain ⟨-, ρ, hρ, hρ0⟩ := hs.bounds
  have hyields := hk.modelAndViolation_yields hs.toAt hs.room hs.dx
  have hviolation := hs.violation
  have hmodel := hs.model
  have hsub : ∀ ρ', -quadratic Q.P (Q.gradient x y) d + ρ' * violationReduction Q.A (Q.constraint x) d =
      Q.fall x y d ρ' := fun ρ' => (Q.merit_sub x d y ρ').symm
  generalize quadratic Q.P (Q.gradient x y) d = q at hyields hmodel hsub
  generalize violationReduction Q.A (Q.constraint x) d = v at hyields hmodel hsub hviolation
  obtain ⟨ρ', hρ', hle, hweight⟩ := TrustRegion.raisedPenalty_real (ε := ε) hρ0 q v
  have hρ'0 : 0 < ρ' := hρ0.trans_le hle
  have hnonneg : 0 ≤ -q + ρ' * v := by
    rcases hviolation.eq_or_lt with hzero | hpos
    · have := hmodel hzero.ge
      rw [← hzero]
      linarith
    · have := hweight hpos
      have := mul_pos hρ'0 hpos
      linarith
  unfold TrustRegion.predictedReduction
  refine wp_bind (wp_getState (wp_bind (wp_yields hyields ?_)))
  rintro _ - rfl
  dsimp only
  rw [hρ]
  unfold TrustRegion.raisedPenalty at hρ'
  split at hρ'
  case isTrue h =>
    rw [if_pos h, hρ']
    refine wp_bind (wp_update (wp_bind (wp_log (wp_bind (wp_getState (wp_pure ⟨ρ', hρ'0, hsub ρ' ▸ hnonneg, ?_, rfl⟩))))))
    rw [real_neg, real_mul, real_add, hsub]
  case isFalse h =>
    rw [if_neg h]
    refine wp_bind (wp_getState (wp_pure ⟨ρ', hρ'0, hsub ρ' ▸ hnonneg, ?_, ?_⟩))
    · rw [hρ, hρ', real_neg, real_mul, real_add, hsub]
    · rw [← hρ', ← hρ]

/-! ### Accepting a point -/

/-- A gradient is found, with whatever multipliers come with it. -/
theorem updateGradient_wp (updateY : Bool) (hx : s.x = vec x) (hh : s.h = []) (hy : s.y = vec y)
    (hlen : s.grad.length = n) :
    wp W (updateGradient k updateY)
      (fun o t => o = .ok () ∧ ∃ y', t = s.graded (vec y') (vec (Q.gradient x y'))) E s := by
  have heps : Nonneg k.par.normalEq.epsRel := ⟨0, hk.tolerance, le_rfl⟩
  have hyields := hk.poses.lagrangianGradient_yields heps updateY x y s.mu
  unfold updateGradient
  refine wp_bind (wp_getState ?_)
  rw [hx, hh, hy, hlen]
  refine wp_bind (wp_yields hyields ?_)
  rintro _ - ⟨y', rfl⟩
  refine wp_bind (wp_update (wp_bind (wp_update (wp_pure ⟨?_, y', rfl⟩))))
  rw [norm_vec, if_pos isFinite_real]

/-- Accepting a point ends there, with its gradient. -/
theorem accept_wp (hy : s.y = vec y) (hlen : s.grad.length = n) (x : Euclidean n)
    (hW : W.visit .afterStepBeforeGradient (s.moveTo (Q.sample x))) (hW' : ∀ t, W.visit .afterGradient t) :
    wp W (accept k (Q.sample x))
      (fun _ t => ∃ y', t = (s.moveTo (Q.sample x)).graded (vec y') (vec (Q.gradient x y'))) E s := by
  unfold accept
  refine wp_bind (wp_update (wp_bind (wp_quiet hk.hooks.stepOnly nofun hW ?_)))
  have hgradient := hk.updateGradient_wp (s := s.moveTo (Q.sample x)) (W := W) (E := E) true rfl rfl hy hlen
  refine wp_bind (wp_mono hgradient ?_ fun _ _ h => h)
  rintro _ _ ⟨rfl, y', rfl⟩
  exact wp_quiet hk.hooks.stepOnly nofun (hW' _) ⟨y', rfl⟩

/-! ### Judging a step -/

/-- A judged step delivers. -/
theorem delivers (hs : k.At Q x y s) {u : State (Exact ε)} (hu : k.Judged Q x y d s u) :
    TrustRegion.Delivers k s (u.moveTo (Q.sample (x + d))) where
  moved := by
    have htrial := hk.poses.trial x d
    rw [← hs.point, ← hu.dx] at htrial
    exact (Problem.trial_eq_ok htrial).1
  values := hk.poses.evaluate (x + d)
  reductions := by
    obtain ⟨ρ, hρ, -, hared, hpred, hnonneg⟩ := hu.reductions
    change ∃ here there π, Barrier.merit s.f s.g s.h s.y s.mu u.rho = .ok here ∧
      Barrier.merit (Q.sample (x + d)).f (Q.sample (x + d)).g (Q.sample (x + d)).h s.y s.mu u.rho = .ok there ∧
      u.ared = here - there ∧ u.ared = real π ∧ u.pred = real π ∧ 0 ≤ π ∧
      TrustRegion.reductionRatio here u.ared u.pred = 1
    rw [hρ, hared, hpred]
    exact ⟨_, _, Q.fall x y d ρ, hs.merit ρ, QuadraticProgram.merit_sample hs.multipliers (x + d) ρ, real_sub.symm, rfl, rfl,
      hnonneg, TrustRegion.reductionRatio_self _ hnonneg⟩

/-- Accepting a judged step ends it. -/
theorem arrived (hs : k.At Q x y s) {u : State (Exact ε)} (hu : k.Judged Q x y d s u) (y' : Euclidean m) :
    k.Arrived Q s ((u.moveTo (Q.sample (x + d))).graded (vec y') (vec (Q.gradient (x + d) y'))) := by
  have hat : k.At Q x y u := hs.of_kept hu.kept
  obtain ⟨hmoved, hvalues, hreductions⟩ := hk.delivers hs hu
  obtain ⟨ρ, hρ, hρ0, -⟩ := hu.reductions
  exact {
    point := ⟨x + d, y', rfl, rfl, rfl, rfl, rfl, rfl, hat.history, hat.sizes⟩
    room := ⟨hu.room.normal, hu.room.cauchy, hu.room.tangential⟩
    bounds := ⟨hu.delta, ρ, hρ, hρ0⟩
    running := hu.running
    dx := ⟨d, hu.dx⟩
    delivers := ⟨hmoved, hvalues, hreductions⟩
    xOld := congrArg Kept.xOld hu.kept
    gradOld := congrArg Kept.gradOld hu.kept
    iter := congrArg Kept.iter hu.kept
    rejected := hu.rejected
    rejectedTotal := hu.rejectedTotal }

/-- A step that is ready is accepted. -/
theorem judge_wp (hs : k.Ready Q x y d s) (hrunning : s.stop = .notConverged) (stop : TruncatedStop)
    (hW : W.Admits k s) :
    wp W (TrustRegion.judge k stop) (fun a t => a = .finished ∧ k.Arrived Q s t) E s := by
  have htrial : k.problem.trial s.x s.dx 1 = .ok (Q.sample (x + d)) := by
    rw [hs.point, hs.dx]
    exact hk.poses.trial x d
  obtain ⟨η, hη, -, hη1⟩ := Setup.eta1_real hk.valid
  obtain ⟨δ₀, hδ₀⟩ := isFinite_iff.mp hk.delta
  obtain ⟨hpos₀, hmax⟩ := Setup.radius_pos hk.valid hδ₀
  have haccept : ∀ u, k.Judged Q x y d s u →
      wp W (do accept k (Q.sample (x + d)); return TrustRegion.Attempt.finished)
        (fun a t => a = .finished ∧ k.Arrived Q s t) E u := by
    intro u hu
    have hat : k.At Q x y u := hs.toAt.of_kept hu.kept
    have hlen : u.grad.length = n := by rw [hat.grad, length_vec]
    have hmove := hW.accepted _ (hk.delivers hs.toAt hu)
    refine wp_bind (wp_mono (hk.accept_wp hat.multipliers hlen (x + d) hmove hW.graded) ?_ fun _ _ h => h)
    rintro _ _ ⟨y', rfl⟩
    exact wp_pure ⟨rfl, hk.arrived hs.toAt hu y'⟩
  unfold TrustRegion.judge
  refine wp_bind (wp_mono (hk.predictedReduction_wp hs) ?_ fun _ _ h => h)
  rintro _ _ ⟨ρ, hρ, hnonneg, rfl, rfl⟩
  refine wp_bind (wp_getState (wp_bind (wp_tryStep_of_ok htrial (hW.trial _ _) ?_)))
  refine wp_bind (wp_ok (hs.toAt.merit ρ) (wp_bind (wp_ok (QuadraticProgram.merit_sample hs.multipliers (x + d) ρ) ?_)))
  have hsub : (real (Q.merit x y ρ) - real (Q.merit (x + d) y ρ) : Exact ε) = real (Q.fall x y d ρ) := real_sub
  dsimp only
  rw [hsub, TrustRegion.reductionRatio_self _ hnonneg]
  refine wp_bind (wp_update_of (P := k.Judged Q x y d s) ?_ fun u hu => ?_)
  · exact ⟨rfl, ⟨hs.room.normal, hs.room.cauchy, hs.room.tangential⟩, hrunning, hs.dx, hs.bounds.1,
      ⟨ρ, rfl, hρ, rfl, rfl, hnonneg⟩, rfl, rfl⟩
  rw [if_pos ⟨isFinite_real, by rw [hη, one_eq]; exact real_le.mpr hη1.le⟩]
  split
  · refine wp_bind (wp_update_of (P := k.Judged Q x y d s) ?_ haccept)
    obtain ⟨δ, hδ, hδ0⟩ := hu.delta
    exact ⟨hu.kept, ⟨hu.room.normal, hu.room.cauchy, hu.room.tangential⟩, hu.running, hu.dx,
      TrustRegion.grown_real hδ hδ0 hpos₀ hmax, hu.reductions, hu.rejected, hu.rejectedTotal⟩
  · exact haccept u hu

/-! ### Attempts -/

/-- An attempt ends with its step accepted. -/
theorem attempt_wp (hs : k.At Q x y s) (hroom : s.Roomy n) (hR : Bounds s.delta s.rho) (hrunning : s.stop = .notConverged)
    (hstart : W.visit .beforeGetStep s) (hW : W.Admits k s) :
    wp W (TrustRegion.attempt k) (fun a t => a = .finished ∧ k.Arrived Q s t) E s := by
  obtain ⟨γ, ζ, hpar⟩ := Setup.exists_fractions hk.valid
  obtain ⟨δ, hδ, hδ0⟩ := hR.1
  unfold TrustRegion.attempt
  refine wp_bind (wp_quiet hk.hooks.stepOnly nofun hstart ?_)
  refine wp_bind (wp_mono (hk.compositeStep_wp hs hroom hpar hδ hδ0) ?_ fun _ _ h => h)
  rintro _ t ⟨stop, rfl, ht, hroom', hcut, hcut'⟩
  obtain ⟨d, hready⟩ := hk.ready hs hR ht hroom'
  have hactive : Active s.kept t := ht.active ⟨rfl, hrunning⟩
  obtain ⟨hrejected, htotal⟩ := ht.rejected
  refine wp_bind (wp_visit (hW.step t) ?_)
  rw [hk.hooks]
  refine wp_bind (wp_update (wp_bind (wp_getState ?_)))
  dsimp only
  rw [hcut, hcut', if_neg (by simp)]
  refine wp_bind (wp_quiet hk.hooks.stepOnly nofun (hW.judged _) ?_)
  have hready' : k.Ready Q x y d { t with normDx := Vec.norm t.dx } :=
    ⟨hready.toAt.of_kept rfl, ⟨hready.room.normal, hready.room.cauchy, hready.room.tangential⟩, hready.bounds, hready.dx,
      hready.violation, hready.model⟩
  have hkept : ({ t with normDx := Vec.norm t.dx } : State (Exact ε)).kept = s.kept := hactive.kept
  refine wp_mono (hk.judge_wp hready' hactive.running stop ?_) ?_ fun _ _ h => h
  · exact ⟨hW.step, hW.judged, fun u hu => hW.accepted u (hu.of_kept hkept), hW.graded, hW.trial⟩
  · rintro a u ⟨rfl, hu⟩
    exact ⟨rfl, hu.of_kept hkept hrejected htotal⟩

/-- The first attempt of a step is its last one. -/
theorem takeStep_wp (hs : k.At Q x y s) (hroom : s.Roomy n) (hR : Bounds s.delta s.rho) (hrunning : s.stop = .notConverged)
    (hstart : W.visit .beforeGetStep s) (hW : W.Admits k s) :
    wp W (takeStep k) (fun _ t => k.Arrived Q s t) E s := by
  obtain ⟨fuel, hfuel⟩ : ∃ fuel, k.par.rejectedMax + patience = fuel + 1 := Nat.exists_eq_add_one.mpr
    (Nat.lt_of_lt_of_le (by decide) (Nat.le_add_left _ _))
  unfold takeStep
  rw [hk.algorithm]
  dsimp only
  unfold TrustRegion.step
  rw [hfuel]
  refine wp_bind (wp_mono (hk.attempt_wp hs hroom hR hrunning hstart hW) ?_ fun _ _ h => h)
  rintro _ t ⟨rfl, ht⟩
  exact wp_pure ht

end Setup.Programmed
end ConstrainedOpt
