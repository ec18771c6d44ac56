import ConstrainedOpt.Proofs.Step.Cauchy

/-! # What the recurrence keeps

Between linear operators the step, the point, the residual and the model of truncated conjugate gradients keep
together, whatever is cut and however often the recurrence starts again: the preconditioner need not be positive, nor
the projector orthogonal. With a preconditioner that is not positive a direction may point uphill. Along positive
curvature such a step is refused, along negative curvature it is taken.
-/
namespace ConstrainedOpt.TruncatedCG
open Exact Journaled
variable {ε : Set.Ioi (0 : ℝ)} {n : ℕ} {H B C : Euclidean n →ₗ[ℝ] Euclidean n} {k : Model (Exact ε)}
  {g o s p : Euclidean n} {it it' : Iterate (Exact ε)}

theorem Model.Acts.curves (hk : k.Acts H B C g) (hfills : k.H.Fills n n) (hp : 0 < inner ℝ p (H p)) : k.H.Curves n := by
  have hfilled := hfills.apply 1 (vec p) 0 (vec (0 : Euclidean n)) length_vec length_vec
  obtain ⟨z, rest, hrun, -, rfl⟩ := hfilled.and (hk.hessian.image p) #[]
  exact ⟨p, H p, ⟨#[], rest, hrun⟩, hp⟩

/-! ### The invariant -/

/-- An iterate at a step that is its own projection, with a model no higher than at zero, and what it remembers of the
pass before and of the first one. -/
structure Recurs (k : Model (Exact ε)) (H B C : Euclidean n →ₗ[ℝ] Euclidean n) (g o s : Euclidean n)
    (it : Iterate (Exact ε)) : Prop where
  at_step : it.At H g o s
  mem : s ∈ LinearMap.range C
  nonpos : quadratic H g s ≤ 0
  previous : ∀ prev, it.previous = some prev → ∃ p ∈ LinearMap.range C, ∃ c : ℝ,
    prev.p = vec p ∧ prev.rz = real c ∧ 0 < inner ℝ p (H p)
  first : it.iter = 0 → s = 0
  scale : it.iter ≠ 0 → it.normZ0 = real ‖projected B C g‖

/-- The first residual is the scale. -/
theorem Recurs.scale_eq (h : Recurs k H B C g o s it) :
    (if it.iter = 0 then real ‖projected B C (steepest H g s)‖ else it.normZ0 : Exact ε) = real ‖projected B C g‖ := by
  split
  case isTrue h0 =>
    rw [h.first h0]
    change real ‖projected B C (-(g + H 0))‖ = _
    rw [map_zero, add_zero, map_neg, norm_neg]
  case isFalse h0 => exact h.scale h0

theorem Recurs.heads_mem (h : Recurs k H B C g o s it)
    (hp : it.HeadsFor (steepest H g s) (projected B C (steepest H g s)) p) : p ∈ LinearMap.range C := by
  refine hp.mem (LinearMap.mem_range_self C _) fun prev hprev => ?_
  obtain ⟨q, hq, c, hqp, -, -⟩ := h.previous prev hprev
  exact ⟨q, hq, hqp⟩

/-- What a solve stops with is the step it reports, its own projection, and small where the residual is. -/
theorem Recurs.reports (h : Recurs k H B C g o s it) {reason : TruncatedStop}
    (hturn : Turn k H C g o s (projected B C (steepest H g s)) it (.stop reason it')) :
    ∃ s' ∈ LinearMap.range C, Values H g s' it' ∧ (reason = .relativeErrorSmall →
      real ‖projected B C (g + H s')‖ ≤ k.par.eps * real ‖projected B C g‖) := by
  have hmem : ∀ {p : Euclidean n}, it.HeadsFor (steepest H g s) (projected B C (steepest H g s)) p →
      ∀ t : ℝ, s + t • p ∈ LinearMap.range C :=
    fun hp t => Submodule.add_mem _ h.mem (Submodule.smul_mem _ t (h.heads_mem hp))
  cases hturn with
  | fault hfault hit =>
    refine ⟨s, h.mem, hit, ?_⟩
    rintro rfl
    cases hfault.fails
  | small hsmall hit =>
    refine ⟨s, h.mem, hit, fun _ => ?_⟩
    unfold Model.Settles at hsmall
    rwa [h.scale_eq, map_neg, norm_neg] at hsmall
  | flat _ hp _ _ _ hit => exact ⟨_, hmem hp _, hit, nofun⟩
  | rise _ _ hit => exact ⟨s, h.mem, hit, nofun⟩
  | stuck hline _ _ _ hit => exact ⟨_, hmem hline.heads _, hit, nofun⟩
  | cross hline _ _ hit => exact ⟨_, hmem hline.heads _, hit, nofun⟩

/-- The step `s` lies beyond `b` along a direction that points uphill from there and has no positive curvature. -/
def Overshoots (H : Euclidean n →ₗ[ℝ] Euclidean n) (g b s : Euclidean n) : Prop :=
  ∃ (p : Euclidean n) (σ : ℝ), 0 < σ ∧ s = b + σ • p ∧ inner ℝ p (H p) ≤ 0 ∧ 0 < inner ℝ (g + H b) p

theorem overshoots_of_rise (hH : H.IsSymmetric) (hκ : inner ℝ p (H p) ≤ 0) {σ : ℝ} (hσ : 0 ≤ σ)
    (hrise : quadratic H g s < quadratic H g (s + σ • p)) : Overshoots H g s (s + σ • p) := by
  refine ⟨p, σ, lt_of_le_of_ne hσ ?_, rfl, hκ, lt_of_not_ge fun hslope => ?_⟩
  · rintro rfl
    rw [zero_smul, add_zero] at hrise
    exact hrise.false
  · exact hrise.not_ge (quadratic_flat_le hH hκ hslope hσ)

/-- A turn raises the model along negative curvature only, where the direction points uphill. -/
theorem Turn.descends (hk : k.Acts H B C g) {z : Euclidean n} {out : Progress (Exact ε)} (hturn : Turn k H C g o s z it out) :
    ∃ s', Values H g s' out.iterate ∧ (quadratic H g s' ≤ quadratic H g s ∨
      out = .stop .negativeCurvature out.iterate ∧ Overshoots H g s s') := by
  cases hturn with
  | fault _ hit => exact ⟨s, hit, .inl le_rfl⟩
  | small _ hit => exact ⟨s, hit, .inl le_rfl⟩
  | rise _ _ hit => exact ⟨s, hit, .inl le_rfl⟩
  | @flat p σ u it' _ _ hκ hσ hu hit =>
    refine ⟨_, hit, (le_or_gt _ _).imp_right fun hrise => ⟨rfl, ?_⟩⟩
    have hσ0 : 0 ≤ σ := by
      split at hσ
      case isTrue hfin =>
        obtain ⟨δ, hδ⟩ := isFinite_iff.mp hfin
        rw [hδ] at hσ
        obtain ⟨σ', heq, hσ'⟩ := Sphere.exit_real le_rfl hσ
        rwa [real_inj.mp heq]
      case isFalse => split at hσ <;> cases hσ <;> simp
    exact overshoots_of_rise hk.symmetric hκ (mul_nonneg hσ0 hu.nonneg) hrise
  | stuck hline hdown hu _ hit =>
    exact ⟨_, hit, .inl (quadratic_cut_le hk.symmetric hline.curved.le hu.nonneg hu.le_one hdown)⟩
  | cut hline hdown hu _ hit =>
    exact ⟨_, hit.values, .inl (quadratic_cut_le hk.symmetric hline.curved.le hu.nonneg hu.le_one hdown)⟩
  | cross _ hdown _ hit => exact ⟨_, hit, .inl hdown⟩
  | full _ _ hdown hit => exact ⟨_, hit.values, .inl hdown⟩

section Solve
variable (hk : k.Acts H B C g) (hfit : k.Fits n) (hpropagates : k.H.Propagates n)
include hk hfit hpropagates

theorem recurs_invariant (o : Euclidean n) : Invariant k H B C g o (Recurs k H B C g o) where
  at_step h := h.at_step
  recalls h prev hprev := by
    obtain ⟨p, -, c, hp, hc, hcurved⟩ := h.previous prev hprev
    exact ⟨p, c, hp, hc, fun _ => hpropagates (hk.curves hfit.hessian hcurved)⟩
  start := ⟨start_at hk.gradient o, Submodule.zero_mem _, quadratic_zero.le, nofun, fun _ => rfl, fun h => absurd rfl h⟩
  next h hturn := by
    cases hturn with
    | cut hline hdown hu hcut hit hrecords hseq hprevious =>
      have hp := h.heads_mem hline.heads
      refine ⟨_, hit, Submodule.add_mem _ h.mem (Submodule.smul_mem _ _ hp), ?_, ?_, ?_, fun _ => ?_⟩
      · exact (quadratic_cut_le hk.symmetric hline.curved.le hu.nonneg hu.le_one hdown).trans h.nonpos
      · rw [hprevious]
        nofun
      · rw [hrecords.iter]
        nofun
      · rw [hrecords.scale, h.scale_eq]
    | full hline ha hdown hit hrecords hseq hprevious =>
      have hp := h.heads_mem hline.heads
      refine ⟨_, hit, Submodule.add_mem _ h.mem (Submodule.smul_mem _ _ hp), hdown.trans h.nonpos, ?_, ?_, fun _ => ?_⟩
      · rw [hprevious]
        rintro _ ⟨⟩
        exact ⟨_, hp, _, rfl, rfl, hline.curved⟩
      · rw [hrecords.iter]
        nofun
      · rw [hrecords.scale, h.scale_eq]

/-- At the head of its loop a solve has the residual and the point of its step, whatever was cut. It answers with the
value of the model at its step, which is its own projection, and it takes the residual for small where it is. -/
theorem solve_reports (hC : ∀ v, C (C v) = C v) (o : Euclidean n) {w : Vec (Exact ε)} (hw : w.length = n) {work : ℕ}
    (hwork : workLength n k.par.orthogMax ≤ work) :
    (∀ it, Loops k (vec o) it → ∃ s, it.s = vec s ∧ it.r = vec (-(g + H s)) ∧ it.x = vec (o + s)) ∧
    (solve k (vec o) w work).Yields fun out => ∃ r s, out = .ok r ∧ r.step = vec s ∧ r.model = real (quadratic H g s) ∧
      C s = s ∧ (r.stop = .relativeErrorSmall →
        real ‖projected B C (g + H s)‖ ≤ k.par.eps * real ‖projected B C g‖) := by
  have hinvariant := recurs_invariant hk hfit hpropagates o
  have hfixed : ∀ {s}, s ∈ LinearMap.range C → C s = s := by
    rintro _ ⟨v, rfl⟩
    exact hC v
  constructor
  · intro it hloop
    obtain ⟨s, hs⟩ := hinvariant.loops hk hloop
    exact ⟨s, hs.at_step.step, hs.at_step.residual, hs.at_step.point⟩
  · refine (hinvariant.solve hk hfit hw hwork).mono ?_
    rintro out ⟨r, rfl, hanswer⟩
    cases hanswer with
    | @refused fault hchecks =>
      have hstart := start_at (H := H) hk.gradient o
      refine ⟨_, 0, rfl, hstart.step, hstart.model, map_zero C, ?_⟩
      rintro (rfl : fault = _)
      exact absurd hchecks.blames nofun
    | spent hs => exact ⟨_, _, rfl, hs.at_step.step, hs.at_step.model, hfixed hs.mem, nofun⟩
    | stopped _ hs hturn =>
      obtain ⟨s', hmem, hit, hsmall⟩ := hs.reports hturn
      exact ⟨_, s', rfl, hit.step, hit.model, hfixed hmem, hsmall⟩

/-- No pass raises the model, but one that follows a direction uphill along negative curvature. So the model is no
higher at the step of a solve than at zero, unless it stops after such a pass. -/
theorem solve_nonpos_or_overshoots (o : Euclidean n) {w : Vec (Exact ε)} (hw : w.length = n) {work : ℕ}
    (hwork : workLength n k.par.orthogMax ≤ work) :
    (∀ it out, Loops k (vec o) it → Passes k it out → out.iterate.model ≤ it.model ∨
      out = .stop .negativeCurvature out.iterate ∧
        ∃ b s, it.s = vec b ∧ out.iterate.s = vec s ∧ Overshoots H g b s) ∧
    (solve k (vec o) w work).Yields fun out => ∃ r s, out = .ok r ∧ r.step = vec s ∧ r.model = real (quadratic H g s) ∧
      (quadratic H g s ≤ 0 ∨ r.stop = .negativeCurvature ∧
        ∃ it b, Loops k (vec o) it ∧ it.s = vec b ∧ quadratic H g b ≤ 0 ∧ Overshoots H g b s) := by
  have hinvariant := recurs_invariant hk hfit hpropagates o
  constructor
  · intro it out hloop hpass
    obtain ⟨s, hs⟩ := hinvariant.loops hk hloop
    obtain ⟨s', hit, hdown | ⟨hout, hover⟩⟩ := (hinvariant.turn hk hloop hs hpass).descends hk
    · refine .inl ?_
      rw [hit.model, hs.at_step.model]
      exact real_le.mpr hdown
    · exact .inr ⟨hout, s, s', hs.at_step.step, hit.step, hover⟩
  · refine (hinvariant.solve hk hfit hw hwork).mono ?_
    rintro out ⟨r, rfl, hanswer⟩
    cases hanswer with
    | refused =>
      have hstart := start_at (H := H) hk.gradient o
      exact ⟨_, 0, rfl, hstart.step, hstart.model, .inl quadratic_zero.le⟩
    | spent hs => exact ⟨_, _, rfl, hs.at_step.step, hs.at_step.model, .inl hs.nonpos⟩
    | stopped hloop hs hturn =>
      obtain ⟨s', hit, hend⟩ := hturn.descends hk
      refine ⟨_, s', rfl, hit.step, hit.model, ?_⟩
      rcases hend with hdown | ⟨hout, hover⟩
      · exact .inl (hdown.trans hs.nonpos)
      · cases hout
        exact .inr ⟨rfl, _, _, hloop, hs.at_step.step, hs.nonpos, hover⟩

end Solve

/-! ### A model that is preconditioned uphill -/

/-- A model that falls in all directions, with a preconditioner that turns the first one uphill. -/
noncomputable def uphill : Model (Exact ε) where
  par := .default
  H := .reflection 2
  B := .reflection 2
  C := .identity 2
  g := vec (EuclideanSpace.single 0 1 : Euclidean 2)
  δ := real (1 / 2)
  safeguard := .unlimited

theorem uphill_acts : (uphill : Model (Exact ε)).Acts (n := 2) (-LinearMap.id) (-LinearMap.id) LinearMap.id
    (EuclideanSpace.single 0 1) where
  hessian := Operator.reflection_acts 2
  symmetric u v := by simp
  preconditioner := Operator.reflection_acts 2
  projector := Operator.identity_acts 2
  gradient := rfl
  fractions := Safeguard.unlimited_cuts

theorem uphill_fits : (uphill : Model (Exact ε)).Fits 2 where
  hessian := Operator.reflection_fills 2
  preconditioner := Operator.reflection_fills 2
  projector := Operator.identity_fills 2
  gradient := length_vec
  safeguard := Safeguard.unlimited_fills 2

theorem uphill_propagates : (uphill : Model (Exact ε)).H.Propagates 2 :=
  Operator.Strict.propagates (fun _ _ _ => ensures_lift fun _ => Checked.isFinite_of_axpby) rfl

theorem solve_reports_uphill :
    let k : Model (Exact ⟨1, Set.mem_Ioi.mpr one_pos⟩) := uphill
    let g : Euclidean 2 := EuclideanSpace.single 0 1
    let o : Euclidean 2 := EuclideanSpace.single 1 (1 / 4)
    let I : Euclidean 2 →ₗ[ℝ] Euclidean 2 := LinearMap.id
    (k.Acts (-I) (-I) I g ∧ k.Fits 2 ∧ k.H.Propagates 2 ∧ ∀ v, I (I v) = I v) ∧
    (∀ it, Loops k (vec o) it → ∃ s, it.s = vec s ∧ it.r = vec (-(g + (-I) s)) ∧ it.x = vec (o + s)) ∧
    (solve k (vec o) (Vec.zeros 2) 25).Yields fun out => ∃ r s, out = .ok r ∧ r.step = vec s ∧
      r.model = real (quadratic (-I) g s) ∧ I s = s ∧ (r.stop = .relativeErrorSmall →
        real ‖projected (-I) I (g + (-I) s)‖ ≤ k.par.eps * real ‖projected (-I) I g‖) := by
  intro k g o I
  exact ⟨⟨uphill_acts, uphill_fits, uphill_propagates, fun _ => rfl⟩,
    solve_reports uphill_acts uphill_fits uphill_propagates (fun _ => rfl) o (Vec.length_zeros 2) (by decide)⟩

theorem solve_nonpos_or_overshoots_uphill :
    let k : Model (Exact ⟨1, Set.mem_Ioi.mpr one_pos⟩) := uphill
    let g : Euclidean 2 := EuclideanSpace.single 0 1
    let o : Euclidean 2 := EuclideanSpace.single 1 (1 / 4)
    let I : Euclidean 2 →ₗ[ℝ] Euclidean 2 := LinearMap.id
    (k.Acts (-I) (-I) I g ∧ k.Fits 2 ∧ k.H.Propagates 2) ∧
    (∀ it out, Loops k (vec o) it → Passes k it out → out.iterate.model ≤ it.model ∨
      out = .stop .negativeCurvature out.iterate ∧
        ∃ b s, it.s = vec b ∧ out.iterate.s = vec s ∧ Overshoots (-I) g b s) ∧
    (solve k (vec o) (Vec.zeros 2) 25).Yields fun out => ∃ r s, out = .ok r ∧ r.step = vec s ∧
      r.model = real (quadratic (-I) g s) ∧ (quadratic (-I) g s ≤ 0 ∨ r.stop = .negativeCurvature ∧
        ∃ it b, Loops k (vec o) it ∧ it.s = vec b ∧ quadratic (-I) g b ≤ 0 ∧ Overshoots (-I) g b s) := by
  intro k g o I
  exact ⟨⟨uphill_acts, uphill_fits, uphill_propagates⟩,
    solve_nonpos_or_overshoots uphill_acts uphill_fits uphill_propagates o (Vec.length_zeros 2) (by decide)⟩

/-- Nowhere has the model positive curvature. -/
theorem reflection_not_curved (p : Euclidean n) : ¬ 0 < inner ℝ p ((-LinearMap.id : Euclidean n →ₗ[ℝ] Euclidean n) p) := by
  rw [LinearMap.neg_apply, LinearMap.id_apply, inner_neg_right]
  exact not_lt.mpr (neg_nonpos.mpr real_inner_self_nonneg)

/-- The first pass finds no fault, and goes uphill to the boundary. -/
theorem uphill_overshoots {reason : TruncatedStop} (hturn : Turn (n := 2) (uphill : Model (Exact ε)) (-LinearMap.id)
    LinearMap.id (EuclideanSpace.single 0 1) 0 0 (EuclideanSpace.single 0 1)
    (start (uphill : Model (Exact ε)).g (vec (0 : Euclidean 2))) (.stop reason it')) :
    reason = .negativeCurvature ∧ Values (-LinearMap.id) (EuclideanSpace.single 0 1 : Euclidean 2)
      ((1 / 2 : ℝ) • EuclideanSpace.single 0 1) it' := by
  have hnorm : ‖(EuclideanSpace.single 0 1 : Euclidean 2)‖ = 1 := by simp
  cases hturn with
  | fault hfault =>
    cases hfault with
    | projector h =>
      rw [LinearMap.id_apply, LinearMap.id_apply, sub_self, norm_zero, one_eq, maxNum_real,
        show (uphill : Model (Exact ε)).par.epsProj = real 1e-6 from rfl, real_mul, real_lt] at h
      exact absurd h (not_lt.mpr (by positivity))
    | residual h => exact absurd (residualFault_of_none rfl _ _ _ h) nofun
    | undefined hd hfin =>
      cases hd
      exact absurd isFinite_vec hfin
    | direction h => exact absurd (directionFault_of_none rfl _ _ _ h) nofun
  | small h =>
    unfold Model.Settles at h
    rw [if_pos (show (start (uphill : Model (Exact ε)).g (vec (0 : Euclidean 2))).iter = 0 from rfl), hnorm, show (uphill : Model (Exact ε)).par.eps = real 1e-2 from rfl, real_mul, real_le] at h
    norm_num at h
  | @flat p σ u _ _ hp _ hσ hu hit =>
    obtain rfl := hp.first rfl
    rw [hu.full rfl, mul_one, zero_add] at hit
    rw [show (uphill : Model (Exact ε)).δ = real (1 / 2) from rfl, if_pos isFinite_real] at hσ
    obtain ⟨σ', heq, hσ0, -, hend⟩ := Sphere.exit_spec (x := (0 + 0 : Euclidean 2)) (by simp) le_rfl hσ
    obtain rfl := real_inj.mp heq
    have hreach := (hend (norm_ne_zero_iff.mp (by rw [hnorm]; exact one_ne_zero))).1
    rw [add_zero, zero_add, norm_smul, hnorm, mul_one, Real.norm_of_nonneg hσ0] at hreach
    exact ⟨rfl, hreach ▸ hit⟩
  | rise hline => exact absurd hline.curved (reflection_not_curved _)
  | stuck hline => exact absurd hline.curved (reflection_not_curved _)
  | cross hline => exact absurd hline.curved (reflection_not_curved _)

theorem uphill_invariant : Invariant (n := 2) (uphill : Model (Exact ε)) (-LinearMap.id) (-LinearMap.id) LinearMap.id
    (EuclideanSpace.single 0 1) 0 fun s it => s = 0 ∧ it = start (uphill : Model (Exact ε)).g (vec (0 : Euclidean 2)) where
  at_step := by
    rintro _ _ ⟨rfl, rfl⟩
    exact start_at rfl 0
  recalls := by
    rintro _ _ ⟨rfl, rfl⟩
    nofun
  start := ⟨rfl, rfl⟩
  next _ hturn := by
    cases hturn with
    | cut hline => exact absurd hline.curved (reflection_not_curved _)
    | full hline => exact absurd hline.curved (reflection_not_curved _)

/-- Along negative curvature a step uphill is taken: it ends where the model is higher than at zero. -/
theorem solve_climbs_uphill :
    let k : Model (Exact ⟨1, Set.mem_Ioi.mpr one_pos⟩) := uphill
    let g : Euclidean 2 := EuclideanSpace.single 0 1
    let o : Euclidean 2 := 0
    let I : Euclidean 2 →ₗ[ℝ] Euclidean 2 := LinearMap.id
    (k.Acts (-I) (-I) I g ∧ (-I).IsSymmetric ∧ I.IsSymmetric ∧ (∀ v, I (I v) = I v) ∧ k.Fits 2 ∧ k.H.Propagates 2 ∧
      k.δ = real (1 / 2) ∧ ‖o‖ ≤ 1 / 2) ∧
    (solve k (vec o) (Vec.zeros 2) 25).Yields fun out => ∃ r s, out = .ok r ∧ r.stop = .negativeCurvature ∧
      r.step = vec s ∧ r.model = real (quadratic (-I) g s) ∧ quadratic (-I) g s = 3 / 8 := by
  intro k g o I
  have ho : ‖o‖ ≤ 1 / 2 := by simp [o]
  have hk : k.Acts (-I) (-I) I g := uphill_acts
  refine ⟨⟨hk, hk.symmetric, LinearMap.IsSymmetric.id, fun _ => rfl, uphill_fits, uphill_propagates, rfl, ho⟩, ?_⟩
  refine (uphill_invariant.solve hk uphill_fits (Vec.length_zeros 2) (by decide)).mono ?_
  rintro out ⟨r, rfl, hanswer⟩
  cases hanswer with
  | refused hchecks => exact absurd (hchecks.eq_none rfl (real_le.mpr ho)) nofun
  | spent h hiter =>
    obtain ⟨-, rfl⟩ := h
    cases hiter
  | stopped _ h hturn =>
    obtain ⟨rfl, rfl⟩ := h
    have hz : projected (-I) I (steepest (-I) g 0) = g := by simp [I]
    rw [hz] at hturn
    obtain ⟨rfl, hit⟩ := uphill_overshoots hturn
    refine ⟨_, (1 / 2 : ℝ) • g, rfl, rfl, hit.step, hit.model, ?_⟩
    have hgg : inner ℝ g g = (1 : ℝ) := by simp [g]
    rw [← zero_add ((1 / 2 : ℝ) • g), quadratic_add hk.symmetric, quadratic_zero]
    simp only [map_zero, add_zero, LinearMap.neg_apply, LinearMap.id_apply, inner_neg_left, inner_neg_right, hgg, I]
    norm_num

end ConstrainedOpt.TruncatedCG
