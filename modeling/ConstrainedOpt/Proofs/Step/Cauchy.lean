import ConstrainedOpt.Proofs.Step.Turns

/-! # Decrease of the model

With a symmetric Hessian, a symmetric positive semidefinite preconditioner and an orthogonal projector no pass of
truncated conjugate gradients raises the model, whatever parts of the steps a safeguard leaves. Without a safeguard
the first pass ends at the lowest point of the model on the ray of the Cauchy steps, as far as it is in the trust
region: so the step of the solve is no worse than any of them.
-/
namespace ConstrainedOpt
open Exact Journaled
variable {ε : Set.Ioi (0 : ℝ)} {n : ℕ}

namespace TruncatedCG
variable {H B C : Euclidean n →ₗ[ℝ] Euclidean n} {k : Model (Exact ε)} {g o s p : Euclidean n} {δ : ℝ}
  {it it' : Iterate (Exact ε)}

/-! ### The model along a direction -/

section Ray
variable {d : Vec (Exact ε)} {rz : ℝ} {rp κ : Exact ε} (ha : Along H g s p d rz rp κ) (hH : H.IsSymmetric)
include ha hH

/-- Without curvature the model is lowest at the end of the ray. -/
theorem Along.quadratic_le_of_flat (hκ : κ ≤ 0) {a t : ℝ} (ht : 0 ≤ t) (hta : t ≤ a) :
    quadratic H g (s + a • p) ≤ quadratic H g (s + t • p) := by
  rw [ha.curvature] at hκ
  have hκ : inner ℝ p (H p) ≤ 0 := real_le.mp hκ
  rw [ha.quadratic_eq hH, ha.quadratic_eq hH]
  have hslope : 0 ≤ (a - t) * rz := mul_nonneg (sub_nonneg.mpr hta) ha.nonneg
  have hcurve : 0 ≤ (a - t) * (a + t) * -inner ℝ p (H p) :=
    mul_nonneg (mul_nonneg (sub_nonneg.mpr hta) (add_nonneg (ht.trans hta) ht)) (neg_nonneg.mpr hκ)
  linarith

/-- With curvature the model is lowest where it has its minimum, or at the end of a ray that ends before. -/
theorem Along.quadratic_le_of_curved (hκ : 0 < inner ℝ p (H p)) {a t : ℝ} (hmin : a ≤ rz / inner ℝ p (H p))
    (hend : a = rz / inner ℝ p (H p) ∨ t ≤ a) : quadratic H g (s + a • p) ≤ quadratic H g (s + t • p) := by
  generalize hc : inner ℝ p (H p) = c at hκ hmin hend
  have hmin : a * c ≤ rz := (le_div_iff₀ hκ).mp hmin
  rw [ha.quadratic_eq hH, ha.quadratic_eq hH, hc]
  rcases hend with hend | hta
  · have hrz : rz = a * c := by rw [hend, div_mul_cancel₀ _ hκ.ne']
    rw [hrz]
    linarith [mul_nonneg hκ.le (mul_self_nonneg (t - a))]
  · have hgap : 0 ≤ (a - t) * (rz - a * c) := mul_nonneg (sub_nonneg.mpr hta) (sub_nonneg.mpr hmin)
    linarith [mul_nonneg hκ.le (mul_self_nonneg (a - t))]

end Ray

/-- The length to the minimum, or to the boundary of the trust region if that comes before. -/
theorem length_spec {x : Euclidean n} {t : ℝ} (hx : ‖x‖ ≤ δ) (ht : 0 < t) (hp : p ≠ 0) {c : Exact ε}
    (h : (if decide ((real δ : Exact ε) ≤ real ‖x + t • p‖) = true then Sphere.exit 0 (vec x) (vec p) (real δ)
      else .ok (real t)) = .ok c) :
    ∃ a, c = real a ∧ 0 ≤ a ∧ a ≤ t ∧ ‖x + a • p‖ ≤ δ ∧ (a = t ∨ ∀ τ : ℝ, ‖x + τ • p‖ ≤ δ → τ ≤ a) := by
  split at h
  case isTrue hout =>
    obtain ⟨a, rfl, ha0, hin, hlast⟩ := Sphere.exit_spec hx le_rfl h
    have hleft := real_le.mp (of_decide_eq_true hout)
    exact ⟨a, rfl, ha0, Sphere.le_of_left hx hin ht hleft hp, hin, .inr (hlast hp).2⟩
  case isFalse hin =>
    cases h
    have hin := mt real_le.mpr (of_decide_eq_false (Bool.not_eq_true _ ▸ hin))
    exact ⟨t, rfl, ht.le, le_rfl, (not_le.mp hin).le, .inl rfl⟩

/-! ### Passes -/

/-- What an iterate at the step `s` knows of the model, of the trust region and of the pass before. -/
structure Tracks (H : Euclidean n →ₗ[ℝ] Euclidean n) (g o : Euclidean n) (δ : ℝ) (s : Euclidean n)
    (it : Iterate (Exact ε)) : Prop where
  step : it.s = vec s
  point : it.x = vec (o + s)
  within : ‖o + s‖ ≤ δ
  residual : it.r = vec (-(g + H s))
  model : it.model = real (quadratic H g s)
  previous : ∀ prev, it.previous = some prev → ∃ (p : Euclidean n) (c : ℝ),
    prev.p = vec p ∧ prev.rz = real c ∧ c ≠ 0 ∧ inner ℝ (-(g + H s)) p = 0
  scale : it.iter = 0 ∨ Nonneg it.normZ0

/-- The pass ends at a step where the model is no higher than at any of the rivals. -/
def Progress.Beats (H : Euclidean n →ₗ[ℝ] Euclidean n) (g o : Euclidean n) (δ : ℝ) (rival : Euclidean n → Prop) :
    Progress (Exact ε) → Prop
  | .next it => ∃ s, Tracks H g o δ s it ∧ ∀ v, rival v → quadratic H g s ≤ quadratic H g v
  | .stop _ it => ∃ s, Values H g s it ∧ ∀ v, rival v → quadratic H g s ≤ quadratic H g v

theorem Tracks.values (h : Tracks H g o δ s it) : Values H g s it := ⟨h.step, h.model⟩

/-- A direction is followed against its start, and without a safeguard against all its points in the trust region. -/
def RivalsAlong (k : Model (Exact ε)) (o : Euclidean n) (δ : ℝ) (s p : Euclidean n) (rival : Euclidean n → Prop) : Prop :=
  ∀ v, rival v → v = s ∨ k.safeguard = .unlimited ∧ ∃ t : ℝ, 0 ≤ t ∧ ‖o + s + t • p‖ ≤ δ ∧ v = s + t • p

theorem Tracks.at_step (hit : Tracks H g o δ s it) : it.At H g o s := ⟨hit.step, hit.point, hit.residual, hit.model⟩

theorem Tracks.recalls (hit : Tracks H g o δ s it) : it.Recalls k n := by
  intro prev hprev
  obtain ⟨p, c, hp, hc, hc0, -⟩ := hit.previous prev hprev
  exact ⟨p, c, hp, hc, fun hzero => absurd hzero hc0⟩

/-- The direction comes from the preconditioned residual `z`, and is `z` itself in a first pass. -/
theorem Tracks.heads (hit : Tracks H g o δ s it) {z : Euclidean n} (hp : it.HeadsFor (steepest H g s) z p) :
    inner ℝ (steepest H g s) p = inner ℝ (steepest H g s) z ∧ (it.previous = none → p = z) := by
  refine ⟨?_, hp.first⟩
  cases hprev : it.previous with
  | none => rw [hp.first hprev]
  | some prev =>
    obtain ⟨q, c, hq, hc, hc0, hconj⟩ := hit.previous prev hprev
    rw [hp.later hprev hq hc hc0, inner_add_right, inner_smul_right, hconj, mul_zero, zero_add]

/-- The first pass of a solve without a safeguard, with a tolerance that does not end it. -/
structure FirstPass (k : Model (Exact ε)) (it : Iterate (Exact ε)) : Prop where
  safeguard : k.safeguard = .unlimited
  eps : k.par.eps < 1
  iter : it.iter = 0
  previous : it.previous = none

/-- The rivals of a pass from `s`: `s` itself, and for a first pass its Cauchy steps in the trust region. -/
def Rival (k : Model (Exact ε)) (o : Euclidean n) (δ : ℝ) (s z : Euclidean n) (it : Iterate (Exact ε))
    (v : Euclidean n) : Prop :=
  v = s ∨ FirstPass k it ∧ ∃ t : ℝ, 0 ≤ t ∧ ‖o + s + t • z‖ ≤ δ ∧ v = s + t • z

/-- Where a pass stays, the first one has no direction to leave. -/
theorem Rival.stays {z : Euclidean n} (hz : FirstPass k it → z = 0) :
    ∀ v, Rival k o δ s z it v → quadratic H g s ≤ quadratic H g v := by
  rintro v (rfl | ⟨hfirst, t, -, -, rfl⟩)
  · exact le_rfl
  · rw [hz hfirst, smul_zero, add_zero]

section Turn
variable (hk : Linear { k with safeguard := .unlimited } H B C) (hit : Tracks H g o δ s it)
include hk hit

/-- What a pass knows of the direction it heads for. -/
theorem Tracks.along (hlarge : ¬ k.Settles it (projected B C (steepest H g s)))
    (hp : it.HeadsFor (steepest H g s) (projected B C (steepest H g s)) p) :
    0 < inner ℝ (steepest H g s) (projected B C (steepest H g s)) ∧
      Along H g s p (vec (H p)) (inner ℝ (steepest H g s) (projected B C (steepest H g s)))
        (real (inner ℝ (steepest H g s) p)) (real (inner ℝ p (H p)) : Exact ε) ∧
      RivalsAlong k o δ s p (Rival k o δ s (projected B C (steepest H g s)) it) := by
  have hslope := hk.slope_pos hit.scale hlarge
  obtain ⟨heq, hfirst⟩ := hit.heads hp
  refine ⟨hslope, ⟨rfl, heq, hslope.le, congrArg real heq, rfl⟩, ?_⟩
  rintro v (rfl | ⟨hpass, t, ht, hin, rfl⟩)
  · exact .inl rfl
  · rw [← hfirst hpass.previous] at hin ⊢
    exact .inr ⟨hpass.safeguard, t, ht, hin, rfl⟩

/-- A line ends within the trust region, at the lowest point along it. -/
theorem Tracks.line (hδ : k.δ = real δ) {a : ℝ}
    (hline : Line k H o s (steepest H g s) (projected B C (steepest H g s)) it p a) :
    ‖o + s + a • p‖ ≤ δ ∧ ∀ t : ℝ, ‖o + s + t • p‖ ≤ δ → quadratic H g (s + a • p) ≤ quadratic H g (s + t • p) := by
  obtain ⟨hslope, halong, -⟩ := hit.along hk hline.unsettled hline.heads
  have hp : p ≠ 0 := by
    rintro rfl
    exact hline.curved.ne' (inner_zero_left _)
  obtain ⟨a', heq, -, hmin, hin, hend⟩ :=
    length_spec hit.within (div_pos hslope hline.curved) hp (hδ ▸ hline.length)
  obtain rfl := real_inj.mp heq
  exact ⟨hin, fun t ht => halong.quadratic_le_of_curved hk.symmetric hline.curved hmin (hend.imp_right fun h => h t ht)⟩

theorem Tracks.line_le (hδ : k.δ = real δ) {a : ℝ}
    (hline : Line k H o s (steepest H g s) (projected B C (steepest H g s)) it p a) :
    quadratic H g (s + a • p) ≤ quadratic H g s := by
  simpa using (hit.line hk hδ hline).2 0 (by simpa using hit.within)

/-- A whole line beats its rivals. -/
theorem Tracks.line_beats (hδ : k.δ = real δ) {a : ℝ}
    (hline : Line k H o s (steepest H g s) (projected B C (steepest H g s)) it p a) :
    ∀ v, Rival k o δ s (projected B C (steepest H g s)) it v → quadratic H g (s + a • p) ≤ quadratic H g v := by
  intro v hv
  obtain ⟨-, -, hrival⟩ := hit.along hk hline.unsettled hline.heads
  rcases hrival v hv with rfl | ⟨-, t, -, ht, rfl⟩
  · exact hit.line_le hk hδ hline
  · exact (hit.line hk hδ hline).2 t ht

/-- A line that a safeguard cuts beats its start, its only rival. -/
theorem Tracks.cut_beats {a u : ℝ} (hline : Line k H o s (steepest H g s) (projected B C (steepest H g s)) it p a)
    (hu : k.Leaves u) (hcut : u < 1) (hdown : quadratic H g (s + a • p) ≤ quadratic H g s) :
    ∀ v, Rival k o δ s (projected B C (steepest H g s)) it v → quadratic H g (s + (a * u) • p) ≤ quadratic H g v := by
  intro v hv
  obtain ⟨-, halong, hrival⟩ := hit.along hk hline.unsettled hline.heads
  rcases hrival v hv with rfl | ⟨hsafe, -⟩
  · exact quadratic_cut_le hk.symmetric hline.curved.le hu.nonneg hu.le_one hdown
  · exact absurd (hu.full hsafe) hcut.ne

theorem Tracks.turn_beats (hδ : k.δ = real δ) {out : Progress (Exact ε)}
    (hturn : Turn k H C g o s (projected B C (steepest H g s)) it out) :
    out.Beats H g o δ (Rival k o δ s (projected B C (steepest H g s)) it) := by
  cases hturn with
  | fault hfault hit' =>
    exact ⟨s, hit', Rival.stays fun hfirst => absurd hfault (hk.not_fault_of_none hfirst.previous)⟩
  | small hsmall hit' =>
    refine ⟨s, hit', Rival.stays fun hfirst => ?_⟩
    obtain ⟨e, he, -⟩ := hk.eps
    have he : k.par.eps = real e := he
    have he1 : e < 1 := real_lt.mp (he ▸ hfirst.eps)
    unfold Model.Settles at hsmall
    rw [if_pos hfirst.iter, he, real_mul, real_le] at hsmall
    exact norm_le_zero_iff.mp (by nlinarith [norm_nonneg (projected B C (steepest H g s))])
  | @flat p σ u _ hlarge hp hκ hσ hu hit' =>
    obtain ⟨hslope, halong, hrival⟩ := hit.along hk hlarge hp
    have hp0 : p ≠ 0 := by
      rintro rfl
      exact hslope.ne (halong.inner_eq ▸ (inner_zero_right _).symm)
    rw [hδ, if_pos isFinite_real] at hσ
    obtain ⟨σ', heq, hσ0, -, hend⟩ := Sphere.exit_spec hit.within le_rfl hσ
    obtain rfl := real_inj.mp heq
    refine ⟨_, hit', fun v hv => ?_⟩
    rcases hrival v hv with rfl | ⟨hsafe, t, ht0, hin, rfl⟩
    · exact halong.quadratic_le_of_curvature hk.symmetric (real_le.mpr hκ) (mul_nonneg hσ0 hu.nonneg)
    · rw [hu.full hsafe, mul_one]
      exact halong.quadratic_le_of_flat hk.symmetric (real_le.mpr hκ) ht0 ((hend hp0).2 t hin)
  | rise hline hrise => exact absurd (hit.line_le hk hδ hline) hrise.not_ge
  | stuck hline hdown hu hcut hit' => exact ⟨_, hit', hit.cut_beats hk hline hu hcut hdown⟩
  | cut hline hdown hu hcut hit' hrecords hseq hprevious =>
    refine ⟨_, ⟨hit'.step, hit'.point, ?_, hit'.residual, hit'.model, ?_, hrecords.scale_nonneg hit.scale⟩,
      hit.cut_beats hk hline hu hcut hdown⟩
    · rw [← add_assoc, mul_comm, ← smul_smul]
      exact Sphere.norm_add_smul_le hit.within (hit.line hk hδ hline).1 hu.nonneg hu.le_one
    · rw [hprevious]
      nofun
  | cross hline _ _ hit' => exact ⟨_, hit', hit.line_beats hk hδ hline⟩
  | full hline ha _ hit' hrecords hseq hprevious =>
    obtain ⟨hslope, halong, -⟩ := hit.along hk hline.unsettled hline.heads
    refine ⟨_, ⟨hit'.step, hit'.point, ?_, hit'.residual, hit'.model, ?_, hrecords.scale_nonneg hit.scale⟩,
      hit.line_beats hk hδ hline⟩
    · rw [← add_assoc]
      exact (hit.line hk hδ hline).1
    · rw [hprevious, ha]
      rintro _ ⟨⟩
      exact ⟨_, _, rfl, rfl, hslope.ne', halong.conjugate_minimum hline.curved.ne'⟩

end Turn

theorem pass_beats (hk : Linear { k with safeguard := .unlimited } H B C) (hg : k.g = vec g) (hδ : k.δ = real δ)
    (hcut : k.safeguard.Cuts n) (hit : Tracks H g o δ s it) :
    (pass k it).Ensures (Progress.Beats H g o δ (Rival k o δ s (projected B C (-(g + H s))) it)) :=
  (pass_turns (hk.acts hg hcut) (hδ ▸ nofun) hit.at_step hit.recalls).mono fun _ => hit.turn_beats hk hδ

/-! ### Solves -/

theorem start_tracks (hg : k.g = vec g) (ho : ‖o‖ ≤ δ) : Tracks H g o δ 0 (start k.g (vec o)) :=
  have hat := start_at (H := H) hg o
  ⟨hat.step, hat.point, by rwa [add_zero], hat.residual, hat.model, nofun, .inl rfl⟩

/-- The steps of a solve from the offset `o`: the model is not positive there, and after the first pass not higher than
at any Cauchy step. -/
structure Falls (k : Model (Exact ε)) (H B C : Euclidean n →ₗ[ℝ] Euclidean n) (g o : Euclidean n) (δ : ℝ) (s : Euclidean n)
    (it : Iterate (Exact ε)) : Prop where
  tracks : Tracks H g o δ s it
  nonpos : quadratic H g s ≤ 0
  beats : (s = 0 ∧ it = start k.g (vec o)) ∨
    ∀ v, Rival k o δ 0 (projected B C (-(g + H 0))) (start k.g (vec o)) v → quadratic H g s ≤ quadratic H g v

/-- What a turn leaves falls further. -/
theorem Falls.turn (h : Falls k H B C g o δ s it) (hk : Linear { k with safeguard := .unlimited } H B C)
    (hδ : k.δ = real δ) {out : Progress (Exact ε)} (hturn : Turn k H C g o s (projected B C (steepest H g s)) it out) :
    ∃ s', Values H g s' out.iterate ∧ (∀ it', out = .next it' → Tracks H g o δ s' it') ∧ quadratic H g s' ≤ 0 ∧
      ∀ v, Rival k o δ 0 (projected B C (-(g + H 0))) (start k.g (vec o)) v → quadratic H g s' ≤ quadratic H g v := by
  have hbeats := h.tracks.turn_beats hk hδ hturn
  obtain ⟨s', hvalues, htracks, hrival⟩ : ∃ s', Values H g s' out.iterate ∧ (∀ it', out = .next it' → Tracks H g o δ s' it') ∧
      ∀ v, Rival k o δ s (projected B C (steepest H g s)) it v → quadratic H g s' ≤ quadratic H g v := by
    cases out with
    | next it' =>
      obtain ⟨s', htracks, hrival⟩ := hbeats
      refine ⟨s', htracks.values, ?_, hrival⟩
      rintro _ ⟨⟩
      exact htracks
    | stop reason it' =>
      obtain ⟨s', hvalues, hrival⟩ := hbeats
      exact ⟨s', hvalues, nofun, hrival⟩
  refine ⟨s', hvalues, htracks, (hrival s (.inl rfl)).trans h.nonpos, ?_⟩
  rcases h.beats with ⟨rfl, rfl⟩ | hall
  · exact hrival
  · exact fun v hv => (hrival s (.inl rfl)).trans (hall v hv)

theorem falls_invariant (hk : Linear { k with safeguard := .unlimited } H B C) (hg : k.g = vec g) (hδ : k.δ = real δ)
    (ho : ‖o‖ ≤ δ) : Invariant k H B C g o (Falls k H B C g o δ) where
  at_step h := h.tracks.at_step
  recalls h := h.tracks.recalls
  start := ⟨start_tracks hg ho, quadratic_zero.le, .inl ⟨rfl, rfl⟩⟩
  next h hturn := by
    obtain ⟨s', -, htracks, hnonpos, hbeats⟩ := h.turn hk hδ hturn
    exact ⟨s', htracks _ rfl, hnonpos, .inr hbeats⟩

section Solve
variable (hk : Linear { k with safeguard := .unlimited } H B C) (hg : k.g = vec g) (hδ : k.δ = real δ)
  (hcut : k.safeguard.Cuts n)
include hk hg hδ hcut

theorem Tracks.beats (hit : Tracks H g o δ s it) {out : Progress (Exact ε)} (hpass : Passes k it out) :
    out.Beats H g o δ (Rival k o δ s (projected B C (-(g + H s))) it) := by
  obtain ⟨notes, rest, hrun⟩ := hpass
  exact pass_beats hk hg hδ hcut hit notes out rest hrun

theorem Tracks.visits (hit : Tracks H g o δ s it) (hv : Visits k it it') :
    ∃ u, Tracks H g o δ u it' ∧ quadratic H g u ≤ quadratic H g s := by
  induction hv with
  | here => exact ⟨s, hit, le_rfl⟩
  | next _ hpass ih =>
    obtain ⟨u, hu, hle⟩ := ih
    obtain ⟨v, hv, hbeats⟩ := hu.beats hk hg hδ hcut hpass
    exact ⟨v, hv, (hbeats u (.inl rfl)).trans hle⟩

/-- No pass raises the model. -/
theorem Tracks.model_le (hit : Tracks H g o δ s it) {out : Progress (Exact ε)} (hpass : Passes k it out) :
    out.iterate.model ≤ it.model := by
  have hbeats := hit.beats hk hg hδ hcut hpass
  rw [hit.model]
  cases out with
  | next v =>
    obtain ⟨u, hu, hle⟩ := hbeats
    exact hu.model ▸ real_le.mpr (hle s (.inl rfl))
  | stop reason v =>
    obtain ⟨u, hu, hle⟩ := hbeats
    exact hu.model ▸ real_le.mpr (hle s (.inl rfl))

theorem solve_beats (ho : ‖o‖ ≤ δ) (hiter : 1 ≤ k.par.iterMax) (heps : k.par.eps < 1) (w : Vec (Exact ε)) (work : ℕ) :
    (solve k (vec o) w work).Ensures fun out => ∀ r, out = .ok r → ∃ s, r.step = vec s ∧
      r.model = real (quadratic H g s) ∧ quadratic H g s ≤ 0 ∧
      (k.safeguard = .unlimited → ∀ t : ℝ, 0 ≤ t → ‖o + t • projected B C (-g)‖ ≤ δ →
        quadratic H g s ≤ quadratic H g (t • projected B C (-g))) := by
  have hrival : k.safeguard = .unlimited → ∀ t : ℝ, 0 ≤ t → ‖o + t • projected B C (-g)‖ ≤ δ →
      Rival k o δ 0 (projected B C (-(g + H 0))) (start k.g (vec o)) (t • projected B C (-g)) := by
    intro hsafe t ht hin
    refine .inr ⟨⟨hsafe, heps, rfl, rfl⟩, t, ht, ?_, ?_⟩
    · rwa [add_zero, map_zero, add_zero]
    · rw [zero_add, map_zero, add_zero]
  refine ((falls_invariant hk hg hδ ho).answers (hk.acts hg hcut) w work).mono fun out hout r hr => ?_
  cases hout r hr with
  | refused hchecks =>
    have hstart := start_at (H := H) hg o
    refine ⟨0, hstart.step, hstart.model, quadratic_zero.le, fun hsafe => ?_⟩
    exact absurd (hchecks.eq_none hsafe (hδ ▸ real_le.mpr ho)) nofun
  | @spent s it h hcount =>
    refine ⟨s, h.tracks.step, h.tracks.model, h.nonpos, fun hsafe t ht hin => ?_⟩
    rcases h.beats with ⟨-, rfl⟩ | hall
    · have hnone : 0 = k.par.iterMax := hcount
      omega
    · exact hall _ (hrival hsafe t ht hin)
  | stopped _ h hturn =>
    obtain ⟨s', hvalues, -, hnonpos, hbeats⟩ := h.turn hk hδ hturn
    exact ⟨s', hvalues.step, hvalues.model, hnonpos, fun hsafe t ht hin => hbeats _ (hrival hsafe t ht hin)⟩

end Solve

/-- From an offset in the trust region a solve comes to a step where the model is not positive, and none of its passes
raises the model, whatever fractions a safeguard leaves of its steps. Without a safeguard the model at the step is no
higher than at any Cauchy step in the trust region. -/
theorem solve_le_cauchy (hk : Linear { k with safeguard := .unlimited } H B C) (hfit : k.Fits n) (hg : k.g = vec g)
    (hδ : k.δ = real δ) (hcut : k.safeguard.Cuts n) (ho : ‖o‖ ≤ δ) (hiter : 1 ≤ k.par.iterMax) (heps : k.par.eps < 1)
    {w : Vec (Exact ε)} (hw : w.length = n) {work : ℕ} (hwork : workLength n k.par.orthogMax ≤ work) :
    ((solve k (vec o) w work).Yields fun out => ∃ r s, out = .ok r ∧ r.step = vec s ∧
      r.model = real (quadratic H g s) ∧ quadratic H g s ≤ 0 ∧
      (k.safeguard = .unlimited → ∀ t : ℝ, 0 ≤ t → ‖o + t • projected B C (-g)‖ ≤ δ →
        quadratic H g s ≤ quadratic H g (t • projected B C (-g)))) ∧
    ∀ it out, Visits k (start k.g (vec o)) it → Passes k it out → out.iterate.model ≤ it.model := by
  constructor
  · have hsolve := (solve_sized hfit (length_vec (v := o)) hw hwork).and
      (solve_beats hk hg hδ hcut ho hiter heps w work)
    refine hsolve.mono ?_
    rintro out ⟨⟨r, rfl, -⟩, hbeats⟩
    obtain ⟨s, hs⟩ := hbeats r rfl
    exact ⟨r, s, rfl, hs⟩
  · intro it out hvisits hpass
    obtain ⟨u, hu, -⟩ := (start_tracks (H := H) (k := k) hg ho).visits hk hg hδ hcut hvisits
    exact hu.model_le hk hg hδ hcut hpass

end TruncatedCG

/-! ### A model without positive curvature -/

/-- Minus the identity. -/
def Operator.reflection {F : Type} [Scalar F] (n : ℕ) : Operator F :=
  selfAdjoint n fun a x b y => Checked.axpby (-a) x b y

theorem Operator.reflection_acts (n : ℕ) :
    (reflection n : Operator (Exact ε)).Acts (-LinearMap.id : Euclidean n →ₗ[ℝ] Euclidean n) where
  rows := rfl
  cols := rfl
  apply a b s y := by
    refine (axpby_ensures (-a) b s y).mono fun z hz => ?_
    rw [hz, LinearMap.neg_apply, LinearMap.id_apply, smul_neg, neg_smul]
  applyTransposed a b w z := by
    refine (axpby_ensures (-a) b w z).mono fun v hv => ?_
    rw [hv, map_neg, LinearMap.adjoint_id, LinearMap.neg_apply, LinearMap.id_apply, smul_neg, neg_smul]

theorem Operator.reflection_fills {F : Type} [Scalar F] (n : ℕ) : (reflection n : Operator F).Fills n n :=
  selfAdjoint_fills fun a _ b _ hx hy => yields_lift (Checked.answers_axpby (-a) b hx hy)

namespace TruncatedCG

/-- A model that falls in all directions, with the gradient along the first axis. -/
noncomputable def falling : Model (Exact ε) where
  par := ⟨1, 0, 0, 0, 0, 0, 0⟩
  H := .reflection 2
  B := .identity 2
  C := .identity 2
  g := vec (EuclideanSpace.single 0 1 : Euclidean 2)
  δ := 1
  safeguard := .unlimited

theorem falling_linear : Linear (n := 2) (falling : Model (Exact ε)) (-LinearMap.id) LinearMap.id LinearMap.id where
  hessian := Operator.reflection_acts 2
  symmetric u v := by simp
  preconditioner := Operator.identity_acts 2
  preconditioner_symmetric _ _ := rfl
  preconditioner_nonneg _ := real_inner_self_nonneg
  projector := Operator.identity_acts 2
  projector_symmetric _ _ := rfl
  idempotent _ := rfl
  safeguard := rfl
  eps := ⟨0, rfl, le_rfl⟩
  epsSym := ⟨0, rfl, le_rfl⟩
  epsProj := ⟨0, rfl, le_rfl⟩
  epsOrth := ⟨0, rfl, le_rfl⟩

theorem falling_fits : (falling : Model (Exact ε)).Fits 2 where
  hessian := Operator.reflection_fills 2
  preconditioner := Operator.identity_fills 2
  projector := Operator.identity_fills 2
  gradient := length_vec
  safeguard := Safeguard.unlimited_fills 2

theorem solve_le_cauchy_falling :
    let k : Model (Exact ⟨1, Set.mem_Ioi.mpr one_pos⟩) := falling
    let g : Euclidean 2 := EuclideanSpace.single 0 1
    let o : Euclidean 2 := EuclideanSpace.single 1 (1 / 2)
    let I : Euclidean 2 →ₗ[ℝ] Euclidean 2 := LinearMap.id
    (Linear { k with safeguard := .unlimited } (-I) I I ∧ k.Fits 2 ∧ k.safeguard.Cuts 2 ∧ ‖o‖ ≤ 1 ∧ k.par.eps < 1) ∧
    ((solve k (vec o) (Vec.zeros 2) 22).Yields fun out => ∃ r s, out = .ok r ∧ r.step = vec s ∧
      r.model = real (quadratic (-I) g s) ∧ quadratic (-I) g s ≤ 0 ∧
      (k.safeguard = .unlimited → ∀ t : ℝ, 0 ≤ t → ‖o + t • projected I I (-g)‖ ≤ 1 →
        quadratic (-I) g s ≤ quadratic (-I) g (t • projected I I (-g)))) ∧
    ∀ it out, Visits k (start k.g (vec o)) it → Passes k it out → out.iterate.model ≤ it.model := by
  intro k g o I
  have ho : ‖o‖ ≤ 1 := by
    rw [PiLp.norm_single, Real.norm_of_nonneg (by norm_num)]
    norm_num
  have heps : k.par.eps < 1 := real_lt.mpr zero_lt_one
  exact ⟨⟨falling_linear, falling_fits, Safeguard.unlimited_cuts, ho, heps⟩,
    solve_le_cauchy falling_linear falling_fits rfl rfl Safeguard.unlimited_cuts ho le_rfl heps (Vec.length_zeros 2) (by decide)⟩

end TruncatedCG
end ConstrainedOpt
