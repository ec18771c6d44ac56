import ConstrainedOpt.Step.Quasinormal
import ConstrainedOpt.Proofs.Step.Fractions
import ConstrainedOpt.Proofs.Step.NormalEquations

/-! # Quasinormal steps, exactly

`Ends` lists the exits of a solve with what the bounds and the residuals answered on the way, and what holds of every step is
read off it. Whichever exit it takes, a step stays within its radius and within the safeguard; when its operator acts as a
linear map it vanishes or reduces the linearised violation.
-/
namespace ConstrainedOpt.Quasinormal
open Exact Journaled Metric
variable {ε : Set.Ioi (0 : ℝ)} {n m : ℕ} {A : Operator (Exact ε)} {L : Euclidean n →ₗ[ℝ] Euclidean m}
  {g : Euclidean m} {sg : Safeguard (Exact ε)} {safe : Set (Euclidean n)} {radius : ℝ}
  {k : Context (Exact ε)} {x p s c : Euclidean n} {par : QuasinormalParam (Exact ε)}

/-! ### Paths -/

inductive Bound where
  | trustRegion
  | safeguard

/-- The paths that a bound may cut: to the Cauchy point, from there to the Newton point, and straight to the Newton point. -/
inductive Path where
  | cauchy
  | dogleg
  | newton

/-- The reason of a step that ends where the bound cuts the path. -/
def Path.stop : Path → Bound → QuasinormalStop
  | .cauchy, .trustRegion => .cauchyTrustRegion
  | .cauchy, .safeguard => .cauchySafeguard
  | .dogleg, .trustRegion => .doglegTrustRegion
  | .dogleg, .safeguard => .doglegSafeguard
  | .newton, .trustRegion => .newtonTrustRegion
  | .newton, .safeguard => .newtonSafeguard

/-- The reason of a step along a path to the Newton point. -/
def Path.reason (path : Path) : Option Bound → QuasinormalStop
  | none => .newton
  | some b => path.stop b

/-- The first bound of a path that the trust region cuts at `t` and the safeguard at `u`, and the fraction there. -/
inductive Cuts (t u : ℝ) : Option Bound → ℝ → Prop
  | safeguard (h1 : u < 1) (hut : u ≤ t) : Cuts t u (some .safeguard) u
  | trustRegion (h1 : t < 1) (htu : t < u) : Cuts t u (some .trustRegion) t
  | whole (ht : t = 1) (hu : u = 1) : Cuts t u none 1

section Cuts
variable {t u θ : ℝ} {b : Option Bound}

theorem Cuts.le (h : Cuts t u b θ) : θ ≤ t ∧ θ ≤ u := by
  cases h with
  | safeguard _ hut => exact ⟨hut, le_rfl⟩
  | trustRegion _ htu => exact ⟨le_rfl, htu.le⟩
  | whole ht hu => exact ⟨ht.ge, hu.ge⟩

theorem Cuts.nonneg (h : Cuts t u b θ) (ht : 0 ≤ t) (hu : 0 ≤ u) : 0 ≤ θ := by
  cases h with
  | safeguard => exact hu
  | trustRegion => exact ht
  | whole => exact zero_le_one

/-- Neither comparison of the two fractions holds for a path that is not cut. -/
theorem Cuts.of_not (ht : t ≤ 1) (hu : u ≤ 1) (hs : ¬(real u < (1 : Exact ε) ∧ (real u : Exact ε) ≤ real t)) :
    real t < (1 : Exact ε) ∧ Cuts t u (some .trustRegion) t ∨ ¬real t < (1 : Exact ε) ∧ Cuts t u none 1 := by
  rw [one_eq, real_lt, real_le] at hs
  rw [one_eq, real_lt]
  rcases ht.lt_or_eq with h1 | h1
  · refine .inl ⟨h1, .trustRegion h1 ?_⟩
    by_contra hut
    exact hs ⟨(not_lt.mp hut).trans_lt h1, not_lt.mp hut⟩
  · refine .inr ⟨h1.not_lt, .whole h1 ?_⟩
    by_contra hne
    exact hs ⟨lt_of_le_of_ne hu hne, h1 ▸ hu⟩

theorem cut_spec (ht : t ≤ 1) (hu : u ≤ 1) (path : Path) :
    ∃ b θ, cut (real t : Exact ε) (real u) (path.stop .trustRegion) (path.stop .safeguard) = (real θ, path.reason b) ∧
      Cuts t u b θ := by
  unfold cut
  by_cases hs : real u < (1 : Exact ε) ∧ (real u : Exact ε) ≤ real t
  · rw [if_pos hs]
    exact ⟨some .safeguard, u, rfl, .safeguard (real_lt.mp hs.1) (real_le.mp hs.2)⟩
  · rw [if_neg hs]
    rcases Cuts.of_not ht hu hs with ⟨h1, hcuts⟩ | ⟨h1, hcuts⟩
    · rw [if_pos h1]
      exact ⟨some .trustRegion, t, rfl, hcuts⟩
    · rw [if_neg h1]
      exact ⟨none, 1, rfl, hcuts⟩

end Cuts

theorem radialFraction_spec (hr : 0 ≤ radius) (p : Euclidean n) :
    ∃ t, radialFraction (real ‖p‖ : Exact ε) (real radius) = real t ∧ IsGreatest (fractions (closedBall 0 radius) 0 p) t := by
  have hmem : ∀ t : ℝ, 0 ≤ t → (0 + t • p ∈ closedBall (0 : Euclidean n) radius ↔ t * ‖p‖ ≤ radius) := by
    intro t ht
    rw [mem_closedBall_zero_iff, zero_add, norm_smul, Real.norm_of_nonneg ht]
  unfold radialFraction
  by_cases h : radius < ‖p‖
  · have hp : 0 < ‖p‖ := hr.trans_lt h
    rw [if_pos (real_lt.mpr h), real_div hp.ne']
    have hle : ∀ t : ℝ, 0 ≤ t → (0 + t • p ∈ closedBall (0 : Euclidean n) radius ↔ t ≤ radius / ‖p‖) := fun t ht =>
      (hmem t ht).trans (le_div_iff₀ hp).symm
    have h0 : 0 ≤ radius / ‖p‖ := div_nonneg hr hp.le
    exact ⟨_, rfl, ⟨h0, (div_le_one hp).mpr h.le, (hle _ h0).mpr le_rfl⟩, fun t ht => (hle t ht.1).mp ht.2.2⟩
  · rw [if_neg (mt real_lt.mp h)]
    refine ⟨1, rfl, isGreatest_one ?_⟩
    rw [mem_closedBall_zero_iff, zero_add]
    exact not_lt.mp h

theorem boundary_spec {a : Exact ε} (hx : ‖x‖ ≤ radius) (h : boundary (vec x) (vec p) (real radius) = .ok a) :
    ∃ t, a = real t ∧ IsGreatest (fractions (closedBall 0 radius) x p) t := by
  obtain ⟨e, he, h⟩ := Checked.bind_eq_ok.mp h
  obtain ⟨σ, rfl, hσ, hin, hlast⟩ := Sphere.exit_spec hx zero_le_one he
  rw [one_eq, minNum_real] at h
  cases h
  have hwithin : Within Set.univ (real radius : Exact ε) x := ⟨real_le.mpr hx, trivial⟩
  refine ⟨_, rfl, ⟨le_min hσ zero_le_one, min_le_right _ _, ?_⟩, fun t ht => le_min ?_ ht.2.1⟩
  · rw [mem_closedBall_zero_iff]
    exact real_le.mp (hwithin.upTo Safeguard.unlimited_guards (real_le.mpr hin) trivial (le_min hσ zero_le_one)
      (min_le_left _ _) (min_le_left _ _)).norm
  · by_cases hp : p = 0
    · -- along a zero direction the exit is the end of the path
      subst hp
      unfold Sphere.exit at he
      rw [inner_vec, inner_zero_left, zero_eq, if_pos (real_le.mpr le_rfl)] at he
      cases he
      exact ht.2.1
    · exact (hlast hp).2 t (mem_closedBall_zero_iff.mp ht.2.2)

/-- The first bound cuts the path from `x` along `p` at the fraction `θ`, as far as the safeguard answered. -/
def Follows (sg : Safeguard (Exact ε)) (safe : Set (Euclidean n)) (radius : ℝ) (x p : Euclidean n) (b : Option Bound)
    (θ : ℝ) : Prop :=
  ∃ t u, IsGreatest (fractions (closedBall 0 radius) x p) t ∧ u ∈ fractions safe x p ∧
    (∃ call, (sg.fraction call (vec x) (vec p)).Returns (real u)) ∧ Cuts t u b θ

section Follows
variable {b : Option Bound} {θ : ℝ}

theorem Follows.fraction (h : Follows sg safe radius x p b θ) : 0 ≤ θ ∧ θ ≤ 1 := by
  obtain ⟨t, u, ht, hu, -, hcuts⟩ := h
  exact ⟨hcuts.nonneg ht.1.1 hu.1, hcuts.le.2.trans hu.2.1⟩

theorem Follows.within (hsg : sg.Guards safe) (hx : Within safe (real radius : Exact ε) x)
    (h : Follows sg safe radius x p b θ) : Within safe (real radius : Exact ε) (x + θ • p) := by
  obtain ⟨t, u, ht, hu, -, hcuts⟩ := h
  exact hx.upTo hsg (real_le.mpr (mem_closedBall_zero_iff.mp ht.1.2.2)) hu.2.2 (hcuts.nonneg ht.1.1 hu.1) hcuts.le.1 hcuts.le.2

theorem Follows.within_zero (hsg : sg.Guards safe) (hzero : Within safe (real radius : Exact ε) 0)
    (h : Follows sg safe radius 0 p b θ) : Within safe (real radius : Exact ε) (θ • p) := by
  have hwithin := h.within hsg hzero
  rwa [zero_add] at hwithin

theorem Follows.within_end (hsg : sg.Guards safe) (hzero : Within safe (real radius : Exact ε) 0)
    (h : Follows sg safe radius 0 p none 1) : Within safe (real radius : Exact ε) p := by
  have hwithin := h.within_zero hsg hzero
  rwa [one_smul] at hwithin

/-- From a safe base the safeguard answers with a fraction of the path that is safe. -/
theorem fraction_ensures (hsg : sg.Guards safe) (call : ℕ) (hx : x ∈ safe) (p : Euclidean n) :
    (sg.fraction call (vec x) (vec p)).Ensures fun a => ∃ u, a = real u ∧ u ∈ fractions safe x p ∧
      (sg.fraction call (vec x) (vec p)).Returns (real u) := by
  refine ((hsg.fraction call x p hx).and (ensures_returns _)).mono ?_
  rintro _ ⟨⟨u, rfl, h0, h1, hmem, -⟩, hreturns⟩
  exact ⟨u, rfl, ⟨h0, h1, hmem⟩, hreturns⟩

end Follows

/-! ### From the Cauchy point -/

/-- What the choice of a step starts from: bounds that admit zero, and the Cauchy point `c` with its residual. -/
structure Opens (k : Context (Exact ε)) (safe : Set (Euclidean n)) (radius : ℝ) (c : Euclidean n) : Prop where
  guards : k.safeguard.Guards safe
  zero : Within safe (real radius : Exact ε) 0
  radius_eq : k.radius = real radius
  cauchy : k.cauchy = vec c
  cauchyResidual : (residual k.A k.g (vec c)).Returns k.cauchyResidual

/-- The residual of a step does not exceed that of the Cauchy point. -/
def Accepts (k : Context (Exact ε)) (s : Euclidean n) : Prop := ∃ a, (residual k.A k.g (vec s)).Returns a ∧ a ≤ k.cauchyResidual

def Rejects (k : Context (Exact ε)) (s : Euclidean n) : Prop :=
  ∃ a, (residual k.A k.g (vec s)).Returns a ∧ ¬ a ≤ k.cauchyResidual

/-- The Cauchy point solves the linearised constraint, or the Newton point is not wanted. -/
def Settles (par : QuasinormalParam (Exact ε)) (k : Context (Exact ε)) : Prop :=
  k.cauchyResidual ≤ par.epsSolved * Vec.norm k.g ∨ par.newton = false

/-- The normal equations may answer with the Newton point `p`. -/
def IsNewton (par : QuasinormalParam (Exact ε)) (A : Operator (Exact ε)) (gx : Vec (Exact ε)) (p : Euclidean n) : Prop :=
  ∃ iter, (NormalEquations.leastNorm par.normalEq A gx (Vec.zeros A.cols)
    (NormalEquations.workLength A.rows A.cols)).Returns ⟨vec p, .ok iter⟩

/-- The bounds admit the Cauchy point, and the Newton point is tried. -/
structure Tries (par : QuasinormalParam (Exact ε)) (k : Context (Exact ε)) (safe : Set (Euclidean n)) (radius : ℝ)
    (c p : Euclidean n) : Prop where
  whole : Follows k.safeguard safe radius 0 c none 1
  unsettled : ¬ Settles par k
  newton : IsNewton par k.A k.g p

/-- The ways from the Cauchy point `c` to a step, with the Newton point if one was computed, and the reason. -/
inductive Exit (par : QuasinormalParam (Exact ε)) (k : Context (Exact ε)) (safe : Set (Euclidean n)) (radius : ℝ)
    (c : Euclidean n) : Option (Euclidean n) → Euclidean n → QuasinormalStop → Prop
  /-- A bound cuts the Cauchy point. -/
  | cut {b : Bound} {θ : ℝ} (hcut : Follows k.safeguard safe radius 0 c (some b) θ) :
      Exit par k safe radius c none (θ • c) (Path.cauchy.stop b)
  /-- The Cauchy point is all that is wanted. -/
  | settled (hwhole : Follows k.safeguard safe radius 0 c none 1) (hsettles : Settles par k) :
      Exit par k safe radius c none c .cauchySolved
  /-- The bounds admit the Newton point. -/
  | newton {p : Euclidean n} (htries : Tries par k safe radius c p) (hnorm : ‖p‖ ≤ radius) (hsafe : p ∈ safe)
      (haccepts : Accepts k p) : Exit par k safe radius c (some p) p .newton
  /-- The step ends on the way from the Cauchy point to the Newton point. -/
  | dogleg {p : Euclidean n} {b : Option Bound} {θ : ℝ} (htries : Tries par k safe radius c p)
      (hleg : Follows k.safeguard safe radius c (p - c) b θ) (haccepts : Accepts k (c + θ • (p - c))) :
      Exit par k safe radius c (some p) (c + θ • (p - c)) (Path.dogleg.reason b)
  /-- The step ends on the way from zero to the Newton point. -/
  | part {p : Euclidean n} {b b' : Option Bound} {θ θ' : ℝ} (htries : Tries par k safe radius c p)
      (hleg : Follows k.safeguard safe radius c (p - c) b' θ') (hrejects : Rejects k (c + θ' • (p - c)))
      (hpart : Follows k.safeguard safe radius 0 p b θ) (haccepts : Accepts k (θ • p)) :
      Exit par k safe radius c (some p) (θ • p) (Path.newton.reason b)
  /-- No way to the Newton point reduces the residual. -/
  | fallback {p : Euclidean n} {b : Option Bound} {θ : ℝ} (htries : Tries par k safe radius c p)
      (hleg : Follows k.safeguard safe radius c (p - c) b θ) (hrejects : Rejects k (c + θ • (p - c))) :
      Exit par k safe radius c (some p) c .cauchySolved

section Opens
variable (hk : Opens k safe radius c)
include hk

theorem newtonInside_ensures (p : Euclidean n) (call : ℕ) :
    (newtonInside k (vec p) call).Ensures fun r => r.1 = true → ‖p‖ ≤ radius ∧ p ∈ safe ∧ Accepts k p := by
  unfold newtonInside
  refine ensures_bind (ensures_returns _) fun r hr => ?_
  rw [hk.radius_eq, norm_vec]
  split
  case isTrue h =>
    rw [zerosLike_vec]
    refine ensures_bind (fraction_ensures hk.guards call hk.zero.safe p) ?_
    rintro _ ⟨u, rfl, ⟨-, hu1, hsafe⟩, -⟩
    refine ensures_pure fun hle => ⟨real_le.mp h.1, ?_, r, hr, h.2⟩
    have hu : u = 1 := le_antisymm hu1 (real_le.mp (of_decide_eq_true hle))
    rwa [hu, one_smul, zero_add] at hsafe
  case isFalse => exact ensures_pure nofun

theorem dogleg_ensures (hc : Within safe (real radius : Exact ε) c) (p : Euclidean n) (call : ℕ) :
    (dogleg k (vec p) call).Ensures fun r => ∃ b θ, r = (vec (c + θ • (p - c)), Path.dogleg.reason b) ∧
      Follows k.safeguard safe radius c (p - c) b θ := by
  unfold dogleg
  rw [hk.cauchy, hk.radius_eq]
  refine ensures_bind (ensures_lift fun leg hleg => checked_add_eq_ok (a := -1) hleg) ?_
  rintro _ rfl
  rw [neg_one_smul, ← sub_eq_add_neg]
  refine ensures_bind (ensures_lift fun trust ht => boundary_spec (real_le.mp hc.norm) ht) ?_
  rintro _ ⟨t, rfl, ht⟩
  refine ensures_bind (fraction_ensures hk.guards call hc.safe _) ?_
  rintro _ ⟨u, rfl, hu, hreturns⟩
  obtain ⟨b, θ, hcut, hcuts⟩ := cut_spec (ε := ε) ht.1.2.1 hu.2.1 .dogleg
  have hcut : cut (real t : Exact ε) (real u) .doglegTrustRegion .doglegSafeguard = (real θ, Path.dogleg.reason b) := hcut
  dsimp only
  rw [hcut]
  refine ensures_bind (ensures_lift fun z hz => checked_add_eq_ok hz) ?_
  rintro _ rfl
  exact ensures_pure ⟨b, θ, rfl, t, u, ht, hu, ⟨call, hreturns⟩, hcuts⟩

theorem newtonPart_ensures (p : Euclidean n) (call : ℕ) :
    (newtonPart k (vec p) call).Ensures fun r => ∃ b θ, r = (vec (θ • p), Path.newton.reason b) ∧
      Follows k.safeguard safe radius 0 p b θ := by
  have hradius : 0 ≤ radius := (norm_nonneg _).trans (real_le.mp hk.zero.norm)
  obtain ⟨t, htrust, ht⟩ := radialFraction_spec (ε := ε) hradius p
  unfold newtonPart
  rw [hk.radius_eq, norm_vec, htrust, zerosLike_vec]
  refine ensures_bind (fraction_ensures hk.guards call hk.zero.safe p) ?_
  rintro _ ⟨u, rfl, hu, hreturns⟩
  obtain ⟨b, θ, hcut, hcuts⟩ := cut_spec (ε := ε) ht.1.2.1 hu.2.1 .newton
  have hcut : cut (real t : Exact ε) (real u) .newtonTrustRegion .newtonSafeguard = (real θ, Path.newton.reason b) := hcut
  dsimp only
  rw [hcut, scale_vec]
  exact ensures_pure ⟨b, θ, rfl, t, u, ht, hu, ⟨call, hreturns⟩, hcuts⟩

theorem choose_ensures (htries : Tries par k safe radius c p) (call : ℕ) :
    (choose k (vec p) call).Ensures fun r => ∃ s, r.1 = vec s ∧ Exit par k safe radius c (some p) s r.2 := by
  unfold choose
  refine ensures_bind (newtonInside_ensures hk p call) ?_
  rintro ⟨inside, call⟩ hinside
  dsimp only
  split
  case isTrue h =>
    obtain ⟨hnorm, hsafe, haccepts⟩ := hinside h
    exact ensures_pure ⟨p, rfl, .newton htries hnorm hsafe haccepts⟩
  case isFalse =>
    refine ensures_bind (dogleg_ensures hk (htries.whole.within_end hk.guards hk.zero) p call) ?_
    rintro _ ⟨b, θ, rfl, hleg⟩
    refine ensures_bind (ensures_returns _) fun r hr => ?_
    split
    case isTrue h => exact ensures_pure ⟨_, rfl, .dogleg htries hleg ⟨r, hr, h⟩⟩
    case isFalse hr' =>
      refine ensures_bind (newtonPart_ensures hk p _) ?_
      rintro _ ⟨b', θ', rfl, hpart⟩
      refine ensures_bind (ensures_returns _) fun a ha => ?_
      split
      case isTrue h => exact ensures_pure ⟨_, rfl, .part htries hleg ⟨r, hr, hr'⟩ hpart ⟨a, ha, h⟩⟩
      case isFalse => exact ensures_pure ⟨c, hk.cauchy, .fallback htries hleg ⟨r, hr, hr'⟩⟩

end Opens

/-! ### The step -/

/-- The negative gradient of half the squared violation, and what the operator makes of it. -/
structure Slopes (A : Operator (Exact ε)) (gx : Vec (Exact ε)) (d : Euclidean n) (Ad : Vec (Exact ε)) : Prop where
  gradient : (A.applyTransposed (-1) gx 0 (Vec.zeros A.cols)).Returns (vec d)
  image : (A.apply 1 (vec d) 0 (Vec.zeros A.rows)).Returns Ad

/-- Neither of the two vanishes. -/
def Steep (d : Euclidean n) (Ad : Vec (Exact ε)) : Prop := 0 < Vec.inner (vec d) (vec d : Vec (Exact ε)) ∧ 0 < Vec.inner Ad Ad

/-- The exits of a solve: the Newton point if one was computed, the step, the Cauchy point and the record. -/
inductive Ends (par : QuasinormalParam (Exact ε)) (A : Operator (Exact ε)) (gx : Vec (Exact ε)) (sg : Safeguard (Exact ε))
    (safe : Set (Euclidean n)) (radius : ℝ) :
    Option (Euclidean n) → Euclidean n → Euclidean n → QuasinormalReport (Exact ε) → Prop
  | skipped (hrows : A.rows = 0) : Ends par A gx sg safe radius none 0 0 ⟨.skipped, 0, 0⟩
  | stationary {d : Euclidean n} {Ad : Vec (Exact ε)} (hrows : A.rows ≠ 0) (hslopes : Slopes A gx d Ad)
      (hflat : ¬ Steep d Ad) : Ends par A gx sg safe radius none 0 0 ⟨.cauchySolved, Vec.norm gx, 0⟩
  | started {d c s : Euclidean n} {Ad : Vec (Exact ε)} {q : Option (Euclidean n)} {a r : Exact ε} {stop : QuasinormalStop}
      {iter : ℕ} (hrows : A.rows ≠ 0) (hslopes : Slopes A gx d Ad) (hsteep : Steep d Ad)
      (hcauchy : vec c = Vec.scale (Vec.inner (vec d) (vec d) / Vec.inner Ad Ad) (vec d))
      (hopens : Opens ⟨A, gx, real radius, sg, vec c, a⟩ safe radius c)
      (hexit : Exit par ⟨A, gx, real radius, sg, vec c, a⟩ safe radius c q s stop)
      (hresidual : (residual A gx (vec s)).Returns r) : Ends par A gx sg safe radius q s c ⟨stop, r, iter⟩

/-- A solve without an error leaves real vectors with a property. -/
def Leaves (P : Option (Euclidean n) → Euclidean n → Euclidean n → QuasinormalReport (Exact ε) → Prop)
    (r : QuasinormalStep (Exact ε)) : Prop :=
  ∀ report, r.outcome = .ok report → ∃ q s c, r.step = vec s ∧ r.cauchy = vec c ∧ P q s c report

theorem finish_ensures {P : Option (Euclidean n) → Euclidean n → Euclidean n → QuasinormalReport (Exact ε) → Prop}
    {gx : Vec (Exact ε)} {stop : QuasinormalStop} {q : Option (Euclidean n)}
    (h : ∀ a iter, (residual A gx (vec s)).Returns a → P q s c ⟨stop, a, iter⟩) (normG : Exact ε) (iter : ℕ) :
    (finish A gx normG (vec s) (vec c) stop iter).Ensures (Leaves P) := by
  refine ensures_bind (ensures_returns _) fun a ha => ensures_bind (ensures_true _) fun _ _ => ensures_pure ?_
  rintro _ ⟨⟩
  exact ⟨q, s, c, rfl, rfl, h a iter ha⟩

variable {δ ζ : ℝ}

theorem fromCauchy_ensures (hA : A.Pulls n m) (hsg : sg.Guards safe) (hzero : Within safe (real (ζ * δ) : Exact ε) 0)
    (hζ : par.zeta = real ζ) {gx : Vec (Exact ε)} (hrows : A.rows ≠ 0) {d : Euclidean n} {Ad : Vec (Exact ε)}
    (hslopes : Slopes A gx d Ad) (hsteep : Steep d Ad)
    (hcauchy : vec c = Vec.scale (Vec.inner (vec d) (vec d) / Vec.inner Ad Ad) (vec d)) :
    (fromCauchy par A gx (real δ) sg (Vec.norm gx) (vec c)).Ensures (Leaves (Ends par A gx sg safe (ζ * δ))) := by
  have hradius : 0 ≤ ζ * δ := (norm_nonneg _).trans (real_le.mp hzero.norm)
  obtain ⟨t, htrust, ht⟩ := radialFraction_spec (ε := ε) hradius c
  unfold fromCauchy
  refine ensures_bind (ensures_returns _) fun a ha => ?_
  let k : Context (Exact ε) := ⟨A, gx, real (ζ * δ), sg, vec c, a⟩
  have hopens : Opens k safe (ζ * δ) c := ⟨hsg, hzero, rfl, rfl, ha⟩
  have hfinish : ∀ {q s stop} (iter : ℕ), Exit par k safe (ζ * δ) c q s stop →
      (finish A gx (Vec.norm gx) (vec s) (vec c) stop iter).Ensures (Leaves (Ends par A gx sg safe (ζ * δ))) :=
    fun iter hexit => finish_ensures (fun _ _ hr => .started hrows hslopes hsteep hcauchy hopens hexit hr) _ iter
  dsimp only
  rw [hζ, real_mul, norm_vec, htrust, zerosLike_vec]
  refine ensures_bind (fraction_ensures hsg 0 hzero.safe c) ?_
  rintro _ ⟨u, rfl, hu, hreturns⟩
  have hfollows : ∀ {b θ}, Cuts t u b θ → Follows sg safe (ζ * δ) 0 c b θ := fun hcuts =>
    ⟨t, u, ht, hu, ⟨0, hreturns⟩, hcuts⟩
  by_cases hs : real u < (1 : Exact ε) ∧ (real u : Exact ε) ≤ real t
  · rw [if_pos hs, scale_vec]
    exact hfinish 0 (.cut (b := .safeguard) (hfollows (.safeguard (real_lt.mp hs.1) (real_le.mp hs.2))))
  · rw [if_neg hs]
    rcases Cuts.of_not ht.1.2.1 hu.2.1 hs with ⟨h1, hcuts⟩ | ⟨h1, hcuts⟩
    · rw [if_pos h1, scale_vec]
      exact hfinish 0 (.cut (b := .trustRegion) (hfollows hcuts))
    · rw [if_neg h1]
      split
      case isTrue hsettles => exact hfinish 0 (.settled (hfollows hcuts) (by simpa [Settles] using hsettles))
      case isFalse hunsettled =>
        refine ensures_bind ((NormalEquations.leastNorm_sound hA gx _).and (ensures_returns _)) fun newton hnewton => ?_
        split
        · exact ensures_pure nofun
        case h_2 iter hiter =>
          obtain ⟨hreal, hreturns⟩ := hnewton
          obtain ⟨p, hp⟩ := hreal iter hiter
          obtain ⟨_, _⟩ := newton
          cases hp
          cases hiter
          have htries : Tries par k safe (ζ * δ) c p :=
            ⟨hfollows hcuts, by simpa [Settles] using hunsettled, iter, hreturns⟩
          refine ensures_bind (choose_ensures hopens htries 1) ?_
          rintro ⟨_, stop⟩ ⟨s, rfl, hexit⟩
          exact hfinish iter hexit

theorem isFinite_div_of_pos {a : ℝ} {b : Exact ε} (hb : 0 < b) : ∃ τ, real a / b = real τ := by
  cases b with
  | nan => exact hb.elim
  | infinite s => exact ⟨0, rfl⟩
  | real b => exact ⟨a / b, real_div hb.ne'⟩

/-- A solve ends by one of its exits. -/
theorem solve_ends (hA : A.Pulls n m) (hsg : sg.Guards safe) (hzero : Within safe (real (ζ * δ) : Exact ε) 0)
    (hζ : par.zeta = real ζ) (gx step cauchy : Vec (Exact ε)) (work : ℕ) :
    (solve par A gx (real δ) sg step cauchy work).Ensures (Leaves (Ends par A gx sg safe (ζ * δ))) := by
  have hnull : (Vec.zeros A.cols : Vec (Exact ε)) = vec (0 : Euclidean n) := by rw [hA.cols, zeros_eq]
  unfold solve
  split
  · exact ensures_bind (ensures_true _) fun _ _ => ensures_pure nofun
  case isFalse hlen =>
    split
    · exact ensures_bind (ensures_true _) fun _ _ => ensures_pure nofun
    · dsimp only
      split
      case isTrue hrows =>
        refine ensures_pure ?_
        rintro _ ⟨⟩
        exact ⟨none, 0, 0, hnull, hnull, .skipped hrows⟩
      case isFalse hrows =>
        split
        · exact ensures_pure nofun
        case isFalse hfin =>
          have hlen : gx.length = m := by
            by_contra hne
            exact hlen (.inl (hA.rows ▸ hne))
          obtain ⟨g, hg⟩ := exists_vec hlen (Vec.isFinite_of_norm (by simpa using hfin))
          have hdescent := hA.real (-1) 0 g 0
          rw [← hg, ← hnull] at hdescent
          refine ensures_bind (hdescent.and (ensures_returns _)) ?_
          rintro _ ⟨⟨d, rfl⟩, hgradient⟩
          refine ensures_bind (ensures_returns _) fun Ad himage => ?_
          have hslopes : Slopes A gx d Ad := ⟨hgradient, himage⟩
          split
          case isTrue hflat =>
            refine ensures_pure ?_
            rintro _ ⟨⟩
            exact ⟨none, 0, 0, hnull, hnull, .stationary hrows hslopes hflat⟩
          case isFalse h =>
            have hsteep : Steep d Ad := not_not.mp h
            obtain ⟨τ, hτ⟩ := isFinite_div_of_pos (a := inner ℝ d d) hsteep.2
            rw [inner_vec, hτ, scale_vec]
            refine fromCauchy_ensures hA hsg hzero hζ hrows hslopes hsteep ?_
            rw [inner_vec, hτ, scale_vec]

/-! ### Bounds and violation -/

/-- A step that was computed without error has a property. -/
def Computes (P : Euclidean n → Prop) (r : QuasinormalStep (Exact ε)) : Prop :=
  ∀ report, r.outcome = .ok report → ∃ s, r.step = vec s ∧ P s

theorem Exit.within {q : Option (Euclidean n)} {stop : QuasinormalStop} (hk : Opens k safe radius c)
    (h : Exit par k safe radius c q s stop) : Within safe (real radius : Exact ε) s := by
  cases h with
  | cut hcut => exact hcut.within_zero hk.guards hk.zero
  | settled hwhole => exact hwhole.within_end hk.guards hk.zero
  | newton _ hnorm hsafe => exact ⟨real_le.mpr hnorm, hsafe⟩
  | dogleg htries hleg => exact hleg.within hk.guards (htries.whole.within_end hk.guards hk.zero)
  | part _ _ _ hpart => exact hpart.within_zero hk.guards hk.zero
  | fallback htries => exact htries.whole.within_end hk.guards hk.zero

/-- A step is a part of the Cauchy point or does not lose against it. -/
theorem Exit.part_or_accepts {q : Option (Euclidean n)} {stop : QuasinormalStop} (h : Exit par k safe radius c q s stop) :
    (∃ θ : ℝ, 0 ≤ θ ∧ θ ≤ 1 ∧ s = θ • c) ∨ Accepts k s := by
  cases h with
  | cut hcut => exact .inl ⟨_, hcut.fraction.1, hcut.fraction.2, rfl⟩
  | settled | fallback => exact .inl ⟨1, zero_le_one, le_rfl, (one_smul ℝ _).symm⟩
  | newton _ _ _ haccepts | dogleg _ _ haccepts | part _ _ _ _ haccepts => exact .inr haccepts

theorem Ends.within {q : Option (Euclidean n)} {gx : Vec (Exact ε)} {report : QuasinormalReport (Exact ε)}
    (hzero : Within safe (real radius : Exact ε) 0) (h : Ends par A gx sg safe radius q s c report) :
    Within safe (real radius : Exact ε) s := by
  cases h with
  | skipped | stationary => exact hzero
  | started _ _ _ _ hopens hexit => exact hexit.within hopens

/-- A quasinormal step keeps its bounds, whatever its operator is. -/
theorem solve_within (hA : A.Pulls n m) (hsg : sg.Guards safe) (hzero : Within safe (real (ζ * δ) : Exact ε) 0)
    (hζ : par.zeta = real ζ) (gx step cauchy : Vec (Exact ε)) (work : ℕ) :
    (solve par A gx (real δ) sg step cauchy work).Ensures (Computes (Within safe (real (ζ * δ) : Exact ε))) := by
  refine (solve_ends hA hsg hzero hζ gx step cauchy work).mono fun r hr report hreport => ?_
  obtain ⟨q, s, c, hs, -, hends⟩ := hr report hreport
  exact ⟨s, hs, hends.within hzero⟩

theorem residual_ensures (hA : A.Acts L) (g : Euclidean m) (s : Euclidean n) :
    (residual A (vec g) (vec s)).Ensures fun r => r = real ‖g + L s‖ := by
  refine ensures_bind (hA.apply 1 1 s g) ?_
  rintro _ rfl
  rw [norm_vec, one_smul, one_smul, add_comm]
  exact ensures_pure rfl

/-- Where the violation is least along its negative gradient: the square falls there by `ρ`. -/
structure IsCauchy (L : Euclidean n →ₗ[ℝ] Euclidean m) (g : Euclidean m) (c : Euclidean n) (ρ : ℝ) : Prop where
  along : ∃ τ : ℝ, 0 < τ ∧ c = -τ • LinearMap.adjoint L g
  pos : 0 < ρ
  norm_sq : ∀ θ : ℝ, ‖g + L (θ • c)‖ ^ 2 = ‖g‖ ^ 2 - θ * (2 - θ) * ρ

/-- Along the negative gradient `d` the square `‖g + t L d‖²` is least at `t = ‖d‖² / ‖L d‖²`. -/
theorem isCauchy {d : Euclidean n} (hd : d = -LinearMap.adjoint L g) (hdd : 0 < inner ℝ d d)
    (hLL : 0 < inner ℝ (L d) (L d)) :
    IsCauchy L g ((inner ℝ d d / inner ℝ (L d) (L d)) • d) (inner ℝ d d / inner ℝ (L d) (L d) * inner ℝ d d) where
  along := ⟨_, div_pos hdd hLL, by rw [hd, smul_neg, neg_smul]⟩
  pos := mul_pos (div_pos hdd hLL) hdd
  norm_sq θ := by
    have hslope : inner ℝ g (L d) = -inner ℝ d d := by
      rw [← LinearMap.adjoint_inner_left, ← neg_eq_iff_eq_neg.mpr hd, inner_neg_left]
    generalize hτ : inner ℝ d d / inner ℝ (L d) (L d) = τ
    have hcurve : τ * ‖L d‖ ^ 2 = inner ℝ d d := by
      rw [← real_inner_self_eq_norm_sq, ← hτ, div_mul_cancel₀ _ hLL.ne']
    rw [map_smul, map_smul, smul_smul, norm_add_sq_real, inner_smul_right, norm_smul, mul_pow, Real.norm_eq_abs,
      sq_abs, hslope]
    linear_combination θ ^ 2 * τ * hcurve

/-- A part of the Cauchy point reduces the violation. -/
theorem IsCauchy.reduces {ρ θ : ℝ} (h : IsCauchy L g c ρ) (h0 : 0 < θ) (h1 : θ ≤ 1) : ‖g + L (θ • c)‖ < ‖g‖ := by
  have hfall : 0 < θ * (2 - θ) * ρ := mul_pos (mul_pos h0 (by linarith)) h.pos
  refine lt_of_pow_lt_pow_left₀ 2 (norm_nonneg g) ?_
  rw [h.norm_sq]
  linarith

theorem Slopes.acts (hA : A.Acts L) {d : Euclidean n} {Ad : Vec (Exact ε)} (h : Slopes A (vec g) d Ad) :
    d = -LinearMap.adjoint L g ∧ Ad = vec (L d) := by
  obtain ⟨hgradient, himage⟩ := h
  rw [hA.cols, zeros_eq] at hgradient
  rw [hA.rows, zeros_eq] at himage
  have hd := hgradient.ensured (hA.applyTransposed (-1) 0 g 0)
  have hAd := himage.ensured (hA.apply 1 0 d 0)
  rw [smul_zero, add_zero, neg_one_smul] at hd
  rw [smul_zero, add_zero, one_smul] at hAd
  exact ⟨vec_inj.mp hd, hAd⟩

/-- A solve with a linear map starts from the Cauchy point of the map. -/
theorem Slopes.isCauchy (hA : A.Acts L) {d : Euclidean n} {Ad : Vec (Exact ε)} (h : Slopes A (vec g) d Ad)
    (hsteep : Steep d Ad) (hc : vec c = Vec.scale (Vec.inner (vec d) (vec d) / Vec.inner Ad Ad) (vec d : Vec (Exact ε))) :
    ∃ ρ, IsCauchy L g c ρ := by
  obtain ⟨hd, rfl⟩ := h.acts hA
  obtain ⟨hdd, hLL⟩ := hsteep
  rw [inner_vec] at hdd hLL
  rw [inner_vec, inner_vec, real_div (real_lt.mp hLL).ne', scale_vec] at hc
  rw [vec_inj.mp hc]
  exact ⟨_, Quasinormal.isCauchy hd (real_lt.mp hdd) (real_lt.mp hLL)⟩

theorem Accepts.le (hA : k.A.Acts L) (hg : k.g = vec g) (hk : Opens k safe radius c) (h : Accepts k s) :
    ‖g + L s‖ ≤ ‖g + L c‖ := by
  obtain ⟨a, ha, hle⟩ := h
  have hc := hk.cauchyResidual
  rw [hg] at ha hc
  rw [ha.ensured (residual_ensures hA g s), hc.ensured (residual_ensures hA g c)] at hle
  exact real_le.mp hle

theorem Ends.reduces (hA : A.Acts L) {q : Option (Euclidean n)} {report : QuasinormalReport (Exact ε)}
    (h : Ends par A (vec g) sg safe radius q s c report) : s = 0 ∨ ‖g + L s‖ < ‖g‖ := by
  cases h with
  | skipped | stationary => exact .inl rfl
  | started _ hslopes hsteep hcauchy hopens hexit =>
    obtain ⟨ρ, hc⟩ := hslopes.isCauchy hA hsteep hcauchy
    rcases hexit.part_or_accepts with ⟨θ, h0, h1, rfl⟩ | haccepts
    · rcases h0.eq_or_lt with rfl | h0
      · exact .inl (zero_smul ℝ c)
      · exact .inr (hc.reduces h0 h1)
    · have hle := haccepts.le hA rfl hopens
      have hcauchy := hc.reduces one_pos le_rfl
      rw [one_smul] at hcauchy
      exact .inr (hle.trans_lt hcauchy)

/-- A quasinormal step vanishes or reduces the linearised violation. -/
theorem solve_reduces (hA : A.Acts L) (hsg : sg.Guards safe) (hzero : Within safe (real (ζ * δ) : Exact ε) 0)
    (hζ : par.zeta = real ζ) (g : Euclidean m) (step cauchy : Vec (Exact ε)) (work : ℕ) :
    (solve par A (vec g) (real δ) sg step cauchy work).Ensures
      (Computes fun s => s = 0 ∨ ‖g + L s‖ < ‖g‖) := by
  refine (solve_ends hA.pulls hsg hzero hζ (vec g) step cauchy work).mono fun r hr report hreport => ?_
  obtain ⟨q, s, c, hs, -, hends⟩ := hr report hreport
  exact ⟨s, hs, hends.reduces hA⟩

end ConstrainedOpt.Quasinormal
