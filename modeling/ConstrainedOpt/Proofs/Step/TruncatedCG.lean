import ConstrainedOpt.Proofs.Step.Descent
import ConstrainedOpt.Proofs.Step.Effort
import ConstrainedOpt.Proofs.Step.Safeguard

/-! # Truncated conjugate gradients, exactly

From an offset within the trust region and the safeguard the recurrence never leaves them, whatever its
operators are as long as they propagate what is undefined, and its steps stay in the space the projector projects to.
Where the operators are linear the step does not raise the model, and comes with the value of the model at it.
-/
namespace ConstrainedOpt
open Exact Journaled

/-- The stops that blame the offset. -/
def TruncatedStop.BlamesOffset (stop : TruncatedStop) : Prop :=
  stop = .offsetViolatesTrustRegion ∨ stop = .offsetViolatesSafeguard

namespace TruncatedCG
variable {ε : Set.Ioi (0 : ℝ)} {n : ℕ} {k : Model (Exact ε)} {V : Submodule ℝ (Euclidean n)}
  {safe : Set (Euclidean n)} {o s : Euclidean n} {it : Iterate (Exact ε)}

/-- What is asked of the parts of a model: operators that propagate, a projector into `V`, a safeguard of `safe`. -/
structure Parts (k : Model (Exact ε)) (V : Submodule ℝ (Euclidean n)) (safe : Set (Euclidean n)) : Prop where
  hessian : k.H.Propagates n
  projector : k.C.Strict
  into : ∀ x, (k.C.apply 1 x 0 (vec (0 : Euclidean n))).Ensures fun z => Vec.isFinite z = true → ∃ v ∈ V, z = vec v
  guards : k.safeguard.Guards safe
  zero : 0 ∈ safe

/-- The sizes that are tested before the first pass. -/
structure Fits (k : Model (Exact ε)) (n : ℕ) : Prop where
  hessian : k.H.cols = n
  projector : k.C.cols = n
  gradient : k.g.length = n

/-- The step `s` of an iterate is in `V` and within the bounds, and the model is no higher there than at zero. -/
structure Reached (k : Model (Exact ε)) (V : Submodule ℝ (Euclidean n)) (safe : Set (Euclidean n))
    (o s : Euclidean n) (it : Iterate (Exact ε)) : Prop where
  mem : s ∈ V
  step : it.s = vec s
  within : Within safe k.δ (o + s)
  value : ∀ H g, Reads k H g → it.model = real (quadratic H g s) ∧ quadratic H g s ≤ 0

/-- The invariant of the passes, at the step `s`. -/
structure Follows (k : Model (Exact ε)) (V : Submodule ℝ (Euclidean n)) (safe : Set (Euclidean n))
    (o s : Euclidean n) (it : Iterate (Exact ε)) : Prop where
  mem : s ∈ V
  step : it.s = vec s
  point : it.x = vec (o + s)
  within : Within safe k.δ (o + s)
  residual : it.r.length = n
  previous : ∀ prev, it.previous = some prev →
    k.H.Curves n ∧ ∃ p ∈ V, ∃ c : ℝ, prev.p = vec p ∧ prev.rz = real c
  descends : ∀ H g, Reads k H g → Descends H g s it

/-- What a pass leaves. -/
def Progress.Keeps (k : Model (Exact ε)) (V : Submodule ℝ (Euclidean n)) (safe : Set (Euclidean n))
    (o : Euclidean n) : Progress (Exact ε) → Prop
  | .next it => ∃ s, Follows k V safe o s it
  | .stop reason it => ¬ reason.BlamesOffset ∧ ∃ s, Reached k V safe o s it

theorem Follows.reached (h : Follows k V safe o s it) : ∃ s, Reached k V safe o s it :=
  ⟨s, h.mem, h.step, h.within, fun H g hr => ⟨(h.descends H g hr).model, (h.descends H g hr).nonpos⟩⟩

/-- The invariant is about the step, the point, the residual, the model and the last pass only. -/
theorem Follows.of_eq {it' : Iterate (Exact ε)} (h : Follows k V safe o s it) (hs : it'.s = it.s) (hx : it'.x = it.x)
    (hr : it'.r = it.r) (hmodel : it'.model = it.model) (hprevious : it'.previous = it.previous) :
    Follows k V safe o s it' where
  mem := h.mem
  step := hs.trans h.step
  point := hx.trans h.point
  within := h.within
  residual := hr ▸ h.residual
  previous := hprevious ▸ h.previous
  descends H g hread := by
    obtain ⟨h1, h2, h3, h4⟩ := h.descends H g hread
    exact ⟨hr.trans h1, hmodel.trans h2, h3, hprevious ▸ h4⟩

/-! ### Preconditioning and faults -/

/-- The residual is real when its projection is, and what comes of it is in `V`. -/
theorem precondition_ensures (hk : Parts k V safe) (hfit : Fits k n) {r : Vec (Exact ε)} (hr : r.length = n) :
    (precondition k r).Ensures fun
      | .ok z => (∃ w : Euclidean n, r = vec w) ∧ ∃ v ∈ V, z = vec v
      | .error fault => ¬ fault.BlamesOffset := by
  unfold precondition
  rw [zerosLike_of_length hr]
  refine ensures_bind (hk.projector r _ (hr.trans hfit.projector.symm)) fun once honce => ?_
  refine ensures_bind (ensures_true _) fun twice _ => ensures_bind (ensures_true _) fun change _ => ?_
  dsimp only
  split
  · exact ensures_pure nofun
  case isFalse hfin =>
    have hw := exists_vec hr (honce (Vec.isFinite_of_norm (by simpa using hfin)))
    split
    · exact ensures_pure nofun
    · refine ensures_bind (ensures_true _) fun b _ => ensures_bind (hk.into b) fun z hz => ?_
      split
      · exact ensures_pure nofun
      case isFalse hzfin => exact ensures_pure ⟨hw, hz (by simpa using hzfin)⟩

theorem residualFault_ensures (z : Vec (Exact ε)) (rz : Exact ε) :
    Ensures (liftM (residualFault? k.par it z rz) : Journaled (Exact ε) (Option TruncatedStop)) fun o =>
      ∀ fault, o = some fault → ¬ fault.BlamesOffset := by
  refine ensures_lift fun o ho => ?_
  unfold residualFault? at ho
  split at ho
  · cases ho
    nofun
  · obtain ⟨b, -, ho⟩ := Checked.bind_eq_ok.mp ho
    split at ho
    · cases ho
      rintro _ ⟨⟩
      nofun
    · obtain ⟨lost, -, ho⟩ := Checked.bind_eq_ok.mp ho
      split at ho <;> cases ho
      · rintro _ ⟨⟩
        nofun
      · nofun

theorem directionFault_ensures (p hp : Vec (Exact ε)) :
    Ensures (liftM (directionFault? k.par it p hp) : Journaled (Exact ε) (Option TruncatedStop)) fun o =>
      ∀ fault, o = some fault → ¬ fault.BlamesOffset := by
  refine ensures_lift fun o ho => ?_
  unfold directionFault? at ho
  split at ho
  · cases ho
    nofun
  · obtain ⟨b, -, ho⟩ := Checked.bind_eq_ok.mp ho
    split at ho <;> cases ho
    · rintro _ ⟨⟩
      nofun
    · nofun

/-- A direction is in `V`, or none of its entries is real. That takes a pass before it, which has found some curvature. -/
def Aims (V : Submodule ℝ (Euclidean n)) (A : Operator (Exact ε)) (p : Vec (Exact ε)) : Prop :=
  (∃ v ∈ V, p = vec v) ∨ p.length = n ∧ Vec.Unreal p ∧ A.Curves n

theorem direction_ensures (hit : Follows k V safe o s it) {z : Euclidean n} (hz : z ∈ V) (rz : ℝ) :
    Ensures (liftM (direction it (vec z) (real rz)) : Journaled (Exact ε) (Vec (Exact ε))) (Aims V k.H) := by
  refine ensures_lift fun p hp => ?_
  unfold direction at hp
  split at hp
  · cases hp
    exact .inl ⟨z, hz, rfl⟩
  case h_2 prev hprev =>
    obtain ⟨hcurves, d, hd, c, hpd, hc⟩ := hit.previous prev hprev
    rw [hpd, hc] at hp
    rcases Checked.real_or_unreal_of_add hp with ⟨t, rfl⟩ | ⟨-, hlen, hnone⟩
    · exact .inl ⟨_, V.add_mem (V.smul_mem t hd) hz, rfl⟩
    · exact .inr ⟨hlen, hnone, hcurves⟩

/-! ### Following a direction -/

section Follow
variable {p : Euclidean n} {d : Vec (Exact ε)} {rz : ℝ} {rp κ : Exact ε}

/-- A length along the direction ends on the boundary of the trust region or within. -/
theorem exit_within {x p : Euclidean n} {δ c : Exact ε} (hx : real ‖x‖ ≤ δ) (hδ : Scalar.isFinite δ = true)
    (h : Sphere.exit 0 (vec x) (vec p) δ = .ok c) : ∃ σ, c = real σ ∧ 0 ≤ σ ∧ real ‖x + σ • p‖ ≤ δ := by
  obtain ⟨radius, rfl⟩ := isFinite_iff.mp hδ
  obtain ⟨σ, hσ, h0, hin, -⟩ := Sphere.exit_spec (real_le.mp hx) le_rfl h
  exact ⟨σ, hσ, h0, real_le.mpr hin⟩

/-- The length `t`, or the one to the boundary of the trust region if that comes before. -/
theorem length_within {x p : Euclidean n} {δ c : Exact ε} {t : ℝ} (hx : real ‖x‖ ≤ δ)
    (h : (if decide (δ ≤ real ‖x + t • p‖) = true then Sphere.exit 0 (vec x) (vec p) δ else .ok (real t)) = .ok c) :
    ∃ a, c = real a ∧ real ‖x + a • p‖ ≤ δ ∧ (¬ δ ≤ real ‖x + t • p‖ → a = t) := by
  split at h
  case isTrue hout =>
    have hout := of_decide_eq_true hout
    have hδ : Scalar.isFinite δ = true := by
      rcases bound_cases hx with hδ | ⟨d, hδ, -⟩
      · exact absurd (hδ ▸ hout) not_infinite_le
      · exact hδ ▸ isFinite_real
    obtain ⟨a, rfl, -, ha⟩ := exit_within hx hδ h
    exact ⟨a, rfl, ha, fun hin => absurd hout hin⟩
  case isFalse hin =>
    cases h
    have hin := of_decide_eq_false (Bool.not_eq_true _ ▸ hin)
    refine ⟨t, rfl, ?_, fun _ => rfl⟩
    rcases bound_cases hx with hδ | ⟨d, hδ, -⟩
    · exact hδ ▸ le_infinite
    · exact hδ ▸ real_le.mpr (le_of_not_ge fun hle => hin (hδ ▸ real_le.mpr hle))

theorem followNegative_ensures (hk : Parts k V safe) (hit : Follows k V safe o s it) (hp : p ∈ V) (hκ : κ ≤ 0)
    (halong : ∀ H g, Reads k H g → Along H g s p d rz rp κ) :
    (followNegative k it (vec p) rp κ).Ensures (Progress.Keeps k V safe o) := by
  unfold followNegative
  refine ensures_bind (P := fun σ => ∃ t, σ = real t ∧ 0 ≤ t ∧ real ‖o + s + t • p‖ ≤ k.δ)
    (ensures_lift fun σ hσ => ?_) ?_
  · rw [hit.point] at hσ
    split at hσ
    case isTrue hδ => exact exit_within hit.within.norm hδ hσ
    case isFalse hδ =>
      have hfree : k.δ = infinite false := by
        rcases bound_cases hit.within.norm with h | ⟨d, h, -⟩
        · exact h
        · exact absurd (h ▸ isFinite_real) hδ
      rw [hfree]
      split at hσ <;> cases hσ
      · exact ⟨1, rfl, zero_le_one, le_infinite⟩
      · exact ⟨0, rfl, le_rfl, le_infinite⟩
  · rintro _ ⟨t, rfl, ht0, ht⟩
    rw [scale_vec, hit.point]
    refine ensures_bind (hk.guards.fraction _ _ (t • p) hit.within.safe) ?_
    rintro _ ⟨u, rfl, hu0, hu1, hsafe, -⟩
    dsimp only
    rw [real_mul, hit.step]
    refine ensures_bind (ensures_lift fun _ h => checked_add_eq_ok h) ?_
    rintro _ rfl
    have hcut := hit.within.cut ht hsafe hu0 hu1
    rw [smul_smul, mul_comm u t, add_assoc] at hcut
    refine ensures_pure ⟨nofun, _, V.add_mem hit.mem (V.smul_mem (t * u) hp), rfl, hcut, fun H g hread => ?_⟩
    have hdescends := hit.descends H g hread
    have ha := halong H g hread
    refine ⟨?_, (ha.quadratic_le_of_curvature hread.symmetric hκ (mul_nonneg ht0 hu0)).trans hdescends.nonpos⟩
    change modelAfter it.model _ rp κ = _
    rw [hdescends.model]
    exact ha.modelAfter_eq hread.symmetric _

theorem restart_ensures (hfit : Fits k n) (hit : Follows k V safe o s it) (hp : p ∈ V) {a u : ℝ}
    (ha : real ‖o + s + a • p‖ ≤ k.δ) (hsafe : o + s + u • a • p ∈ safe) (hu0 : 0 ≤ u) (hu1 : u ≤ 1)
    (halong : ∀ H g, Reads k H g → Along H g s p d rz rp κ ∧ 0 ≤ inner ℝ p (H p) ∧
      quadratic H g (s + a • p) ≤ quadratic H g s) :
    (restart k it (vec p) (real a) (real u) rp κ).Ensures (Progress.Keeps k V safe o) := by
  have hcut := hit.within.cut ha hsafe hu0 hu1
  rw [smul_smul, mul_comm u a, add_assoc] at hcut
  have hmem : s + (a * u) • p ∈ V := V.add_mem hit.mem (V.smul_mem _ hp)
  have hvalue : ∀ H g, Reads k H g →
      modelAfter it.model (real (a * u)) rp κ = real (quadratic H g (s + (a * u) • p)) ∧
        quadratic H g (s + (a * u) • p) ≤ 0 := by
    intro H g hread
    obtain ⟨hdir, hcurved, hle⟩ := halong H g hread
    have hdescends := hit.descends H g hread
    rw [hdescends.model]
    exact ⟨hdir.modelAfter_eq hread.symmetric _,
      (quadratic_cut_le hread.symmetric hcurved hu0 hu1 hle).trans hdescends.nonpos⟩
  unfold restart
  dsimp only
  rw [real_mul, hit.step, hit.point]
  refine ensures_bind (ensures_lift fun _ h => checked_add_eq_ok h) ?_
  rintro _ rfl
  refine ensures_bind (ensures_lift fun _ h => checked_add_eq_ok h) ?_
  rintro _ rfl
  split
  · exact ensures_pure ⟨nofun, _, hmem, rfl, hcut, hvalue⟩
  · refine ensures_bind (ensures_true _) fun _ _ => ?_
    rw [zerosLike_vec]
    refine ensures_bind (P := fun hs => ∀ H g, Reads k H g → hs = vec (H (s + (a * u) • p))) ?_ fun hs hhs => ?_
    · refine ensures_forall fun H => ensures_forall fun g => ensures_forall fun hread => ?_
      refine (hread.hessian.apply 1 0 _ 0).mono fun z hz => ?_
      rwa [one_smul, smul_zero, add_zero] at hz
    refine ensures_bind (P := fun r => r.length = n ∧
      ∀ H g, Reads k H g → Vec.scale (-1) r = vec (-(g + H (s + (a * u) • p)))) (ensures_lift fun r hr => ?_) fun r hr => ?_
    · refine ⟨?_, fun H g hread => ?_⟩
      · obtain ⟨hlen, rfl⟩ := Checked.add_eq_ok.mp hr
        rw [Vec.length_add, ← hlen, hfit.gradient, min_self]
      · rw [hread.gradient, hhs H g hread] at hr
        rw [checked_add_eq_ok (a := 1) hr, one_eq, real_neg, scale_vec, neg_one_smul, one_smul, add_comm]
    · refine ensures_pure ⟨_, hmem, rfl, by rw [add_assoc], hcut, (Vec.length_scale _ _).trans hr.1, nofun, ?_⟩
      exact fun H g hread => ⟨hr.2 H g hread, (hvalue H g hread).1, (hvalue H g hread).2, nofun⟩

theorem followPositive_ensures (hk : Parts k V safe) (hfit : Fits k n) (hit : Follows k V safe o s it)
    (hcurves : k.H.Curves n) (hp : p ∈ V) (z : Vec (Exact ε)) {c : ℝ} (hc : κ = real c) (hκ : 0 < c)
    (halong : ∀ H g, Reads k H g → Along H g s p d rz rp κ) :
    (followPositive k it z (vec p) d (real rz) rp κ).Ensures (Progress.Keeps k V safe o) := by
  have hcurved : ∀ H g, Reads k H g → c = inner ℝ p (H p) := fun H g hread =>
    real_inj.mp (hc.symm.trans (halong H g hread).curvature)
  unfold followPositive
  dsimp only
  rw [hc, real_div hκ.ne', hit.point]
  refine ensures_bind (ensures_lift fun _ h => checked_add_eq_ok h) ?_
  rintro _ rfl
  rw [norm_vec]
  -- the minimum along the direction, or the boundary before it
  refine ensures_bind (P := fun α => ∃ a, α = real a ∧ real ‖o + s + a • p‖ ≤ k.δ ∧
    (¬ k.δ ≤ real ‖o + s + (rz / c) • p‖ → a = rz / c)) (ensures_lift fun _ => length_within hit.within.norm) ?_
  · rintro _ ⟨a, rfl, ha, hmin⟩
    split
    · exact ensures_pure ⟨nofun, hit.reached⟩
    case isFalse hdown =>
      have hvalue : ∀ H g, Reads k H g → modelAfter it.model (real a) rp (real c) = real (quadratic H g (s + a • p)) ∧
          quadratic H g (s + a • p) ≤ quadratic H g s := by
        intro H g hread
        have hmodel := (hit.descends H g hread).model
        have hafter := (halong H g hread).modelAfter_eq hread.symmetric a
        rw [← hmodel, hc] at hafter
        rw [hafter, hmodel] at hdown
        exact ⟨hafter, not_lt.mp (mt real_lt.mpr hdown)⟩
      rw [scale_vec]
      refine ensures_bind (hk.guards.fraction _ _ (a • p) hit.within.safe) ?_
      rintro _ ⟨u, rfl, hu0, hu1, hsafe, -⟩
      split
      case isTrue =>
        have hit' : Follows k V safe o s { it with x := vec (o + s), calls := it.calls + 1 } :=
          hit.of_eq rfl hit.point.symm rfl rfl rfl
        have hcut : ∀ H g, Reads k H g → Along H g s p d rz rp (real c) ∧ 0 ≤ inner ℝ p (H p) ∧
            quadratic H g (s + a • p) ≤ quadratic H g s := fun H g hread =>
          ⟨hc ▸ halong H g hread, hcurved H g hread ▸ hκ.le, (hvalue H g hread).2⟩
        exact restart_ensures hfit hit' hp ha hsafe hu0 hu1 hcut
      case isFalse hu =>
        have hu : u = 1 := le_antisymm hu1 (not_lt.mp (mt real_lt.mpr hu))
        rw [hu, one_smul] at hsafe
        have hnext : Within safe k.δ (o + (s + a • p)) := add_assoc o s (a • p) ▸ ⟨ha, hsafe⟩
        have hmem : s + a • p ∈ V := V.add_mem hit.mem (V.smul_mem a hp)
        have hnonpos : ∀ H g, Reads k H g → modelAfter it.model (real a) rp (real c) = real (quadratic H g (s + a • p)) ∧
            quadratic H g (s + a • p) ≤ 0 := fun H g hread =>
          ⟨(hvalue H g hread).1, (hvalue H g hread).2.trans (hit.descends H g hread).nonpos⟩
        rw [hit.step]
        refine ensures_bind (ensures_lift fun _ h => checked_add_eq_ok h) ?_
        rintro _ rfl
        refine ensures_bind (ensures_lift fun _ h => checked_add_eq_ok (u := p) h) ?_
        rintro _ rfl
        split
        · exact ensures_pure ⟨nofun, _, hmem, rfl, hnext, hnonpos⟩
        case isFalse hinside =>
          have hinside := of_decide_eq_false (Bool.not_eq_true _ ▸ hinside)
          refine ensures_bind (P := fun r => r.length = n ∧ ∀ H g, Reads k H g → r = vec (-(g + H (s + a • p))))
            (ensures_lift fun r hr => ⟨(Checked.add_length hr).trans hit.residual, fun H g hread => ?_⟩) fun r hr => ?_
          · rw [(halong H g hread).image, (hit.descends H g hread).residual, real_neg] at hr
            rw [checked_add_eq_ok hr, map_add, map_smul, neg_smul, ← sub_eq_add_neg, sub_eq_neg_add, ← neg_add]
            congr 2
            abel
          · refine ensures_pure ⟨_, hmem, rfl, by rw [add_assoc], hnext, hr.1, ?_, fun H g hread => ⟨hr.2 H g hread,
              (hnonpos H g hread).1, (hnonpos H g hread).2, ?_⟩⟩
            · rintro _ ⟨⟩
              exact ⟨hcurves, p, hp, rz, rfl, rfl⟩
            · rintro _ q ⟨⟩ hq
              rw [← vec_inj.mp hq, hmin hinside, hcurved H g hread]
              exact (halong H g hread).conjugate_minimum (hcurved H g hread ▸ hκ.ne')

end Follow

/-! ### Passes -/

theorem follow_ensures (hk : Parts k V safe) (hfit : Fits k n) (hit : Follows k V safe o s it) (z : Vec (Exact ε))
    {p : Euclidean n} (hp : p ∈ V) {d : Vec (Exact ε)} (hd : Vec.isFinite d = true)
    (himage : (k.H.apply 1 (vec p) 0 (vec (0 : Euclidean n))).Returns d) (rz : ℝ) (normZ : Exact ε)
    (halong : ∀ H g, Reads k H g → d = vec (H p) ∧ inner ℝ (-(g + H s)) p = rz ∧ 0 ≤ rz) :
    (follow k it z (vec p) d (real rz) normZ).Ensures (Progress.Keeps k V safe o) := by
  have hit' : Follows k V safe o s { it with iter := it.iter + 1 } := hit.of_eq rfl rfl rfl rfl rfl
  unfold follow
  refine ensures_bind (P := fun κ => ∃ x, κ = real x ∧ (0 < x → k.H.Curves n) ∧
    ∀ H g, Reads k H g → κ = real (inner ℝ p (H p))) (ensures_lift fun κ h => ?_) ?_
  · obtain ⟨hlen, rfl⟩ := Checked.inner_eq_ok.mp h
    obtain ⟨d, rfl⟩ := exists_vec (hlen.symm.trans length_vec) hd
    exact ⟨_, inner_vec, fun hpos => ⟨p, d, himage, hpos⟩, fun H g hread => by rw [(halong H g hread).1, inner_vec]⟩
  · rintro _ ⟨κ, rfl, hκ, hcurved⟩
    refine ensures_bind (P := fun rp => ∀ (H : Euclidean n →ₗ[ℝ] Euclidean n) g, Reads k H g → rp = real rz) (ensures_lift fun rp h H g hread => ?_)
      fun rp hrp => ensures_bind (ensures_true _) fun _ _ => ?_
    · rw [(hit'.descends H g hread).residual] at h
      rw [checked_inner_eq_ok h, (halong H g hread).2.1]
    · have hall : ∀ H g, Reads k H g → Along H g s p d rz rp (real κ) := fun H g hread =>
        ⟨(halong H g hread).1, (halong H g hread).2.1, (halong H g hread).2.2, hrp H g hread, hcurved H g hread⟩
      split
      case isTrue h => exact followNegative_ensures hk hit' hp h hall
      case isFalse h =>
        have hpos : 0 < κ := lt_of_not_ge fun h0 => h (real_le.mpr h0)
        exact followPositive_ensures hk hfit hit' (hκ hpos) hp z rfl hpos hall

/-- The product with the Hessian is real for real directions only. -/
theorem hessian_ensures (hk : Parts k V safe) {p : Vec (Exact ε)} (hp : Aims V k.H p) :
    (k.H.apply 1 p 0 (Vec.zerosLike p)).Ensures fun d => Vec.isFinite d = true → ∃ v ∈ V, p = vec v := by
  rcases hp with hreal | ⟨hlen, hnone, hcurves⟩
  · exact (ensures_true _).mono fun _ _ _ => hreal
  · refine (hk.hessian hcurves p hlen hnone).mono fun d hd hfin => ?_
    rw [hd] at hfin
    cases hfin

/-- Of a real direction the product is what the Hessian makes of it. -/
theorem image_ensures (p : Vec (Exact ε)) : (k.H.apply 1 p 0 (Vec.zerosLike p)).Ensures fun d =>
    ∀ H : Euclidean n →ₗ[ℝ] Euclidean n, k.H.Acts H → ∀ v, p = vec v → d = vec (H v) := by
  refine ensures_forall fun H => ensures_forall fun hacts => ensures_forall fun v => ensures_forall ?_
  rintro rfl
  rw [zerosLike_vec]
  refine (hacts.apply 1 0 v 0).mono fun d hd => ?_
  rwa [one_smul, smul_zero, add_zero] at hd

/-- From the residual `w` the slope along the new direction is that along the preconditioned residual. -/
theorem Follows.direction_slope (hit : Follows k V safe o s it) {w : Euclidean n} (hw : it.r = vec w)
    (z : Euclidean n) (rz : Exact ε) :
    Ensures (liftM (direction it (vec z) rz) : Journaled (Exact ε) (Vec (Exact ε))) fun p =>
      ∀ (H : Euclidean n →ₗ[ℝ] Euclidean n) g, Reads k H g → ∀ v, p = vec v → inner ℝ w v = inner ℝ w z := by
  refine ensures_forall fun H => ensures_forall fun g => ensures_forall fun hread => ?_
  have hdescends := hit.descends H g hread
  refine TruncatedCG.direction_slope (fun prev hprev => ?_) (fun prev p hprev hp => ?_) rz
  · obtain ⟨-, p, -, c, hp, -⟩ := hit.previous prev hprev
    exact ⟨p, hp⟩
  · rw [vec_inj.mp (hw.symm.trans hdescends.residual)]
    exact hdescends.conjugate prev p hprev hp

theorem pass_ensures (hk : Parts k V safe) (hfit : Fits k n) (hit : Follows k V safe o s it) :
    (pass k it).Ensures (Progress.Keeps k V safe o) := by
  have hslope : (precondition k it.r).Ensures fun out => ∀ (H : Euclidean n →ₗ[ℝ] Euclidean n) g, Reads k H g →
      ∀ v, out = .ok (vec v) → 0 ≤ inner ℝ (-(g + H s)) v := by
    refine ensures_forall fun H => ensures_forall fun g => ensures_forall fun hread => ?_
    rw [(hit.descends H g hread).residual]
    exact precondition_slope hread _
  unfold pass
  refine ensures_bind ((precondition_ensures hk hfit hit.residual).and hslope) fun out hboth => ?_
  obtain ⟨hout, hdescent⟩ := hboth
  split
  · exact ensures_pure ⟨hout, hit.reached⟩
  case h_2 z =>
    obtain ⟨⟨w, hw⟩, z, hz, rfl⟩ := hout
    dsimp only
    have hit' : Follows k V safe o s (if it.iter = 0 then { it with normZ0 := Vec.norm (vec z) } else it) ∧
        (if it.iter = 0 then { it with normZ0 := Vec.norm (vec z) } else it).r = vec w := by
      split
      · exact ⟨hit.of_eq rfl rfl rfl rfl rfl, hw⟩
      · exact ⟨hit, hw⟩
    generalize (if it.iter = 0 then { it with normZ0 := Vec.norm (vec z) } else it) = it at hit'
    obtain ⟨hit, hw⟩ := hit'
    have hresidual : ∀ H g, Reads k H g → -(g + H s) = w := fun H g hread =>
      vec_inj.mp ((hit.descends H g hread).residual.symm.trans hw)
    split
    · exact ensures_pure ⟨nofun, hit.reached⟩
    · rw [hw]
      refine ensures_bind (ensures_lift fun rz h => checked_inner_eq_ok h) ?_
      rintro _ rfl
      refine ensures_bind (residualFault_ensures _ _) fun fault hfault => ?_
      split
      case h_1 fault => exact ensures_pure ⟨hfault _ rfl, hit.reached⟩
      case h_2 =>
        have hit' : Follows k V safe o s { it with
            r := vec w, slots := record k.par.orthogMax it.seq ⟨vec z, real (inner ℝ w z)⟩ it.slots } :=
          hit.of_eq rfl rfl hw.symm rfl rfl
        refine ensures_bind ((direction_ensures hit' hz _).and (hit'.direction_slope rfl z _)) fun p hboth => ?_
        obtain ⟨hp, hpslope⟩ := hboth
        have himage := (image_ensures (k := k) (n := n) p).and (ensures_returns _)
        refine ensures_bind ((hessian_ensures hk hp).and himage) fun d hboth => ?_
        obtain ⟨hreal, hd, hreturns⟩ := hboth
        split
        · exact ensures_pure ⟨nofun, hit'.reached⟩
        case isFalse hfin =>
          obtain ⟨p, hpV, rfl⟩ := hreal (by simpa using hfin)
          rw [zerosLike_vec] at hreturns
          refine ensures_bind (directionFault_ensures _ _) fun fault hfault => ?_
          split
          · exact ensures_pure ⟨hfault _ rfl, hit'.reached⟩
          · refine follow_ensures hk hfit hit' _ hpV (by simpa using hfin) hreturns _ _ fun H g hread => ?_
            have hw := hresidual H g hread
            refine ⟨hd H hread.hessian p rfl, ?_, hw ▸ hdescent H g hread z rfl⟩
            rw [hw]
            exact hpslope H g hread p rfl

theorem iterate_ensures (hk : Parts k V safe) (hfit : Fits k n) (budget : ℕ) (hit : Follows k V safe o s it) :
    (iterate k budget it).Ensures fun r => ¬ r.1.BlamesOffset ∧ ∃ s, Reached k V safe o s r.2 := by
  induction budget generalizing s it with
  | zero => exact ensures_pure ⟨nofun, hit.reached⟩
  | succ budget ih =>
    refine ensures_bind (pass_ensures hk hfit hit) ?_
    rintro (it | ⟨reason, it⟩) hit
    · obtain ⟨s, hit⟩ := hit
      exact ih hit
    · exact ensures_pure hit

/-- An offset in the trust region passes the test with its tolerance. -/
theorem offset_inside {δ : Exact ε} (ho : real ‖o‖ ≤ δ) : Vec.norm (vec o) ≤ δ * (1 + Scalar.sqrt Scalar.epsilon) := by
  have hε : 0 ≤ (ε : ℝ) := (Set.mem_Ioi.mp ε.2).le
  have hpos : 0 < 1 + Real.sqrt ε := by positivity
  have hsqrt : (1 : Exact ε) + Scalar.sqrt Scalar.epsilon = real (1 + Real.sqrt ε) :=
    congrArg (real 1 + ·) (sqrt_real hε)
  rw [norm_vec, hsqrt]
  rcases bound_cases ho with hδ | ⟨d, hδ, hd⟩ <;> rw [hδ]
  · rw [infinite_mul_of_pos hpos]
    exact le_infinite
  · rw [real_mul]
    exact real_le.mpr (hd.trans (le_mul_of_one_le_right ((norm_nonneg o).trans hd) (by linarith [Real.sqrt_nonneg ε])))

theorem offsetFault_ensures (hk : Parts k V safe) (ho : Within safe k.δ o) :
    (offsetFault? (vec o) k.δ k.safeguard).Ensures fun fault => fault = none := by
  unfold offsetFault?
  dsimp only
  rw [if_neg (not_not.mpr (offset_inside ho.norm)), zerosLike_vec]
  refine ensures_bind (hk.guards.fraction 0 0 o hk.zero) ?_
  rintro _ ⟨t, rfl, -, -, -, hone⟩
  rw [hone ((zero_add o).symm ▸ ho.safe), one_eq, if_neg (mt real_lt.mp (lt_irrefl 1))]
  exact ensures_pure rfl

/-- A solve has tested the sizes of its offset and of the vector it works on. -/
theorem solve_length (k : Model (Exact ε)) (offset s : Vec (Exact ε)) (work : ℕ) :
    (solve k offset s work).Ensures fun out => ∀ r, out = .ok r → offset.length = k.H.cols ∧ s.length = k.H.cols := by
  have hlengths : k.Admits offset s work → offset.length = k.H.cols ∧ s.length = k.H.cols := by
    intro h
    obtain ⟨-, hcols⟩ := Prod.ext_iff.mp h.hessian
    exact ⟨h.offset.trans hcols.symm, h.step.trans hcols.symm⟩
  refine (ensures_solve (P := fun _ _ => offset.length = k.H.cols ∧ s.length = k.H.cols)
    (fun h _ _ => hlengths h) fun h _ => (ensures_true _).mono fun _ _ => hlengths h).mono fun out hout r hr => ?_
  obtain ⟨-, -, -, h⟩ := hout r hr
  exact h

/-- Of the vector it works on a solve looks at the size only. -/
theorem solve_congr (k : Model (Exact ε)) (offset : Vec (Exact ε)) {s t : Vec (Exact ε)} (h : s.length = t.length)
    (work : ℕ) : solve k offset s work = solve k offset t work := by
  unfold solve
  rw [h]

theorem start_follows (hfit : Fits k n) (ho : Within safe k.δ o) : Follows k V safe o 0 (start k.g (vec o)) where
  mem := V.zero_mem
  step := (congrArg Vec.zeros hfit.gradient).trans zeros_eq
  point := by
    rw [add_zero]
    rfl
  within := by rwa [add_zero]
  residual := (Vec.length_scale _ _).trans hfit.gradient
  previous := nofun
  descends H g hread := by
    refine ⟨?_, congrArg real quadratic_zero.symm, quadratic_zero.le, nofun⟩
    change Vec.scale (-1) k.g = _
    rw [hread.gradient, one_eq, real_neg, scale_vec, map_zero, add_zero, neg_one_smul]

/-- From an offset within the bounds a solve answers what its passes end in. -/
theorem solve_iterates (hk : Parts k V safe) (ho : Within safe k.δ o) (s : Vec (Exact ε)) (work : ℕ)
    {P : TruncatedStop × Iterate (Exact ε) → Prop}
    (h : Fits k n → (iterate k k.par.iterMax (start k.g (vec o))).Ensures P) :
    (solve k (vec o) s work).Ensures fun out => ∀ r, out = .ok r → ∃ reason it, r = result reason it ∧ P (reason, it) := by
  refine ensures_solve (fun _ fault hfault => ?_) fun hadmits _ => h ?_
  · cases hfault.ensured (offsetFault_ensures hk ho)
  · have hlen : k.g.length = n := hadmits.offset.symm.trans length_vec
    exact ⟨(Prod.ext_iff.mp hadmits.hessian).2.trans hlen, (Prod.ext_iff.mp hadmits.projector).2.trans hlen, hlen⟩

/-- From an offset within the bounds the solve never blames the offset, and its step stays in the space of the
projector and within the bounds together with the offset, where the model is no higher than at zero. -/
theorem solve_ensures (hk : Parts k V safe) (ho : Within safe k.δ o) (s : Vec (Exact ε)) (work : ℕ) :
    (solve k (vec o) s work).Ensures fun out => ∀ r, out = .ok r →
      ¬ r.stop.BlamesOffset ∧ ∃ s ∈ V, r.step = vec s ∧ Within safe k.δ (o + s) ∧
        ∀ H g, Reads k H g → r.model = real (quadratic H g s) ∧ quadratic H g s ≤ 0 := by
  refine (solve_iterates hk ho s work fun hfit => iterate_ensures hk hfit _ (start_follows hfit ho)).mono ?_
  rintro out hout r hr
  obtain ⟨reason, it, rfl, hreason, s, hit⟩ := hout r hr
  exact ⟨hreason, s, hit.mem, hit.step, hit.within, hit.value⟩

end TruncatedCG
end ConstrainedOpt
