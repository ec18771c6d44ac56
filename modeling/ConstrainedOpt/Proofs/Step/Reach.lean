import ConstrainedOpt.Proofs.Exact.Strict
import ConstrainedOpt.Proofs.Step.Moves
import ConstrainedOpt.Proofs.Step.Segments

/-! # How far truncated conjugate gradients reach

Nothing is asked here of the operators of a model. Wherever a solve comes to from an offset, it stays in the trust region,
or in the ball that the offset lies on if that is larger, and in the safe set. A Hessian that is an operator on real vectors
makes every step real.
-/
namespace ConstrainedOpt
open Exact Journaled
variable {ε : Set.Ioi (0 : ℝ)} {n m : ℕ}

/-! ### Sums that are real -/

theorem Checked.exists_vec_of_add {a : Exact ε} {x y : Vec (Exact ε)} {w : Euclidean n}
    (h : Checked.add a x y = .ok (vec w)) : ∃ u v : Euclidean n, x = vec u ∧ y = vec v := by
  obtain ⟨hx, hy⟩ := Checked.isFinite_of_add h isFinite_vec
  have hylen : y.length = n := (Checked.add_length h).symm.trans length_vec
  obtain ⟨u, hu⟩ := exists_vec ((Checked.add_eq_ok.mp h).1.trans hylen) hx
  obtain ⟨v, hv⟩ := exists_vec hylen hy
  exact ⟨u, v, hu, hv⟩

/-- Only a real multiple of a vector that does not vanish is real. -/
theorem Exact.exists_real_of_scale {a : Exact ε} {p q : Euclidean n} (hp : p ≠ 0) (h : Vec.scale a (vec p) = vec q) :
    ∃ t, a = real t := by
  obtain ⟨i, -⟩ : ∃ i, p i ≠ 0 := by
    by_contra hall
    exact hp (PiLp.ext fun i => not_not.mp fun hi => hall ⟨i, hi⟩)
  have hentry : a * real (p i) ∈ Vec.scale a (vec p) := List.mem_map_of_mem (List.mem_ofFn.mpr ⟨i, rfl⟩)
  have hfin : Vec.isFinite (Vec.scale a (vec p)) = true := h ▸ isFinite_vec
  exact isFinite_iff.mp (isFinite_of_mul_left (List.all_eq_true.mp hfin _ hentry))

/-! ### Safeguards -/

/-- From a safe base the safeguard answers with a fraction that stays safe. -/
def Safeguard.Contains (sg : Safeguard (Exact ε)) (safe : Set (Euclidean n)) : Prop :=
  ∀ call x d, x ∈ safe → (sg.fraction call (vec x) (vec d)).Ensures fun θ =>
    ∃ t, θ = real t ∧ 0 ≤ t ∧ t ≤ 1 ∧ x + t • d ∈ safe

theorem Safeguard.Guards.contains {sg : Safeguard (Exact ε)} {safe : Set (Euclidean n)} (h : sg.Guards safe) :
    sg.Contains safe := by
  intro call x d hx
  refine (h.fraction call x d hx).mono ?_
  rintro θ ⟨t, ht, h0, h1, hsafe, -⟩
  exact ⟨t, ht, h0, h1, hsafe⟩

/-- Where every step is safe it is enough to answer with fractions. -/
theorem Safeguard.Cuts.contains {sg : Safeguard (Exact ε)} (h : sg.Cuts n) :
    sg.Contains (Set.univ : Set (Euclidean n)) := by
  intro call x d _
  refine (h call x d).mono ?_
  rintro θ ⟨t, ht, h0, h1⟩
  exact ⟨t, ht, h0, h1, trivial⟩

/-- The safeguard of a linearised constraint answers with fractions, from an unsafe base too. -/
theorem Safeguard.IsLinear.cuts {sg : Safeguard (Exact ε)} {A : Operator (Exact ε)} {J : Euclidean n →ₗ[ℝ] Euclidean m}
    {h : Euclidean m} {κ : ℝ} (hsg : sg.IsLinear A (vec h) (real κ)) (hA : A.Acts J) : sg.Cuts n := by
  intro call x d
  rw [hsg.eq]
  refine (linearFraction_spec hA h κ x d).mono ?_
  rintro _ (⟨rfl, -⟩ | ⟨-, z, rfl, hz⟩)
  · exact ⟨0, rfl, le_rfl, zero_le_one⟩
  · exact ⟨max z 0, rfl, le_max_right z 0, max_le ((hz z).mp le_rfl).1 zero_le_one⟩

namespace TruncatedCG
variable {k : Model (Exact ε)} {safe : Set (Euclidean n)} {δ : ℝ} {o x p : Euclidean n} {it it' : Iterate (Exact ε)}
  {z hp target : Vec (Exact ε)} {rz κ α θ : Exact ε}

/-! ### Containment -/

/-- The safe points within the trust region, or as far from zero as the offset is. -/
def reach (safe : Set (Euclidean n)) (δ : ℝ) (o : Euclidean n) : Set (Euclidean n) := {x | ‖x‖ ≤ max δ ‖o‖ ∧ x ∈ safe}

/-- A real step of the iterate is in reach. -/
def Iterate.Contained (safe : Set (Euclidean n)) (δ : ℝ) (o : Euclidean n) (it : Iterate (Exact ε)) : Prop :=
  ∀ s, it.s = vec s → it.x = vec (o + s) ∧ o + s ∈ reach safe δ o

/-- What a pass leaves in reach; it stops for the boundary only there, if the offset is not beyond. -/
def Progress.Contained (safe : Set (Euclidean n)) (δ : ℝ) (o : Euclidean n) : Progress (Exact ε) → Prop
  | .next it => it.Contained safe δ o
  | .stop reason it => ∀ s, it.s = vec s →
      o + s ∈ reach safe δ o ∧ (‖o‖ ≤ δ → reason = .trustRegionViolated → ‖o + s‖ = δ)

/-- A direction that curves upwards is not zero, and its curvature is real. -/
theorem Heads.curved (hheads : Heads k it z (vec p) hp rz κ) (hcurved : ¬ κ ≤ 0) :
    p ≠ 0 ∧ ∃ c, κ = real c ∧ 0 < c := by
  obtain ⟨hlen, hκ⟩ := Checked.inner_eq_ok.mp hheads.curvature
  obtain ⟨d, rfl⟩ := exists_vec (hlen.symm.trans length_vec) hheads.finite
  rw [inner_vec] at hκ
  rw [hκ, zero_eq, real_le, not_le] at hcurved
  refine ⟨?_, _, hκ, hcurved⟩
  rintro rfl
  rw [inner_zero_left] at hcurved
  exact hcurved.false

section Stride
variable {a : ℝ} (hstride : Stride k it (vec p) rz κ target (real a)) (hx : it.x = vec x) (hδ : k.δ = real δ)
include hstride hx hδ

/-- A stride ends in the trust region, or no further from zero than it starts. -/
theorem Stride.norm_le (h0 : 0 ≤ δ) : ‖x + a • p‖ ≤ max δ ‖x‖ := by
  obtain ⟨-, hends, hlength⟩ := hstride
  rw [hx] at hends hlength
  rw [hδ] at hlength
  split at hlength
  case isTrue =>
    obtain ⟨σ, hσ, hle⟩ := Sphere.exit_le h0 le_rfl hlength
    rwa [real_inj.mp hσ]
  case isFalse hin =>
    rw [Except.ok.inj hlength] at hends
    rw [checked_add_eq_ok hends, norm_vec, decide_eq_true_iff, real_le, not_le] at hin
    exact hin.le.trans (le_max_left _ _)

/-- From within the trust region a stride to a target beyond ends on the boundary. -/
theorem Stride.norm_eq (hin : ‖x‖ ≤ δ) (hp : p ≠ 0) (hout : k.δ ≤ Vec.norm target) : ‖x + a • p‖ = δ := by
  have hlength := hstride.length
  rw [if_pos (decide_eq_true hout), hx, hδ] at hlength
  obtain ⟨σ, hσ, -, -, hbound⟩ := Sphere.exit_spec hin le_rfl hlength
  rw [real_inj.mp hσ]
  exact (hbound hp).1

end Stride

section Move
variable (hsafe : k.safeguard.Contains safe) (hδ : k.δ = real δ) (h0 : 0 ≤ δ) (hit : it.Contained safe δ o)
include hsafe hit

/-- What the safeguard leaves of a real move ends in the safe set. -/
theorem Leaves.fraction {s : Euclidean n} (hs : it.s = vec s) {a : ℝ} (hθ : Leaves k it (vec p) (real a) θ) :
    ∃ t, θ = real t ∧ 0 ≤ t ∧ t ≤ 1 ∧ o + s + t • a • p ∈ safe := by
  obtain ⟨call, hθ⟩ := hθ
  obtain ⟨hx, hreach⟩ := hit s hs
  rw [hx, scale_vec] at hθ
  exact hθ.ensured (hsafe call _ _ hreach.2)

omit hsafe in
/-- The part of a move that the safeguard leaves is in reach when the whole move is in the ball. -/
theorem Iterate.Contained.cut {s : Euclidean n} (hs : it.s = vec s) {a t : ℝ} (hend : ‖o + s + a • p‖ ≤ max δ ‖o‖)
    (ht0 : 0 ≤ t) (ht1 : t ≤ 1) (hmem : o + s + t • a • p ∈ safe) : o + (s + (a * t) • p) ∈ reach safe δ o := by
  obtain ⟨-, hin, -⟩ := hit s hs
  rw [← add_assoc, mul_comm, ← smul_smul]
  exact ⟨Sphere.norm_add_smul_le hin hend ht0 ht1, hmem⟩

include hδ h0

/-- A stride that makes the step real starts at a real one, along a real direction, and what the safeguard leaves of it is
in reach. -/
theorem Stride.contained {vp : Vec (Exact ε)} {c : Exact ε} {s' : Euclidean n} (hheads : Heads k it z vp hp rz κ)
    (hstride : Stride k it vp rz κ target α) (hθ : Leaves k it vp α θ) (hs : Checked.add c vp it.s = .ok (vec s'))
    (hc : Scalar.isFinite c = true → Scalar.isFinite α = true) :
    ∃ (s p : Euclidean n) (a t : ℝ), it.s = vec s ∧ vp = vec p ∧ p ≠ 0 ∧ α = real a ∧ θ = real t ∧ t ≤ 1 ∧
      o + (s + (a * t) • p) ∈ reach safe δ o := by
  obtain ⟨p, s, rfl, hstep⟩ := Checked.exists_vec_of_add hs
  obtain ⟨hp, -⟩ := hheads.curved hstride.curved
  rw [hstep] at hs
  obtain ⟨b, rfl⟩ := exists_real_of_scale hp (Checked.scale_of_add hs)
  obtain ⟨a, rfl⟩ := isFinite_iff.mp (hc isFinite_real)
  obtain ⟨hx, hin, -⟩ := hit s hstep
  obtain ⟨t, rfl, ht0, ht1, hmem⟩ := hθ.fraction hsafe hit hstep
  have hend := (hstride.norm_le hx hδ h0).trans (max_le (le_max_left δ ‖o‖) hin)
  exact ⟨s, p, a, t, hstep, rfl, hp, rfl, rfl, ht1, hit.cut hstep hend ht0 ht1 hmem⟩

theorem Move.contained {out : Progress (Exact ε)} (hmove : Move k it out) : out.Contained safe δ o := by
  cases hmove with
  | stay hreason hs =>
    intro s hs'
    refine ⟨(hit s (hs ▸ hs')).2, ?_⟩
    rintro - rfl
    cases hreason
  | flat hheads hσ hθ hs =>
    intro s' hs'
    rw [hs'] at hs
    obtain ⟨p, s, rfl, hstep⟩ := Checked.exists_vec_of_add hs
    obtain ⟨hx, hin, -⟩ := hit s hstep
    rw [hδ, if_pos isFinite_real, hx] at hσ
    obtain ⟨a, rfl, hend⟩ := Sphere.exit_le h0 le_rfl hσ
    obtain ⟨t, rfl, ht0, ht1, hmem⟩ := hθ.fraction hsafe hit hstep
    rw [real_mul, hstep] at hs
    rw [vec_inj.mp (checked_add_eq_ok hs)]
    exact ⟨hit.cut hstep (hend.trans (max_le (le_max_left δ ‖o‖) hin)) ht0 ht1 hmem, nofun⟩
  | stuck hheads hstride hθ hs =>
    intro s' hs'
    rw [hs'] at hs
    obtain ⟨s, p, a, t, hstep, rfl, -, rfl, rfl, -, hreach⟩ :=
      hstride.contained hsafe hδ h0 hit hheads hθ hs isFinite_of_mul_left
    rw [real_mul, hstep] at hs
    rw [vec_inj.mp (checked_add_eq_ok hs)]
    exact ⟨hreach, nofun⟩
  | cut hheads hstride hθ hs hx =>
    intro s' hs'
    rw [hs'] at hs
    obtain ⟨s, p, a, t, hstep, rfl, -, rfl, rfl, -, hreach⟩ :=
      hstride.contained hsafe hδ h0 hit hheads hθ hs isFinite_of_mul_left
    rw [real_mul, hstep] at hs
    rw [real_mul, (hit s hstep).1] at hx
    rw [vec_inj.mp (checked_add_eq_ok hs), checked_add_eq_ok hx, add_assoc]
    exact ⟨rfl, hreach⟩
  | cross hheads hstride hout hθ hfull hs =>
    intro s' hs'
    rw [hs'] at hs
    obtain ⟨s, p, a, t, hstep, rfl, hp, rfl, rfl, ht, hreach⟩ := hstride.contained hsafe hδ h0 hit hheads hθ hs id
    obtain rfl : t = 1 := le_antisymm ht (not_lt.mp (mt real_lt.mpr hfull))
    rw [mul_one] at hreach
    rw [hstep] at hs
    rw [vec_inj.mp (checked_add_eq_ok hs)]
    obtain ⟨hx, hin, -⟩ := hit s hstep
    refine ⟨hreach, fun ho _ => ?_⟩
    rw [← add_assoc]
    exact hstride.norm_eq hx hδ (hin.trans_eq (max_eq_left ho)) hp hout
  | full hheads hstride hθ hfull hs hx =>
    intro s' hs'
    rw [hs'] at hs
    obtain ⟨s, p, a, t, hstep, rfl, hp, rfl, rfl, ht, hreach⟩ := hstride.contained hsafe hδ h0 hit hheads hθ hs id
    obtain rfl : t = 1 := le_antisymm ht (not_lt.mp (mt real_lt.mpr hfull))
    rw [mul_one] at hreach
    rw [hstep] at hs
    rw [(hit s hstep).1] at hx
    rw [vec_inj.mp (checked_add_eq_ok hs), checked_add_eq_ok hx, add_assoc]
    exact ⟨rfl, hreach⟩

end Move

/-- An offset that the check lets through is safe. -/
theorem Checks.offset_mem (hsafe : k.safeguard.Contains safe) (hzero : 0 ∈ safe) (h : Checks k (vec o) none) : o ∈ safe := by
  obtain ⟨notes, rest, hrun⟩ := h
  refine Ensures.mono (P := fun fault => fault = none → o ∈ safe) ?_ (fun _ h => h) notes none rest hrun rfl
  unfold offsetFault?
  dsimp only
  split
  · exact ensures_bind (ensures_true _) fun _ _ => ensures_pure nofun
  · rw [zerosLike_vec]
    refine ensures_bind (hsafe 0 0 o hzero) ?_
    rintro _ ⟨t, rfl, -, ht, hmem⟩
    split
    · exact ensures_bind (ensures_true _) fun _ _ => ensures_pure nofun
    case isFalse hfull =>
      obtain rfl : t = 1 := le_antisymm ht (not_lt.mp (mt real_lt.mpr hfull))
      rw [one_smul, zero_add] at hmem
      exact ensures_pure fun _ => hmem

theorem Loops.contained (hsafe : k.safeguard.Contains safe) (hzero : 0 ∈ safe) (hδ : k.δ = real δ) (h0 : 0 ≤ δ)
    {g : Euclidean n} (hg : k.g = vec g) (h : Loops k (vec o) it) : it.Contained safe δ o := by
  obtain ⟨hchecks, hvisits⟩ := h
  induction hvisits with
  | here =>
    intro s hs
    have hstep : (start k.g (vec o)).s = vec (0 : Euclidean n) := by
      change Vec.zerosLike k.g = _
      rw [hg, zerosLike_vec]
    rw [vec_inj.mp (hs.symm.trans hstep), add_zero]
    exact ⟨rfl, le_max_right _ _, hchecks.offset_mem hsafe hzero⟩
  | next _ hpass ih =>
    obtain ⟨notes, rest, hrun⟩ := hpass
    exact (pass_moves _ notes _ rest hrun).contained hsafe hδ h0 ih

/-- A solve with a safe set that it starts in ends in reach, unless it refuses the offset. -/
theorem solve_contained (hsafe : k.safeguard.Contains safe) (hzero : 0 ∈ safe) (hδ : k.δ = real δ) (h0 : 0 ≤ δ)
    {g : Euclidean n} (hg : k.g = vec g) (o : Euclidean n) (w : Vec (Exact ε)) (work : ℕ) :
    (solve k (vec o) w work).Ensures fun out => ∀ r, out = .ok r → r.stop ≠ .offsetViolatesTrustRegion →
      ∀ s, r.step = vec s → ‖o + s‖ ≤ max δ ‖o‖ ∧ (‖o‖ ≤ δ → r.stop = .trustRegionViolated → ‖o + s‖ = δ) ∧
        (r.stop ≠ .offsetViolatesSafeguard → o + s ∈ safe) := by
  refine (solve_ends k o w work).mono fun out hends r hr hoffset s hs => ?_
  rcases hends r hr with ⟨fault, hchecks, rfl⟩ | ⟨u, reason, it, hloop, rfl, hend⟩
  · obtain rfl := hchecks.cases.resolve_left hoffset |>.1
    have hstep : (start k.g (vec o)).s = vec (0 : Euclidean n) := by
      change Vec.zerosLike k.g = _
      rw [hg, zerosLike_vec]
    rw [vec_inj.mp (hs.symm.trans hstep), add_zero]
    exact ⟨le_max_right _ _, nofun, fun h => absurd rfl h⟩
  · have hu := hloop.contained hsafe hzero hδ h0 hg
    rcases hend with ⟨notes, rest, hrun⟩ | ⟨rfl, rfl, -⟩
    · obtain ⟨hreach, hbound⟩ := (pass_moves _ notes _ rest hrun).contained hsafe hδ h0 hu s hs
      exact ⟨hreach.1, hbound, fun _ => hreach.2⟩
    · obtain ⟨-, hreach⟩ := hu s hs
      exact ⟨hreach.1, nofun, fun _ => hreach.2⟩

end TruncatedCG

/-! ### Steps that are real -/

/-- An operator on real vectors, which propagates what is not real. -/
structure Operator.Sound (A : Operator (Exact ε)) (n : ℕ) : Prop where
  real : ∀ v : Euclidean n, (A.apply 1 (vec v) 0 (vec (0 : Euclidean n))).Ensures fun z => ∃ u : Euclidean n, z = vec u
  undefined : A.Propagates n

theorem Operator.Acts.sound {A : Operator (Exact ε)} {H : Euclidean n →ₗ[ℝ] Euclidean n} (hA : A.Acts H)
    (hprop : A.Propagates n) : A.Sound n where
  real v := (hA.image v).mono fun _ h => ⟨H v, h⟩
  undefined := hprop

namespace TruncatedCG
variable {k : Model (Exact ε)} {δ : ℝ} {o g : Euclidean n} {it : Iterate (Exact ε)}
  {z vp hp target : Vec (Exact ε)} {rz κ α : Exact ε}

/-- The step and the residual are real, and so is what is remembered of the last pass, which curved upwards. -/
structure Iterate.Real (k : Model (Exact ε)) (n : ℕ) (it : Iterate (Exact ε)) : Prop where
  step : ∃ s : Euclidean n, it.s = vec s
  residual : ∃ r : Euclidean n, it.r = vec r
  previous : ∀ prev, it.previous = some prev →
    k.H.Curves n ∧ (∃ p : Euclidean n, prev.p = vec p) ∧ ∃ c, prev.rz = real c

/-- What a pass leaves is real. -/
def Progress.Real (k : Model (Exact ε)) (n : ℕ) : Progress (Exact ε) → Prop
  | .next it => it.Real k n
  | .stop _ it => ∃ s : Euclidean n, it.s = vec s

/-- A direction that the Hessian takes to a real vector is real: where the residual before had no slope, none of the
entries would be. -/
theorem Heads.exists_real (hsound : k.H.Sound n) (hit : it.Real k n) (hheads : Heads k it z vp hp rz κ) :
    ∃ (p d : Euclidean n) (c : ℝ), vp = vec p ∧ hp = vec d ∧ rz = real c ∧ κ = real (inner ℝ p d) := by
  obtain ⟨r, hr⟩ := hit.residual
  have hslope := hheads.slope
  rw [hr] at hslope
  obtain ⟨v, rfl⟩ := exists_vec ((Checked.inner_eq_ok.mp hslope).1.symm.trans length_vec) hheads.preconditioned
  obtain rfl := checked_inner_eq_ok hslope
  have hreal : ∃ p : Euclidean n, vp = vec p := by
    have hdirection := hheads.direction
    unfold TruncatedCG.direction at hdirection
    split at hdirection
    case h_1 => exact ⟨v, (Except.ok.inj hdirection).symm⟩
    case h_2 prev hprev =>
      obtain ⟨hcurves, ⟨q, hq⟩, c, hc⟩ := hit.previous prev hprev
      rw [hq, hc] at hdirection
      rcases Checked.real_or_unreal_of_add hdirection with ⟨t, hp⟩ | ⟨-, hlen, hnone⟩
      · exact ⟨_, hp⟩
      · have hfin := hheads.finite
        rw [hheads.image.ensured (hsound.undefined hcurves vp hlen hnone)] at hfin
        cases hfin
  obtain ⟨p, rfl⟩ := hreal
  have hcurvature := hheads.curvature
  obtain ⟨d, rfl⟩ := exists_vec ((Checked.inner_eq_ok.mp hcurvature).1.symm.trans length_vec) hheads.finite
  exact ⟨p, d, _, rfl, rfl, rfl, checked_inner_eq_ok hcurvature⟩

theorem Stride.exists_real {x p : Euclidean n} {c b : ℝ} (hstride : Stride k it (vec p) (real c) (real b) target α)
    (hx : it.x = vec x) (hδ : k.δ = real δ) : ∃ a, α = real a := by
  obtain ⟨hcurved, -, hlength⟩ := hstride
  have hb : b ≠ 0 := by
    rintro rfl
    exact hcurved (real_le.mpr le_rfl)
  rw [hx, hδ, real_div hb] at hlength
  split at hlength
  · obtain ⟨a, ha, -⟩ := Sphere.exit_real le_rfl hlength
    exact ⟨a, ha⟩
  · exact ⟨_, (Except.ok.inj hlength).symm⟩

section Move
variable {safe : Set (Euclidean n)} (hsound : k.H.Sound n) (hsafe : k.safeguard.Contains safe) (hδ : k.δ = real δ)
  (hg : k.g = vec g) (hit : it.Real k n) (hin : it.Contained safe δ o)
include hsound hsafe hδ hit hin

theorem Stride.all_real (hheads : Heads k it z vp hp rz κ) (hstride : Stride k it vp rz κ target α) {θ : Exact ε}
    (hθ : Leaves k it vp α θ) : ∃ (s p d : Euclidean n) (a t c : ℝ), it.s = vec s ∧ it.x = vec (o + s) ∧ vp = vec p ∧
      hp = vec d ∧ α = real a ∧ θ = real t ∧ rz = real c ∧ κ = real (inner ℝ p d) := by
  obtain ⟨s, hs⟩ := hit.step
  obtain ⟨hx, -⟩ := hin s hs
  obtain ⟨p, d, c, rfl, rfl, rfl, rfl⟩ := hheads.exists_real hsound hit
  obtain ⟨a, rfl⟩ := hstride.exists_real hx hδ
  obtain ⟨t, rfl, -⟩ := hθ.fraction hsafe hin hs
  exact ⟨s, p, d, a, t, c, hs, hx, rfl, rfl, rfl, rfl, rfl, rfl⟩

include hg

theorem Move.stays_real {out : Progress (Exact ε)} (hmove : Move k it out) : out.Real k n := by
  cases hmove with
  | stay _ hs =>
    obtain ⟨s, hstep⟩ := hit.step
    exact ⟨s, hs.trans hstep⟩
  | flat hheads hσ hθ hs =>
    obtain ⟨s, hstep⟩ := hit.step
    obtain ⟨hx, -⟩ := hin s hstep
    obtain ⟨p, d, c, rfl, -⟩ := hheads.exists_real hsound hit
    rw [hδ, if_pos isFinite_real, hx] at hσ
    obtain ⟨a, rfl, -⟩ := Sphere.exit_real le_rfl hσ
    obtain ⟨t, rfl, -⟩ := hθ.fraction hsafe hin hstep
    rw [real_mul, hstep] at hs
    exact ⟨_, checked_add_eq_ok hs⟩
  | stuck hheads hstride hθ hs =>
    obtain ⟨s, p, d, a, t, c, hstep, hx, rfl, rfl, rfl, rfl, rfl, rfl⟩ := hstride.all_real hsound hsafe hδ hit hin hheads hθ
    rw [real_mul, hstep] at hs
    exact ⟨_, checked_add_eq_ok hs⟩
  | cut hheads hstride hθ hs hx' himage hgradient hr hprevious =>
    obtain ⟨s, p, d, a, t, c, hstep, hx, rfl, rfl, rfl, rfl, rfl, rfl⟩ := hstride.all_real hsound hsafe hδ hit hin hheads hθ
    rw [real_mul, hstep] at hs
    have hnext := checked_add_eq_ok hs
    rw [hnext, zerosLike_vec] at himage
    obtain ⟨u, rfl⟩ := himage.ensured (hsound.real _)
    rw [hg] at hgradient
    rw [checked_add_eq_ok (a := 1) hgradient, one_eq, real_neg, scale_vec] at hr
    refine ⟨⟨_, hnext⟩, ⟨_, hr⟩, fun prev hprev => ?_⟩
    rw [hprevious] at hprev
    cases hprev
  | cross hheads hstride _ hθ _ hs =>
    obtain ⟨s, p, d, a, t, c, hstep, hx, rfl, rfl, rfl, rfl, rfl, rfl⟩ := hstride.all_real hsound hsafe hδ hit hin hheads hθ
    rw [hstep] at hs
    exact ⟨_, checked_add_eq_ok hs⟩
  | full hheads hstride hθ _ hs hx' hr hprevious =>
    obtain ⟨s, p, d, a, t, c, hstep, hx, rfl, rfl, rfl, rfl, rfl, rfl⟩ := hstride.all_real hsound hsafe hδ hit hin hheads hθ
    obtain ⟨r, hresidual⟩ := hit.residual
    rw [hstep] at hs
    rw [real_neg, hresidual] at hr
    refine ⟨⟨_, checked_add_eq_ok hs⟩, ⟨_, checked_add_eq_ok hr⟩, fun prev hprev => ?_⟩
    cases hprevious.symm.trans hprev
    have hcurved := hstride.curved
    have himage := hheads.image
    rw [zerosLike_vec] at himage
    exact ⟨⟨p, d, himage, not_le.mp (mt real_le.mpr hcurved)⟩, ⟨p, rfl⟩, c, rfl⟩

end Move

/-- With a Hessian on real vectors the loop of a solve stays among them. -/
theorem Loops.stays_real {safe : Set (Euclidean n)} (hsound : k.H.Sound n) (hsafe : k.safeguard.Contains safe) (hzero : 0 ∈ safe)
    (hδ : k.δ = real δ) (h0 : 0 ≤ δ) (hg : k.g = vec g) (h : Loops k (vec o) it) : it.Real k n := by
  obtain ⟨hchecks, hvisits⟩ := h
  induction hvisits with
  | here =>
    refine ⟨⟨0, ?_⟩, ⟨-g, ?_⟩, nofun⟩
    · change Vec.zerosLike k.g = _
      rw [hg, zerosLike_vec]
    · change Vec.scale (-1) k.g = _
      rw [hg, one_eq, real_neg, scale_vec, neg_one_smul]
  | next hu hpass ih =>
    obtain ⟨notes, rest, hrun⟩ := hpass
    have hin := Loops.contained hsafe hzero hδ h0 hg ⟨hchecks, hu⟩
    exact (pass_moves _ notes _ rest hrun).stays_real hsound hsafe hδ hg ih hin

theorem solve_real {safe : Set (Euclidean n)} (hsafe : k.safeguard.Contains safe) (hzero : 0 ∈ safe)
    (hδ : k.δ = real δ) (h0 : 0 ≤ δ) (hg : k.g = vec g) (o : Euclidean n) (w : Vec (Exact ε)) (work : ℕ) :
    (solve k (vec o) w work).Ensures fun out => ∀ r, out = .ok r → k.H.Sound n → ∃ s : Euclidean n, r.step = vec s := by
  refine (solve_ends k o w work).mono fun out hends r hr hsound => ?_
  rcases hends r hr with ⟨fault, hchecks, rfl⟩ | ⟨u, reason, it, hloop, rfl, hend⟩
  · refine ⟨0, ?_⟩
    change Vec.zerosLike k.g = _
    rw [hg, zerosLike_vec]
  · have hin := hloop.contained hsafe hzero hδ h0 hg
    have hu := hloop.stays_real hsound hsafe hzero hδ h0 hg
    rcases hend with ⟨notes, rest, hrun⟩ | ⟨-, rfl, -⟩
    · exact (pass_moves _ notes _ rest hrun).stays_real hsound hsafe hδ hg hu hin
    · exact hu.step

/-! ### Solves in reach -/

/-- Whatever the operators of a model are, a solve that does not refuse the offset for the trust region ends in the trust
region with it, or no further from zero than it is; and from an offset in the trust region it stops for the boundary only on
it. With the safeguard of a linearised constraint it also ends in the safe set, unless the offset is refused for that. The
step is real when the Hessian is an operator on real vectors. -/
theorem solve_stays_in_reach (hg : k.g = vec g) (hδ : k.δ = real δ) (h0 : 0 ≤ δ) (hcut : k.safeguard.Cuts n)
    (o : Euclidean n) (w : Vec (Exact ε)) (work : ℕ) :
    (solve k (vec o) w work).Ensures fun out => ∀ r, out = .ok r → r.stop ≠ .offsetViolatesTrustRegion →
      (k.H.Sound n → ∃ s : Euclidean n, r.step = vec s) ∧
      ∀ s, r.step = vec s → ‖o + s‖ ≤ max δ ‖o‖ ∧ (‖o‖ ≤ δ → r.stop = .trustRegionViolated → ‖o + s‖ = δ) ∧
        ∀ (m : ℕ) (A : Operator (Exact ε)) (J : Euclidean n →ₗ[ℝ] Euclidean m) (h : Euclidean m) (κ : ℝ),
          A.Acts J → (∀ i, 0 ≤ h i) → 0 ≤ κ → k.safeguard.IsLinear A (vec h) (real κ) →
          r.stop ≠ .offsetViolatesSafeguard → ∀ i, 0 ≤ κ * h i + J (o + s) i := by
  have hlinear : (solve k (vec o) w work).Ensures fun out => ∀ (m : ℕ) (A : Operator (Exact ε))
      (J : Euclidean n →ₗ[ℝ] Euclidean m) (h : Euclidean m) (κ : ℝ), A.Acts J → (∀ i, 0 ≤ h i) → 0 ≤ κ →
      k.safeguard.IsLinear A (vec h) (real κ) → ∀ r, out = .ok r → r.stop ≠ .offsetViolatesTrustRegion →
      ∀ s, r.step = vec s → r.stop ≠ .offsetViolatesSafeguard → o + s ∈ safeSteps J h κ := by
    refine ensures_forall fun m => ensures_forall fun A => ensures_forall fun J => ensures_forall fun h =>
      ensures_forall fun κ => ensures_forall fun hA => ensures_forall fun hh => ensures_forall fun hκ =>
      ensures_forall fun hsg => ?_
    have hzero : 0 ∈ safeSteps J h κ := zero_mem_safeSteps hh hκ
    refine (solve_contained (hsg.guards hA hκ).contains hzero hδ h0 hg o w work).mono fun out hout r hr hstop s hs => ?_
    exact (hout r hr hstop s hs).2.2
  have hball := solve_contained hcut.contains trivial hδ h0 hg o w work
  have hreal := solve_real hcut.contains trivial hδ h0 hg o w work
  refine ((hball.and hlinear).and hreal).mono ?_
  rintro out ⟨⟨hball, hlinear⟩, hreal⟩ r hr hstop
  refine ⟨hreal r hr, fun s hs => ?_⟩
  obtain ⟨hin, hbound, -⟩ := hball r hr hstop s hs
  refine ⟨hin, hbound, fun m A J h κ hA hh hκ hsg hsafe => ?_⟩
  exact hlinear m A J h κ hA hh hκ hsg r hr hstop s hs hsafe

/-- A bowl in a unit ball, with walls at minus one half. -/
noncomputable def walledBowl : Model (Exact ε) where
  __ := bowl ⟨fun _ base d => Safeguard.linearFraction (.identity 2) (vec (WithLp.toLp 2 fun _ => 1 : Euclidean 2))
    (real (1 / 2)) base d⟩
  δ := real 1

theorem solve_stays_in_reach_walledBowl :
    let k : Model (Exact ⟨1, Set.mem_Ioi.mpr one_pos⟩) := walledBowl
    let g : Euclidean 2 := EuclideanSpace.single 0 1
    let o : Euclidean 2 := EuclideanSpace.single 1 (1 / 2)
    let slack : Euclidean 2 := WithLp.toLp 2 fun _ => 1
    (k.g = vec g ∧ k.δ = real 1 ∧ (0 : ℝ) ≤ 1 ∧ k.safeguard.Cuts 2 ∧ k.H.Sound 2 ∧
      k.safeguard.IsLinear (.identity 2) (vec slack) (real (1 / 2))) ∧
    (solve k (vec o) (Vec.zeros 2) 25).Yields fun out => ∃ r, out = .ok r ∧ (r.stop ≠ .offsetViolatesTrustRegion →
      (k.H.Sound 2 → ∃ s : Euclidean 2, r.step = vec s) ∧
      ∀ s, r.step = vec s → ‖o + s‖ ≤ max 1 ‖o‖ ∧ (‖o‖ ≤ 1 → r.stop = .trustRegionViolated → ‖o + s‖ = 1) ∧
        ∀ (m : ℕ) (A : Operator (Exact ⟨1, Set.mem_Ioi.mpr one_pos⟩)) (J : Euclidean 2 →ₗ[ℝ] Euclidean m) (h : Euclidean m)
          (κ : ℝ), A.Acts J → (∀ i, 0 ≤ h i) → 0 ≤ κ → k.safeguard.IsLinear A (vec h) (real κ) →
          r.stop ≠ .offsetViolatesSafeguard → ∀ i, 0 ≤ κ * h i + J (o + s) i) := by
  intro k g o slack
  have hlinear : k.safeguard.IsLinear (.identity 2) (vec slack) (real (1 / 2)) := Safeguard.isLinear _ length_vec
  have hcut : k.safeguard.Cuts 2 := hlinear.cuts (Operator.identity_acts 2)
  have hsound : k.H.Sound 2 := (Operator.identity_acts 2).sound ((Operator.identity_strict 2).propagates rfl)
  have hfills : k.safeguard.Fills 2 := fun _ _ _ hbase hd =>
    Safeguard.linearFraction_answers (Operator.identity_fills 2) length_vec _ hbase hd
  have hfit : k.Fits 2 := { bowl_fits hfills with }
  refine ⟨⟨rfl, rfl, zero_le_one, hcut, hsound, hlinear⟩, ?_⟩
  refine ((solve_sized hfit (length_vec (v := o)) (Vec.length_zeros 2) (by decide)).and
    (solve_stays_in_reach (g := g) rfl rfl zero_le_one hcut o (Vec.zeros 2) 25)).mono ?_
  rintro out ⟨⟨r, rfl, -⟩, hreach⟩
  exact ⟨r, rfl, hreach r rfl⟩

end TruncatedCG
end ConstrainedOpt
