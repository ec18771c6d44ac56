import ConstrainedOpt.Proofs.Interior
import ConstrainedOpt.Proofs.Containment.Lengths

/-! # Merit along runs

In exact arithmetic an accepted step lowers the merit function of its driver, up to the allowance for rounding that
the drivers grant, whatever the functions answer elsewhere: a test that a step passes has only real numbers in it.
-/
namespace ConstrainedOpt
open Exact Running
variable {ε : Set.Ioi (0 : ℝ)} {k : Setup (Exact ε)} {s t : State (Exact ε)} {η c : ℝ}

/-- What the drivers grant for rounding in a merit `m`. -/
noncomputable def allowance (ε : Set.Ioi (0 : ℝ)) (m : ℝ) : ℝ := 10 * ε * max |m| 1

theorem tenth_pos (ε : Set.Ioi (0 : ℝ)) : (0 : ℝ) < 10 * ε := mul_pos (by norm_num) ε.2

theorem allowance_pos (ε : Set.Ioi (0 : ℝ)) (m : ℝ) : 0 < allowance ε m :=
  mul_pos (tenth_pos ε) (lt_max_of_lt_right one_pos)

theorem ten_epsilon : (10.0 * Scalar.epsilon : Exact ε) = real (10 * ε) := by
  change (real (OfScientific.ofScientific 100 true 1) * real ε : Exact ε) = _
  norm_num

theorem allowance_real (m : ℝ) :
    (10.0 * Scalar.epsilon * Scalar.maxNum (Scalar.abs (real m)) 1 : Exact ε) = real (allowance ε m) := by
  have habs : Scalar.abs (real m : Exact ε) = real |m| := rfl
  rw [ten_epsilon, habs, one_eq, maxNum_real, real_mul]
  rfl

theorem allowance_infinite (b : Bool) :
    (10.0 * Scalar.epsilon * Scalar.maxNum (Scalar.abs (infinite b)) 1 : Exact ε) = infinite false := by
  have habs : Scalar.abs (infinite b : Exact ε) = infinite false := rfl
  have hmax : Scalar.maxNum (infinite false) 1 = (infinite false : Exact ε) := by
    unfold Scalar.maxNum
    rw [if_neg nofun, if_neg nofun, if_neg nofun]
  rw [ten_epsilon, habs, hmax, mul_infinite_of_pos (tenth_pos ε)]

/-! ### Trust-region steps -/

namespace TrustRegion

/-- A step that is taken compares real reductions. -/
theorem real_of_ratio {here pred : Exact ε} {m' : ℝ} (hη : 0 < η)
    (h : real η ≤ reductionRatio here (here - real m') pred) :
    ∃ m π, here = real m ∧ pred = real π ∧ 0 < π + allowance ε m ∧
      η * (π + allowance ε m) ≤ m - m' + allowance ε m := by
  unfold reductionRatio at h
  dsimp only at h
  split at h
  case isFalse =>
    have h : true = false := h
    cases h
  case isTrue hpos =>
    cases here with
    | nan => simp at h
    | infinite b =>
      rw [allowance_infinite] at hpos h
      cases pred with
      | nan => simp at hpos
      | infinite p =>
        cases p
        · cases b <;> simp at h
        · simp at hpos
      | real π => cases b <;> simp at h
    | real m =>
      rw [allowance_real] at hpos h
      cases pred with
      | nan => simp at hpos
      | infinite p => simp [hη.not_ge] at h
      | real π =>
        rw [real_add, zero_eq, real_lt] at hpos
        rw [real_sub, real_add, real_add, real_div hpos.ne', real_le, le_div_iff₀ hpos] at h
        exact ⟨m, π, rfl, rfl, hpos, h⟩

/-- The step that led to `t` from the values `a` to the values `b` was worth the prediction `π`: the merits `m` and
`m'`, both with the multipliers, the barrier parameter and the penalty of `t`, tell. -/
structure Pays (η : ℝ) (t : State (Exact ε)) (a b : Trial (Exact ε)) (m m' π : ℝ) : Prop where
  here : Barrier.merit a.f a.g a.h t.y t.mu t.rho = .ok (real m)
  there : Barrier.merit b.f b.g b.h t.y t.mu t.rho = .ok (real m')
  ared : t.ared = real (m - m')
  pred : t.pred = real π
  promising : 0 < π + allowance ε m
  enough : η * π - (1 - η) * allowance ε m ≤ m - m'
  descends : m' < m + allowance ε m
  moved : Checked.add 1 t.dx t.xOld = .ok t.x

theorem Approves.pays (hη : k.par.eta1 = real η) (hη0 : 0 < η) {v : Trial (Exact ε)} (h : Approves k t v)
    (hmoved : Checked.add 1 t.dx t.xOld = .ok v.x) : ∃ m m' π, Pays η (t.moveTo v) ⟨t.x, t.f, t.g, t.h⟩ v m m' π := by
  obtain ⟨here, there, hhere, hthere, hfinite, hared, hratio⟩ := h.merits
  obtain ⟨m', rfl⟩ := isFinite_iff.mp hfinite
  rw [hη, hared] at hratio
  obtain ⟨m, π, rfl, hpred, hpos, henough⟩ := real_of_ratio hη0 hratio
  have hprod : 0 < η * (π + allowance ε m) := mul_pos hη0 hpos
  refine ⟨m, m', π, hhere, hthere, hared, hpred, hpos, ?_, ?_, hmoved⟩
  · linarith
  · linarith

end TrustRegion

/-! ### Line-search steps -/

namespace LineSearch

/-- Undefined, infinite or a real number that satisfies `P`. -/
def Perhaps (P : ℝ → Prop) (a : Exact ε) : Prop := a = nan ∨ a = infinite false ∨ ∃ r, a = real r ∧ P r

theorem perhaps_pos {a : Exact ε} (ha : 0 < a) : Perhaps (0 < ·) a := by
  cases a with
  | nan => exact absurd ha not_lt_nan
  | infinite b =>
    have hb : b = false := ha
    exact .inr (.inl (by rw [hb]))
  | real r => exact .inr (.inr ⟨r, rfl, ha⟩)

/-- Searches that start ahead of the iterate stay ahead of it, where they are defined at all. -/
theorem ahead_lengths : Lengths (Perhaps (ε := ε) (0 ≤ ·)) (Perhaps (0 < ·)) where
  zero := .inr (.inr ⟨0, rfl, le_rfl⟩)
  lower := by
    rintro a (rfl | rfl | ⟨r, rfl, hr⟩)
    · exact .inl rfl
    · exact .inr (.inl rfl)
    · exact .inr (.inr ⟨r, rfl, hr.le⟩)
  half := by
    rintro a (rfl | rfl | ⟨r, rfl, hr⟩)
    · exact .inl (by simp)
    · exact .inr (.inl (by rw [half_eq, mul_infinite_of_pos (by norm_num)]))
    · exact .inr (.inr ⟨1 / 2 * r, by simp, by linarith⟩)
  below := by
    obtain ⟨φ, hφ, hφ0, hφ1⟩ := goldenRatio_real (ε := ε)
    rintro a b ha (rfl | rfl | ⟨r, rfl, hr⟩)
    · exact .inl (by simp)
    · rcases ha with rfl | rfl | ⟨l, rfl, hl⟩ <;> left <;> simp [hφ, mul_infinite_of_pos hφ0]
    · rcases ha with rfl | rfl | ⟨l, rfl, hl⟩
      · exact .inl (by simp)
      · exact .inr (.inl (by simp [hφ, mul_infinite_of_pos hφ0]))
      · exact .inr (.inr ⟨r - φ * (r - l), by simp [hφ], by nlinarith⟩)
  above := by
    obtain ⟨φ, hφ, hφ0, hφ1⟩ := goldenRatio_real (ε := ε)
    rintro a b ha (rfl | rfl | ⟨r, rfl, hr⟩)
    · exact .inl (by simp)
    · rcases ha with rfl | rfl | ⟨l, rfl, hl⟩
      · exact .inl (by simp)
      · exact .inl (by simp)
      · exact .inr (.inl (by simp [hφ, mul_infinite_of_pos hφ0]))
    · rcases ha with rfl | rfl | ⟨l, rfl, hl⟩
      · exact .inl (by simp)
      · exact .inl (by simp [hφ, mul_infinite_of_pos hφ0])
      · exact .inr (.inr ⟨l + φ * (r - l), by simp [hφ], by nlinarith⟩)

/-- A sufficient decrease is one along a real length and a real slope. -/
theorem real_of_decrease {a slope : Exact ε} {l m' : ℝ} (hc : 0 < c) (ha : Perhaps (0 < ·) a)
    (hslope : slope = infinite true ∨ ∃ σ, slope = real σ ∧ σ ≤ 0)
    (h : real m' ≤ real l + real c * a * slope) :
    ∃ α σ, a = real α ∧ 0 < α ∧ slope = real σ ∧ m' ≤ l + c * α * σ := by
  rcases ha with rfl | rfl | ⟨α, rfl, hα⟩
  · simp at h
  · rw [mul_infinite_of_pos hc] at h
    rcases hslope with rfl | ⟨σ, rfl, hσ⟩
    · have hprod : (infinite false * infinite true : Exact ε) = infinite true := rfl
      simp [hprod] at h
    · rw [mul_swap] at h
      rcases hσ.eq_or_lt with rfl | hneg
      · have hprod : (real 0 * infinite false : Exact ε) = nan := if_pos rfl
        simp [hprod] at h
      · simp [mul_infinite_of_neg hneg] at h
  · rw [real_mul] at h
    rcases hslope with rfl | ⟨σ, rfl, hσ⟩
    · simp [mul_infinite_of_pos (mul_pos hc hα)] at h
    · rw [real_mul, real_add, real_le] at h
      exact ⟨α, σ, rfl, hα, rfl, h⟩

theorem add_scale (a : Exact ε) (x y : Vec (Exact ε)) : Vec.add 1 (Vec.scale a x) y = Vec.add a x y := by
  have hone : ∀ b : Exact ε, 1 * b = b := by
    intro b
    cases b with
    | nan => exact mul_nan
    | infinite p => exact mul_infinite_of_pos one_pos
    | real r => rw [one_eq, real_mul, one_mul]
  unfold Vec.add Vec.scale
  rw [List.zipWith_map_left]
  simp only [hone]

/-- The step that led to `t` from the values `a` to the values `b` decreased the barrier objective from `m` to `m'`
in proportion to its length `α` and the slope `σ` along the direction. -/
structure Pays (c : ℝ) (t : State (Exact ε)) (a b : Trial (Exact ε)) (m m' α σ : ℝ) : Prop where
  here : a.barrier t.mu = real m
  there : b.barrier t.mu = real m'
  alpha : t.alpha = real α
  ahead : 0 < α
  slope : Checked.inner t.grad t.direction = .ok (real σ)
  downhill : σ ≤ 0
  stationary : σ = 0 → t.grad = Vec.zeros t.grad.length
  enough : m' ≤ m + allowance ε m + c * α * σ
  along : Checked.add t.alpha t.direction t.xOld = .ok t.x
  moved : Checked.add 1 t.dx t.xOld = .ok t.x

end LineSearch

/-! ### The invariant -/

/-- The values of a state are those of its iterate, and its barrier objective is real. -/
structure Problem.Evaluated (p : Problem (Exact ε)) (s : State (Exact ε)) : Prop where
  values : p.evaluate s.x = .ok ⟨s.x, s.f, s.g, s.h⟩
  barrier : ∃ m, Barrier.objective s.f s.h s.mu = real m

/-- Besides, its gradient is real. -/
structure Problem.Measured (p : Problem (Exact ε)) (s : State (Exact ε)) : Prop extends p.Evaluated s where
  grad : ∃ (n : ℕ) (a : Euclidean n), s.grad = vec a ∧ s.normGrad = real ‖a‖

theorem Problem.Evaluated.graded (h : k.problem.Evaluated s) {updateY : Bool} {y grad : Vec (Exact ε)}
    (hg : k.Graded updateY s y grad) : k.problem.Measured (s.graded y grad) where
  values := h.values
  barrier := h.barrier
  grad := by
    obtain ⟨a, ha⟩ := exists_vec rfl (Vec.isFinite_of_norm hg.2)
    exact ⟨_, a, ha, (congrArg Vec.norm ha).trans norm_vec⟩

theorem Problem.Measured.of_kept (h : k.problem.Measured s) (ht : t.kept = s.kept) : k.problem.Measured t := by
  have hx : t.x = s.x := congrArg Kept.x ht
  have hf : t.f = s.f := congrArg Kept.f ht
  have hgx : t.g = s.g := congrArg Kept.g ht
  have hh : t.h = s.h := congrArg Kept.h ht
  have hmu : t.mu = s.mu := congrArg Kept.mu ht
  have hgrad : t.grad = s.grad := congrArg Kept.grad ht
  have hnorm : t.normGrad = s.normGrad := congrArg Kept.normGrad ht
  constructor
  · constructor
    · rw [hx, hf, hgx, hh]
      exact h.values
    · rw [hf, hh, hmu]
      exact h.barrier
  · rw [hgrad, hnorm]
    exact h.grad

/-- A smaller barrier parameter leaves the barrier objective real. -/
theorem Barrier.objective_lowered {f μ : Exact ε} {h : Vec (Exact ε)} (hm : ∃ m, objective f h μ = real m) (θ : ℝ) :
    ∃ m, objective f h (μ * real θ) = real m := by
  obtain ⟨m, hm⟩ := hm
  unfold objective at hm ⊢
  split
  case isTrue hempty =>
    rw [if_pos hempty] at hm
    exact ⟨m, hm⟩
  case isFalse hempty =>
    rw [if_neg hempty] at hm
    dsimp only at hm ⊢
    split
    case isFalse hb =>
      rw [if_neg hb] at hm
      cases hm
    case isTrue hb =>
      rw [if_pos hb] at hm
      obtain ⟨b, hlog⟩ := isFinite_iff.mp hb
      rw [hlog] at hm ⊢
      have hfinite : Scalar.isFinite (f - μ * real b) = true := by rw [hm, isFinite_real]
      obtain ⟨u, rfl⟩ := isFinite_iff.mp (isFinite_of_add_left hfinite)
      cases μ with
      | nan => simp at hm
      | infinite p =>
        rw [mul_swap] at hm
        rcases lt_trichotomy b 0 with hneg | rfl | hpos
        · simp [mul_infinite_of_neg hneg] at hm
        · have hprod : (real 0 * infinite p : Exact ε) = nan := if_pos rfl
          simp [hprod] at hm
        · simp [mul_infinite_of_pos hpos] at hm
      | real r => exact ⟨u - r * θ * b, by simp⟩

theorem Problem.Evaluated.lowered (hk : k.parameterError? = none) (h : k.problem.Evaluated s) :
    k.problem.Evaluated (s.lowered k.par) := by
  obtain ⟨θ, hθ, -⟩ := Setup.muReduce_real hk
  constructor
  · exact h.values
  · change ∃ m, Barrier.objective s.f s.h (s.mu * k.par.muReduce) = real m
    rw [hθ]
    exact Barrier.objective_lowered h.barrier θ

theorem Problem.Measured.assessed (hk : k.parameterError? = none) (h : k.problem.Measured s) (ht : Assessed k s t) :
    StepEnds k.problem.Measured (fun _ => True) t := by
  refine .of_running fun hrunning => ?_
  rcases ht.lowered hrunning with rfl | ⟨-, hl⟩
  · exact h
  · obtain ⟨y, grad, hg, rfl⟩ := hl.sound_of_running hrunning
    exact (h.lowered hk).graded hg

/-! ### Steps -/

/-- The slope of a search is minus infinity or a real number, which vanishes only with the gradient. -/
theorem LineSearch.Descends.real {slope : Exact ε} (hs : k.problem.Measured s) (h : Descends s slope) :
    slope = infinite true ∨ ∃ σ, slope = Exact.real σ ∧ Checked.inner s.grad s.direction = .ok slope ∧ σ ≤ 0 ∧
      (σ = 0 → s.grad = Vec.zeros s.grad.length) := by
  obtain ⟨n, a, ha, hnorm⟩ := hs.grad
  cases h with
  | downhill hinner hneg =>
    cases slope with
    | nan => exact hneg.elim
    | infinite b =>
      have hb : b = true := hneg
      exact .inl (by rw [hb])
    | real σ =>
      have hneg : σ < 0 := hneg
      exact .inr ⟨σ, rfl, hinner, hneg.le, fun hzero => absurd hzero hneg.ne⟩
  | restarted hdir hslope =>
    rw [hnorm, real_neg, real_mul] at hslope
    refine .inr ⟨-‖a‖ * ‖a‖, hslope, ?_, ?_, fun hzero => ?_⟩
    · have hscale : (Vec.scale (-1) (vec a) : Vec (Exact ε)) = vec ((-1 : ℝ) • a) := scale_vec (a := -1)
      rw [hdir, ha, hscale]
      refine Checked.inner_eq_ok.mpr ⟨by simp, ?_⟩
      rw [hslope, inner_vec, inner_smul_right, real_inner_self_eq_norm_mul_norm]
      ring_nf
    · have := norm_nonneg a
      nlinarith
    · have hnorm : ‖a‖ = 0 := by nlinarith [norm_nonneg a]
      rw [ha, norm_eq_zero.mp hnorm, length_vec, zeros_eq]

theorem LineSearch.Approves.pays (hc : k.par.c1 = real c) (hc0 : 0 < c) (hs : k.problem.Measured s) {r : Reference (Exact ε)}
    {p : Probe (Exact ε)} (h : Approves k s r p) (hrule : k.par.lengthRule.isSufficientDecrease = true)
    (hp : p.At k s) (hahead : Perhaps (0 < ·) p.alpha) (ht : t.kept = s.kept) (hrec : Recorded k s p t)
    (hold : t.xOld = t.x) :
    ∃ m m' α σ, Pays c (t.moveTo p.trial) ⟨t.x, t.f, t.g, t.h⟩ p.trial m m' α σ := by
  have hx : t.x = s.x := congrArg Kept.x ht
  have hf : t.f = s.f := congrArg Kept.f ht
  have hh : t.h = s.h := congrArg Kept.h ht
  have hmu : t.mu = s.mu := congrArg Kept.mu ht
  have hgrad : t.grad = s.grad := congrArg Kept.grad ht
  obtain ⟨m, hm⟩ := hs.barrier
  obtain ⟨m', hm'⟩ := isFinite_iff.mp h.finite
  have hthere : p.trial.barrier s.mu = real m' := by
    have hmerit := hp.merit.symm.trans hm'
    unfold Trial.probeMerit at hmerit
    split at hmerit
    · cases hmerit
    · exact hmerit
  have hlimit : r.limit = real (m + allowance ε m) := by
    rw [h.refers.values]
    unfold reference
    dsimp only
    rw [hm, allowance_real, real_add]
  have hdecrease := h.decrease hrule
  rw [hm', hlimit, hc] at hdecrease
  have hslope := h.refers.slope.real hs
  obtain ⟨α, σ, hα, hα0, hσ, henough⟩ := real_of_decrease hc0 hahead
    (hslope.imp_right fun ⟨σ, hσ, _, hneg, _⟩ => ⟨σ, hσ, hneg⟩) hdecrease
  obtain ⟨σ', hσ', hinner, hneg, hzero⟩ := hslope.resolve_left (by rw [hσ]; nofun)
  obtain rfl := real_inj.mp (hσ.symm.trans hσ')
  have hadd := (Problem.trial_eq_ok hp.trial).1
  have halong : Checked.add t.alpha t.direction t.xOld = .ok p.trial.x := by
    rw [hrec.alpha, hrec.direction, hold, hx]
    exact hadd
  refine ⟨m, m', α, σ, ?_, ?_, ?_, hα0, ?_, hneg, ?_, henough, halong, ?_⟩
  · change Barrier.objective t.f t.h t.mu = real m
    rw [hf, hh, hmu, hm]
  · change p.trial.barrier t.mu = real m'
    rw [hmu, hthere]
  · exact hrec.alpha.trans hα
  · change Checked.inner t.grad t.direction = .ok (real σ)
    rw [hgrad, hrec.direction, hinner, hσ]
  · intro h0
    change t.grad = Vec.zeros t.grad.length
    rw [hgrad]
    exact hzero h0
  · obtain ⟨hlen, hsum⟩ := Checked.add_eq_ok.mp halong
    refine Checked.add_eq_ok.mpr ⟨?_, ?_⟩
    · change t.dx.length = t.xOld.length
      rw [hrec.dx, Vec.length_scale, ← hrec.direction, hlen]
    · change p.trial.x = Vec.add 1 t.dx t.xOld
      rw [hrec.dx, add_scale, ← hrec.direction, ← hrec.alpha, hsum]

/-- The accepted step that led to `t` was worth it to the driver that took it. -/
def Setup.Paid (k : Setup (Exact ε)) (t : State (Exact ε)) : Prop :=
  ∃ η c a b, k.par.eta1 = real η ∧ 0 < η ∧ η < 1 ∧ k.par.c1 = real c ∧ 0 < c ∧
    k.problem.evaluate t.xOld = .ok a ∧ k.problem.evaluate t.x = .ok b ∧
    (k.par.algorithm = .trustRegion → ∃ m m' π, TrustRegion.Pays η t a b m m' π) ∧
    (k.par.algorithm = .lineSearch → k.par.lengthRule.isSufficientDecrease = true →
      ∃ m m' α σ, LineSearch.Pays c t a b m m' α σ)

def Watch.paid (k : Setup (Exact ε)) : Watch (Exact ε) where
  visit loc t := loc = .afterStepBeforeGradient → k.Paid t
  trial _ _ := True

theorem Watch.paid_onStep {loc : Location} (hloc : loc.OnStep) (s : State (Exact ε)) : (paid k).visit loc s := by
  rintro rfl
  exact hloc.elim

/-- What a step starts from: a measured point that is its own last one. -/
structure Setup.Starts (k : Setup (Exact ε)) (q : Kept (Exact ε)) : Prop where
  hooks : k.hooks.Observing
  valid : k.parameterError? = none
  measured : ∀ s : State (Exact ε), s.kept = q → k.problem.Measured s
  old : q.xOld = q.x

variable {q : Kept (Exact ε)}

theorem Setup.Starts.xOld (hq : k.Starts q) (hs : s.kept = q) : s.xOld = s.x := by
  have hold : s.xOld = q.xOld := congrArg Kept.xOld hs
  have hx : s.x = q.x := congrArg Kept.x hs
  rw [hold, hx, hq.old]

/-- Accepting a trial point that passes and pays leads to a measured point. -/
theorem Setup.Starts.accept_wp (hq : k.Starts q) (ht : t.kept = q) {v : Trial (Exact ε)}
    (hv : k.problem.evaluate v.x = .ok v) (hpass : v.Passes t)
    (htr : ∀ η, k.par.algorithm = .trustRegion → k.par.eta1 = real η → 0 < η →
      ∃ m m' π, TrustRegion.Pays η (t.moveTo v) ⟨t.x, t.f, t.g, t.h⟩ v m m' π)
    (hls : ∀ c, k.par.algorithm = .lineSearch → k.par.lengthRule.isSufficientDecrease = true → k.par.c1 = real c →
      0 < c → ∃ m m' α σ, LineSearch.Pays c (t.moveTo v) ⟨t.x, t.f, t.g, t.h⟩ v m m' α σ) :
    wp (Watch.paid k) (accept k v) (fun _ => StepEnds k.problem.Measured fun _ => True) (fun _ _ => True) t := by
  obtain ⟨η, hη, hη0, hη1⟩ := Setup.eta1_real hq.valid
  obtain ⟨c, hc, hc0, -⟩ := Setup.c1_real hq.valid
  have hvalues := (hq.measured t ht).values
  have hafter : k.problem.Evaluated (t.moveTo v) := ⟨hv, isFinite_iff.mp hpass.barrier_finite⟩
  refine Running.accept_wp hq.hooks.stepOnly v (fun _ => ?_) (fun _ _ _ => nofun) (fun u hu => ?_) fun _ _ _ => trivial
  · refine ⟨η, c, _, v, hη, hη0, hη1, hc, hc0, ?_, hv, fun h => htr η h hη hη0, fun h hrule => hls c h hrule hc hc0⟩
    change k.problem.evaluate t.xOld = _
    rw [hq.xOld ht]
    exact hvalues
  · unfold StepEnds
    split
    case isFalse => trivial
    case isTrue hrunning =>
      obtain ⟨y, grad, hg, rfl⟩ := hu.sound_of_running hrunning
      exact hafter.graded hg

theorem Setup.Starts.attemptFrame (hq : k.Starts q) (htr : k.par.algorithm = .trustRegion) :
    TrustRegion.AttemptFrame k (Watch.paid k) (fun _ => StepEnds k.problem.Measured fun _ => True) (fun _ _ => True) q
      (fun _ _ => True) (fun _ => True) where
  hooks := hq.hooks.stepOnly
  visit loc s hloc _ _ := Watch.paid_onStep hloc s
  failed _ hs hstop := .of_stuck ⟨hs, .inl hstop⟩ trivial
  vanished _ hs _ _ := .of_stuck ⟨hs.kept, .inr rfl⟩ trivial
  halted _ _ _ := trivial
  composed _ _ _ _ _ _ _ _ := trivial
  seen _ _ _ := nofun
  trial _ _ _ _ _ _ := trivial
  shrunk _ _ _ _ _ := trivial
  grown _ _ _ _ _ := ⟨trivial, trivial⟩
  accepted s t v hs _ hv happroves ht hdx _ := by
    obtain ⟨hadd, heval⟩ := Problem.trial_eq_ok hv
    have hx : t.x = s.x := congrArg Kept.x (ht.kept.trans hs.kept.symm)
    refine hq.accept_wp ht.kept heval happroves.passes (fun η _ hη hη0 => happroves.pays hη hη0 ?_) fun c hls => ?_
    · rw [hdx, hq.xOld ht.kept, hx]
      exact hadd
    · rw [htr] at hls
      cases hls

theorem Setup.Starts.searchFrame (hq : k.Starts q) (hls : k.par.algorithm = .lineSearch) :
    LineSearch.SearchFrame k (Watch.paid k) (fun _ => StepEnds k.problem.Measured fun _ => True) (fun _ _ => True) q
      (fun _ => True) (fun _ => True) (fun _ _ => LineSearch.Perhaps (0 < ·)) where
  hooks := hq.hooks.stepOnly
  visit loc s hloc _ := Watch.paid_onStep hloc s
  failed _ hs hstop := .of_stuck ⟨hs, .inl hstop⟩ trivial
  vanished _ _ hs _ _ := .of_stuck ⟨hs.kept, .inr rfl⟩ trivial
  halted _ _ _ := trivial
  descent := trivial
  directed _ _ _ _ _ := trivial
  usable _ _ _ := trivial
  probing _ _ _ _ hb := ⟨trivial, LineSearch.perhaps_pos hb, _, {
    toLengths := LineSearch.ahead_lengths
    sees := fun _ _ _ => trivial
    halted := fun _ => trivial }⟩
  accepted s _ r p t hs _ hp happroves ht hrec := by
    have hkept := ht.kept.trans hs.kept.symm
    have hmu : t.mu = s.mu := congrArg Kept.mu hkept
    have hpass : p.trial.Passes t := .probe (by rw [hmu, ← hp.2.merit]; exact happroves.finite)
    refine hq.accept_wp ht.kept (Problem.trial_eq_ok hp.2.trial).2 hpass (fun η htr => ?_) fun c _ hrule hc hc0 => ?_
    · rw [hls] at htr
      cases htr
    · exact happroves.pays hc hc0 (hq.measured s hs.kept) hrule hp.2 hp.1 hkept hrec (hq.xOld ht.kept)

theorem Setup.Starts.stepFrame (hq : k.Starts q) (hud : k.par.algorithm = .userDefined) :
    StepFrame k (Watch.paid k) (fun _ => StepEnds k.problem.Measured fun _ => True) (fun _ _ => True) q where
  hooks := hq.hooks.stepOnly
  visit loc s hloc _ := Watch.paid_onStep hloc s
  trial _ _ _ := trivial
  stuck _ hs := .of_stuck hs trivial
  halted _ _ _ := trivial
  accepted t v ht hv hpass := by
    obtain ⟨_, _, hv⟩ := hv.exists_trial
    refine hq.accept_wp ht.kept (Problem.trial_eq_ok hv).2 hpass (fun _ h => ?_) fun _ h => ?_
    · rw [hud] at h
      cases h
    · rw [hud] at h
      cases h

/-- A step of any driver that ends well leads to a measured point, and pays where it accepts one. -/
theorem Setup.Starts.takeStep_wp (hq : k.Starts q) (hs : Active q s) :
    wp (Watch.paid k) (takeStep k) (fun _ => StepEnds k.problem.Measured fun _ => True) (fun _ _ => True) s := by
  unfold takeStep
  split
  case h_1 htr => exact TrustRegion.attempts_wp (hq.attemptFrame htr) _ ⟨hs, trivial⟩
  case h_2 hls => exact LineSearch.step_wp (hq.searchFrame hls) ⟨hs, trivial, trivial⟩
  case h_3 hud => exact UserStep.step_wp (hq.stepFrame hud) hs

/-! ### Runs -/

theorem Setup.paid_loopFrame (hk : k.hooks.Observing) (hvalid : k.parameterError? = none) :
    LoopFrame k (Watch.paid k) (fun _ _ => True) k.problem.Measured k.problem.Measured k.problem.Measured
      (fun _ => True) where
  hooks := hk.stepOnly
  head _ _ := nofun
  assessed _ _ hs ht := hs.assessed hvalid ht
  assessHalted _ _ _ _ _ := trivial
  started _ _ := nofun
  saved s v hs hrunning _ := by
    have hs' : k.problem.Measured (s.beforeStep v) := ⟨⟨hs.values, hs.barrier⟩, hs.grad⟩
    have hq : k.Starts (s.beforeStep v).kept := ⟨hk, hvalid, fun t ht => hs'.of_kept ht, rfl⟩
    exact ⟨nofun, hq.takeStep_wp ⟨rfl, hrunning⟩⟩
  saveHalted _ _ _ _ := trivial
  stepped _ _ := nofun
  paired _ _ hs _ _ := ⟨nofun, nofun, ⟨hs.values, hs.barrier⟩, hs.grad⟩
  pairHalted _ _ _ := trivial
  outOfFuel _ _ := trivial

theorem Setup.Opened.measured {v : Trial (Exact ε)} {y grad : Vec (Exact ε)} (h : k.Opened s v y grad) :
    k.problem.Measured (k.openedState s v y grad) := by
  have hx := (Problem.evaluate_eq_ok h.evaluated).1
  have hpoint : k.problem.Evaluated (k.firstPoint s v) := by
    refine ⟨?_, isFinite_iff.mp h.feasible⟩
    change k.problem.evaluate v.x = .ok v
    rw [hx]
    exact h.evaluated
  obtain ⟨⟨hvalues, hbarrier⟩, hgrad⟩ := hpoint.graded h.graded
  exact ⟨⟨hvalues, hbarrier⟩, hgrad⟩

/-- Every accepted step of a run is worth it. -/
theorem Problem.solve_pays (p : Problem (Exact ε)) {hooks : Hooks (Exact ε)} (hk : hooks.Observing)
    (par : Parameters (Exact ε)) (s₀ : State (Exact ε)) (ht : (.afterStepBeforeGradient, t) ∈ (p.solve par hooks s₀).visits) :
    (⟨par, p, hooks, s₀.x.length⟩ : Setup (Exact ε)).Paid t := by
  have hgoes : (p.solve par hooks s₀).Goes (Watch.paid ⟨par, p, hooks, s₀.x.length⟩) (fun _ _ _ => True)
      (fun _ _ _ => True) ⟨par, p, hooks, s₀.x.length⟩ s₀ := by
    refine solve_goes rfl hk.stepOnly fun v y grad ho => ?_
    refine wp_mono (LoopFrame.loop_wp (Setup.paid_loopFrame hk ho.valid) ho.measured nofun fun _ _ => nofun) ?_
      fun _ _ h => h
    exact fun _ _ _ => trivial
  rcases hgoes.visit ht with hopening | hstart | hpaid
  · simp [Watch.opening] at hopening
  · cases hstart
  · exact hpaid rfl

/-- Steps lower the merit, in exact arithmetic with any distance `ε` from one to the next number and whatever the
functions of the problem are.

An accepted trust-region step has a real prediction `π`, and the merits before and after it differ by at least the
part `η` of it, up to the allowance. An accepted step of a line search that asks for a sufficient decrease has a
positive length along a direction whose slope is negative unless the gradient vanishes, and the barrier objective falls
in proportion to both, up to the allowance. So the objective of an unconstrained problem never rises by more than that. -/
theorem Problem.merit_descends (p : Problem (Exact ε)) {hooks : Hooks (Exact ε)} (hk : hooks.Observing)
    (par : Parameters (Exact ε)) (s₀ : State (Exact ε)) :
    ∀ t, (.afterStepBeforeGradient, t) ∈ (p.solve par hooks s₀).visits →
      (⟨par, p, hooks, s₀.x.length⟩ : Setup (Exact ε)).Paid t ∧
      (p.equality = none → p.inequality = none →
        par.algorithm = .trustRegion ∨ par.algorithm = .lineSearch ∧ par.lengthRule.isSufficientDecrease = true →
        ∃ u v, p.objective.value t.xOld = .ok (real u) ∧ p.objective.value t.x = .ok (real v) ∧
          v ≤ u + allowance ε u) := by
  intro t ht
  have hpaid := p.solve_pays hk par s₀ ht
  refine ⟨hpaid, fun hg hh hdriver => ?_⟩
  obtain ⟨η, c, a, b, -, -, -, -, hc, ha, hb, htr, hls⟩ := hpaid
  obtain ⟨-, hfa, -, hga, -, hha⟩ := Problem.evaluate_eq_ok ha
  obtain ⟨-, hfb, -, hgb, -, hhb⟩ := Problem.evaluate_eq_ok hb
  rw [hfa, hfb]
  rcases hdriver with htr' | ⟨hls', hrule⟩
  · obtain ⟨m, m', π, hpays⟩ := htr htr'
    have hhere := hpays.here
    have hthere := hpays.there
    rw [hga hg, hha hh] at hhere
    rw [hgb hg, hhb hh] at hthere
    have hm : a.f = real m := Except.ok.inj hhere
    have hm' : b.f = real m' := Except.ok.inj hthere
    exact ⟨m, m', congrArg Except.ok hm, congrArg Except.ok hm', hpays.descends.le⟩
  · obtain ⟨m, m', α, σ, hpays⟩ := hls hls' hrule
    have hm : a.f = real m := by
      rw [← hpays.here, Trial.barrier, hha hh]
      rfl
    have hm' : b.f = real m' := by
      rw [← hpays.there, Trial.barrier, hhb hh]
      rfl
    have hfall : c * α * σ ≤ 0 := mul_nonpos_of_nonneg_of_nonpos (mul_pos hc hpays.ahead).le hpays.downhill
    have henough := hpays.enough
    refine ⟨m, m', congrArg Except.ok hm, congrArg Except.ok hm', ?_⟩
    linarith

/-- The least square of a number, by steepest descents with halved lengths. -/
theorem Problem.merit_descends_square :
    let p : Problem (Exact ⟨1, Set.mem_Ioi.mpr one_pos⟩) := { leastHalfSquare with inequality := none }
    let par : Parameters (Exact ⟨1, Set.mem_Ioi.mpr one_pos⟩) :=
      { Parameters.default with algorithm := .lineSearch, lengthRule := .backTracking }
    let s₀ : State (Exact ⟨1, Set.mem_Ioi.mpr one_pos⟩) := State.new [1]
    (Hooks.passive : Hooks (Exact ⟨1, Set.mem_Ioi.mpr one_pos⟩)).Observing ∧
    ∀ t, (.afterStepBeforeGradient, t) ∈ (p.solve par .passive s₀).visits →
      (⟨par, p, .passive, 1⟩ : Setup (Exact ⟨1, Set.mem_Ioi.mpr one_pos⟩)).Paid t ∧
      ∃ u v, p.objective.value t.xOld = .ok (real u) ∧ p.objective.value t.x = .ok (real v) ∧ v ≤ u + 10 * max |u| 1 := by
  intro p par s₀
  have hk : (Hooks.passive : Hooks (Exact ⟨1, Set.mem_Ioi.mpr one_pos⟩)).Observing := fun _ _ => rfl
  refine ⟨hk, fun t ht => ?_⟩
  obtain ⟨hpaid, hfall⟩ := p.merit_descends hk par s₀ t ht
  obtain ⟨u, v, hu, hv, hle⟩ := hfall rfl rfl (.inr ⟨rfl, rfl⟩)
  refine ⟨hpaid, u, v, hu, hv, ?_⟩
  unfold allowance at hle
  simpa using hle

end ConstrainedOpt
