import ConstrainedOpt.Run.Entry
import ConstrainedOpt.Proofs.Exact.Number

/-! # Checked parameters

What the check of the parameters promises to the rest of a run.
-/
namespace ConstrainedOpt
open Exact

section Check
variable {F : Type} [Scalar F] {k : Setup F}

theorem Parameters.validate_ok {p : Parameters F} {c : ProblemClass} {u : Unit} (h : p.validate c = .ok u) :
    ¬(p.algorithm = .lineSearch ∧ (c = .equalityConstrained ∨ c = .constrained)) ∧ ∀ r ∈ p.ranges, r.1 = true := by
  unfold validate at h
  by_cases hls : p.algorithm = .lineSearch ∧ (c = .equalityConstrained ∨ c = .constrained)
  · rw [if_pos hls] at h
    cases h
  · rw [if_neg hls] at h
    refine ⟨hls, fun r hr => ?_⟩
    by_contra hne
    obtain ⟨⟨b, name⟩, hfirst⟩ := Option.isSome_iff_exists.mp
      (List.find?_isSome.mpr ⟨r, hr, by simpa using hne⟩ : (p.ranges.find? fun r => !r.1).isSome)
    rw [hfirst] at h
    cases h

theorem Setup.validate_of_valid (hk : k.parameterError? = none) :
    ∃ u, k.par.validate k.problem.problemClass = .ok u := by
  unfold Setup.parameterError? at hk
  cases hv : k.par.validate k.problem.problemClass with
  | error e =>
    rw [hv] at hk
    cases hk
  | ok u => exact ⟨u, rfl⟩

theorem Setup.range_of_valid (hk : k.parameterError? = none) : ∀ r ∈ k.par.ranges, r.1 = true :=
  (Parameters.validate_ok (validate_of_valid hk).choose_spec).2

/-- A line search is only let loose on problems without equality constraints. -/
theorem Setup.equality_of_lineSearch (hk : k.parameterError? = none) (hls : k.par.algorithm = .lineSearch) :
    k.problem.equality = none := by
  have hclass := (Parameters.validate_ok (validate_of_valid hk).choose_spec).1
  unfold Problem.problemClass at hclass
  cases hg : k.problem.equality with
  | none => rfl
  | some c =>
    refine absurd ⟨hls, ?_⟩ hclass
    rw [hg]
    cases k.problem.inequality
    · exact .inl rfl
    · exact .inr rfl

end Check

variable {ε : Set.Ioi (0 : ℝ)} {k : Setup (Exact ε)} {γ ζ δ : ℝ}

/-- The fractions of checked parameters. -/
structure Parameters.Fractions (p : Parameters (Exact ε)) (γ ζ : ℝ) : Prop where
  gamma : p.gamma = real γ
  gamma_pos : 0 < γ
  gamma_lt : γ < 1
  zeta : p.quasinormal.zeta = real ζ
  zeta_pos : 0 < ζ
  zeta_lt : ζ < 1

theorem Parameters.exists_fraction {a : Exact ε} (ha : isFraction a = true) : ∃ x, a = real x ∧ 0 < x ∧ x < 1 := by
  unfold isFraction at ha
  rw [Bool.and_eq_true, decide_eq_true_iff, decide_eq_true_iff] at ha
  cases a with
  | nan => exact ha.1.elim
  | infinite s =>
    have hpos : s = false := ha.1
    have hneg : s = true := ha.2
    exact absurd (hpos.symm.trans hneg) Bool.false_ne_true
  | real x => exact ⟨x, rfl, real_lt.mp ha.1, real_lt.mp ha.2⟩

theorem Setup.exists_fractions (hk : k.parameterError? = none) : ∃ γ ζ, k.par.Fractions γ ζ := by
  have hrange := range_of_valid hk
  have hgamma : Parameters.isFraction k.par.gamma = true :=
    hrange (Parameters.isFraction k.par.gamma, "gamma") (by simp [Parameters.ranges])
  have hzeta : Parameters.isFraction k.par.quasinormal.zeta = true :=
    hrange (Parameters.isFraction k.par.quasinormal.zeta, "quasinormal.zeta") (by simp [Parameters.ranges])
  obtain ⟨γ, hγ, hγ0, hγ1⟩ := Parameters.exists_fraction hgamma
  obtain ⟨ζ, hζ, hζ0, hζ1⟩ := Parameters.exists_fraction hzeta
  exact ⟨γ, ζ, hγ, hγ0, hγ1, hζ, hζ0, hζ1⟩

theorem Setup.fractions (hk : k.parameterError? = none) (hγ : k.par.gamma = real γ)
    (hζ : k.par.quasinormal.zeta = real ζ) : k.par.Fractions γ ζ := by
  obtain ⟨γ', ζ', h⟩ := exists_fractions hk
  obtain rfl := real_inj.mp (hγ.symm.trans h.gamma)
  obtain rfl := real_inj.mp (hζ.symm.trans h.zeta)
  exact h

/-- The barrier parameter is reduced by a fraction. -/
theorem Setup.muReduce_real (hk : k.parameterError? = none) : ∃ θ, k.par.muReduce = real θ ∧ 0 < θ ∧ θ < 1 :=
  Parameters.exists_fraction
    (range_of_valid hk (Parameters.isFraction k.par.muReduce, "mu_reduce") (by simp [Parameters.ranges]))

/-- The part of the slope that line searches ask for is a fraction. -/
theorem Setup.c1_real (hk : k.parameterError? = none) : ∃ c, k.par.c1 = real c ∧ 0 < c ∧ c < 1 :=
  Parameters.exists_fraction
    (range_of_valid hk (Parameters.isFraction k.par.c1, "c1") (by simp [Parameters.ranges]))

/-- The part of the predicted reduction that trust regions ask for is a fraction, although only its successor is
checked against one. -/
theorem Setup.eta1_real (hk : k.parameterError? = none) : ∃ η, k.par.eta1 = real η ∧ 0 < η ∧ η < 1 := by
  have hrange := range_of_valid hk
  have hlow : (decide (0 < k.par.eta1) && decide (k.par.eta1 < k.par.eta2)) = true :=
    hrange (decide (0 < k.par.eta1) && decide (k.par.eta1 < k.par.eta2), "eta1") (by simp [Parameters.ranges])
  have hhigh : decide (k.par.eta2 < 1) = true :=
    hrange (decide (k.par.eta2 < 1), "eta2") (by simp [Parameters.ranges])
  rw [Bool.and_eq_true, decide_eq_true_iff, decide_eq_true_iff] at hlow
  rw [decide_eq_true_iff] at hhigh
  obtain ⟨hpos, hlt⟩ := hlow
  generalize k.par.eta1 = a at hpos hlt ⊢
  generalize k.par.eta2 = b at hhigh hlt
  cases b with
  | nan => exact absurd hlt not_lt_nan
  | infinite q =>
    have hq : q = true := hhigh
    rw [hq] at hlt
    cases a with
    | nan => exact hlt.elim
    | infinite p => exact Bool.noConfusion hlt.2
    | real η => exact Bool.noConfusion hlt
  | real η₂ =>
    cases a with
    | nan => exact hlt.elim
    | infinite p =>
      have hp : p = true := hlt
      rw [hp] at hpos
      exact Bool.noConfusion hpos
    | real η => exact ⟨η, rfl, hpos, (real_lt.mp hlt).trans (real_lt.mp hhigh)⟩

/-- The barrier parameter a run starts with, when it is finite. -/
theorem Setup.barrier_pos {μ : ℝ} (hk : k.parameterError? = none) (hμ : k.par.mu = real μ) : 0 < μ := by
  have hpos : decide (0 < k.par.mu) = true :=
    range_of_valid hk (decide (0 < k.par.mu), "mu") (by simp [Parameters.ranges])
  rw [decide_eq_true_iff, hμ] at hpos
  exact real_lt.mp hpos

theorem Setup.epsMu_nonneg (hk : k.parameterError? = none) : 0 ≤ k.par.epsMu := by
  have hrange : decide (0 ≤ k.par.epsMu) = true :=
    range_of_valid hk (decide (0 ≤ k.par.epsMu), "eps_mu") (by simp [Parameters.ranges])
  rwa [decide_eq_true_iff] at hrange

theorem Setup.rho_pos (hk : k.parameterError? = none) : 0 < k.par.rho := by
  have hpos : decide (0 < k.par.rho) = true :=
    range_of_valid hk (decide (0 < k.par.rho), "rho") (by simp [Parameters.ranges])
  rwa [decide_eq_true_iff] at hpos

/-- The penalty a run starts with, when it is finite. -/
theorem Setup.penalty_pos {ρ : ℝ} (hk : k.parameterError? = none) (hρ : k.par.rho = real ρ) : 0 < ρ := by
  have hpos := rho_pos hk
  rw [hρ] at hpos
  exact real_lt.mp hpos

/-- The radii a run starts with and grows to, when the first one is finite. -/
theorem Setup.radius_pos (hk : k.parameterError? = none) (hδ : k.par.delta = real δ) :
    0 < δ ∧ real δ ≤ k.par.deltaMax := by
  have hrange := range_of_valid hk
  have hpos : decide (0 < k.par.delta) = true :=
    hrange (decide (0 < k.par.delta), "delta") (by simp [Parameters.ranges])
  have hmax : decide (k.par.delta ≤ k.par.deltaMax) = true :=
    hrange (decide (k.par.delta ≤ k.par.deltaMax), "delta_max") (by simp [Parameters.ranges])
  rw [decide_eq_true_iff, hδ] at hpos hmax
  exact ⟨real_lt.mp hpos, hmax⟩

theorem Parameters.default_valid {c : ProblemClass} : (default : Parameters (Exact ε)).validate c = .ok () := by
  have hlit : ∀ m s e, (OfScientific.ofScientific m s e : Exact ε) = real (OfScientific.ofScientific m s e) :=
    fun _ _ _ => rfl
  have hranges : (default : Parameters (Exact ε)).ranges.find? (fun r => !r.1) = none := by
    rw [List.find?_eq_none]
    unfold ranges default isFraction QuasinormalParam.default TruncatedParam.default
    simp only [hlit, zero_eq, one_eq, real_lt, real_le]
    norm_num
  unfold validate
  rw [hranges]
  rfl

end ConstrainedOpt
