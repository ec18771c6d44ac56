import Mathlib.NumberTheory.Real.GoldenRatio
import ConstrainedOpt.Proofs.Run.Opening
import ConstrainedOpt.Proofs.Run.Search
import ConstrainedOpt.Proofs.Exact.Gradient
import ConstrainedOpt.Proofs.Containment.Composite

/-! # Contained lengths

In exact arithmetic a line search looks for its length along a real direction, and between the current point
and the longest safe length: no kind of search leaves the safeguard.
-/
namespace ConstrainedOpt
open Exact Journaled
variable {ε : Set.Ioi (0 : ℝ)} {n m : ℕ} {k : Setup (Exact ε)} {s : State (Exact ε)}
  {J : Euclidean n →ₗ[ℝ] Euclidean m} {h : Euclidean m} {γ ζ : ℝ}

/-! ### Directions -/

namespace QuasiNewton

theorem inverseLoops_real {pairs : List (Vec (Exact ε) × Vec (Exact ε) × Exact ε)}
    (hpairs : ∀ q ∈ pairs, ∃ (u w : Euclidean n) (c : ℝ), c ≠ 0 ∧ q = (vec u, vec w, real c)) {v : Euclidean n}
    {z : Vec (Exact ε)} (hz : inverseLoops pairs (vec v) = .ok z) : ∃ w : Euclidean n, z = vec w := by
  induction pairs generalizing v z with
  | nil =>
    cases hz
    exact ⟨v, rfl⟩
  | cons q older ih =>
    obtain ⟨u, w, c, hc, rfl⟩ := hpairs q List.mem_cons_self
    obtain ⟨a, ha, hz⟩ := Checked.bind_eq_ok.mp hz
    rw [checked_inner_eq_ok ha, real_div hc] at hz
    dsimp only at hz
    rw [real_neg] at hz
    obtain ⟨v', hv', hz⟩ := Checked.bind_eq_ok.mp hz
    rw [checked_add_eq_ok hv'] at hz
    obtain ⟨t, ht, hz⟩ := Checked.bind_eq_ok.mp hz
    obtain ⟨t, rfl⟩ := ih (fun q hq => hpairs q (List.mem_cons_of_mem _ hq)) ht
    obtain ⟨b, hb, hz⟩ := Checked.bind_eq_ok.mp hz
    rw [checked_inner_eq_ok hb, real_div hc, real_sub] at hz
    exact ⟨_, checked_add_eq_ok hz⟩

/-- Pairs of nonpositive curvature are left out, so no update divides by zero. -/
theorem inverseBfgs_real {h : History (Exact ε)} (hh : h.Real n) {v : Euclidean n} {z : Vec (Exact ε)}
    (hz : inverseBfgs h (vec v) = .ok z) : ∃ w : Euclidean n, z = vec w := by
  obtain ⟨pairs, hpairs, hz⟩ := Checked.bind_eq_ok.mp hz
  obtain ⟨all, hall, hpairs⟩ := Checked.bind_eq_ok.mp hpairs
  cases hpairs
  refine inverseLoops_real (fun q hq => ?_) hz
  obtain ⟨hmem, hpos⟩ := List.mem_filter.mp hq
  obtain ⟨⟨_, _⟩, hpair, hq⟩ := Checked.mem_of_mapM hall q hmem
  obtain ⟨u, w, hpair⟩ := hh _ hpair
  obtain ⟨rfl, rfl⟩ := Prod.mk.inj hpair
  obtain ⟨c, hc, hq⟩ := Checked.bind_eq_ok.mp hq
  cases hq
  rw [checked_inner_eq_ok hc] at hpos ⊢
  exact ⟨u, w, _, (real_lt.mp (of_decide_eq_true hpos)).ne', rfl⟩

end QuasiNewton

namespace LineSearch

theorem conjugateWeight_real {last : Vec (Exact ε)} {β : Exact ε} (hβ : conjugateWeight k s last = .ok β) :
    ∃ b, β = real b := by
  unfold conjugateWeight at hβ
  split at hβ
  · cases hβ
    exact ⟨0, rfl⟩
  · obtain ⟨before, -, hβ⟩ := Checked.bind_eq_ok.mp hβ
    obtain ⟨β', -, hβ⟩ := Checked.bind_eq_ok.mp hβ
    split at hβ
    case isTrue hfin =>
      cases hβ
      exact isFinite_iff.mp hfin
    case isFalse =>
      cases hβ
      exact ⟨0, rfl⟩

theorem newtonSolve_real (hdim : k.n = n) (hH : (k.hessian s).Propagates n) (last : Vec (Exact ε)) :
    (newtonSolve k s last).Ensures fun out => ∀ r, out = .ok r → ∃ v : Euclidean n, r.step = vec v := by
  have hparts : TruncatedCG.Parts ⟨k.par.truncated, k.hessian s, k.preconditioner s, Operator.identity k.n, s.grad,
      Scalar.infinity, .unlimited⟩ (⊤ : Submodule ℝ (Euclidean n)) Set.univ := {
    hessian := hH
    projector := Operator.identity_strict k.n
    into := fun x => ensures_lift fun z hz hfin => by
      obtain ⟨v, hv⟩ := exists_vec ((Checked.axpby_length hz).trans length_vec) hfin
      exact ⟨v, trivial, hv⟩
    guards := Safeguard.unlimited_guards
    zero := trivial }
  unfold newtonSolve
  rw [hdim, zeros_eq]
  rw [hdim] at hparts
  refine (TruncatedCG.solve_ensures (o := 0) hparts ⟨le_infinite, trivial⟩ _ _).mono ?_
  intro out hout r hr
  obtain ⟨-, v, -, hv, -⟩ := hout r hr
  exact ⟨v, hv⟩

theorem lastDirection_real (hdim : k.n = n) {v : Euclidean n} (hs : s.direction = vec v) :
    lastDirection k s = vec v := by
  unfold lastDirection
  rw [hs, hdim, length_vec, Nat.sub_self, List.take_of_length_le length_vec.le]
  exact List.append_nil _

theorem Directed.real (hdim : k.n = n) (hH : (k.hessian s).Propagates n) (hh : s.history.Real n) {g v : Euclidean n}
    (hgrad : s.grad = vec g) (hs : s.direction = vec v) {d : Vec (Exact ε)}
    (hd : Directed k s (lastDirection k s) d) : ∃ w : Euclidean n, d = vec w := by
  rw [lastDirection_real hdim hs] at hd
  cases hd with
  | steepest =>
    rw [hgrad]
    exact ⟨_, scale_vec (a := -1)⟩
  | conjugate hβ hd =>
    obtain ⟨b, rfl⟩ := conjugateWeight_real hβ
    rw [hgrad, scale_vec] at hd
    exact ⟨_, checked_add_eq_ok (a := -1) hd⟩
  | inverse hd =>
    rw [hgrad] at hd
    have hreal : ((QuasiNewton.operator .invBfgs k.n 1 s.history).apply (-1) (vec g) 0 (vec v)).Ensures fun z =>
        ∃ w : Euclidean n, z = vec w := by
      refine ensures_bind (ensures_lift fun u hu => (Checked.copy_eq_ok.mp hu).2) ?_
      rintro _ rfl
      refine ensures_bind (ensures_lift fun z hz => QuasiNewton.inverseBfgs_real hh hz) ?_
      rintro _ ⟨w, rfl⟩
      exact ensures_lift fun z hz => ⟨_, checked_axpby_eq_ok (a := -1) (b := 0) hz⟩
    exact hreal.answer hd
  | newton hr => exact (newtonSolve_real hdim hH _).answer hr _ rfl

/-! ### Lengths -/

theorem goldenRatio_eq : (goldenRatio : Exact ε) = real Real.goldenRatio⁻¹ := by
  have hfive : (Scalar.ofNat 5 : Exact ε) = real 5 := by
    change real (OfScientific.ofScientific 5 false 0) = _
    norm_num
  unfold goldenRatio
  rw [hfive, sqrt_real (by norm_num), one_eq, real_sub, real_add, real_div (by norm_num), Real.inv_goldenRatio, real_inj]
  ring

theorem goldenRatio_real : ∃ φ, (goldenRatio : Exact ε) = real φ ∧ 0 < φ ∧ φ < 1 :=
  ⟨_, goldenRatio_eq, inv_pos.mpr Real.goldenRatio_pos, inv_lt_one_of_one_lt₀ Real.one_lt_goldenRatio⟩

/-- The lengths between zero and `b`. -/
def UpTo (b a : Exact ε) : Prop := ∃ β τ : ℝ, b = real β ∧ 0 ≤ τ ∧ τ ≤ 1 ∧ a = real (τ * β)

theorem upTo_lengths (β : ℝ) : Lengths (UpTo (real β : Exact ε)) (UpTo (real β : Exact ε)) where
  zero := ⟨β, 0, rfl, le_rfl, zero_le_one, by simp⟩
  lower _ ha := ha
  half := by
    rintro _ ⟨_, τ, hβ, h0, h1, rfl⟩
    refine ⟨β, τ / 2, rfl, by linarith, by linarith, ?_⟩
    rw [← real_inj.mp hβ, half_eq, real_mul, real_inj]
    ring
  below := by
    rintro _ _ ⟨_, τ, hβ, h0, h1, rfl⟩ ⟨_, υ, hβ', h0', h1', rfl⟩
    obtain ⟨φ, hφ, hφ0, hφ1⟩ := goldenRatio_real (ε := ε)
    rw [← real_inj.mp hβ, ← real_inj.mp hβ', hφ]
    refine ⟨β, υ - φ * (υ - τ), rfl, by nlinarith, by nlinarith, ?_⟩
    simp only [real_sub, real_mul, real_inj]
    ring
  above := by
    rintro _ _ ⟨_, τ, hβ, h0, h1, rfl⟩ ⟨_, υ, hβ', h0', h1', rfl⟩
    obtain ⟨φ, hφ, hφ0, hφ1⟩ := goldenRatio_real (ε := ε)
    rw [← real_inj.mp hβ, ← real_inj.mp hβ', hφ]
    refine ⟨β, τ + φ * (υ - τ), rfl, by nlinarith, by nlinarith, ?_⟩
    simp only [real_sub, real_mul, real_add, real_inj]
    ring

/-- The safeguard cuts a real starting length to a part of it, the whole of which is safe. -/
theorem safeLength_safe (hk : k.RealAt s J h) (hγ : k.par.gamma = real γ) (hγ0 : 0 ≤ γ) {d : Euclidean n}
    (hd : s.direction = vec d) {a : ℝ} (ha : s.alphaStart = real a) {b : Exact ε} (hb : SafeLength k s b) :
    ∃ β, b = real β ∧ β • d ∈ k.problem.safe J h γ := by
  unfold SafeLength at hb
  split at hb
  case h_1 hp => exact ⟨a, hb.trans ha, fun hne => absurd hp hne⟩
  case h_2 =>
    obtain ⟨sg, θ, hsg, hθ, rfl⟩ := hb
    rw [hγ] at hsg
    rw [hk.dim, zeros_eq, ha, hd, scale_vec] at hθ
    have hguards := (hk.safeguard hγ0).answer hsg sg rfl
    obtain ⟨t, rfl, -, -, hsafe, -⟩ :=
      (hguards.fraction 0 0 (a • d) (Problem.zero_mem_safe hk.slack hγ0)).answer hθ
    refine ⟨a * t, by rw [ha, real_mul], ?_⟩
    rwa [zero_add, smul_smul, mul_comm] at hsafe

/-- Between zero and a safe length every length is safe. -/
theorem UpTo.safe (hk : k.RealAt s J h) (hγ0 : 0 ≤ γ) {d : Euclidean n} {β : ℝ} {a : Exact ε}
    (hβ : β • d ∈ k.problem.safe J h γ) (ha : UpTo (real β) a) :
    ∃ α, a = real α ∧ α • d ∈ k.problem.safe J h γ := by
  obtain ⟨_, τ, hβ', h0, h1, rfl⟩ := ha
  rw [← real_inj.mp hβ']
  refine ⟨τ * β, rfl, fun hp => ?_⟩
  have hzero : 0 ∈ safeSteps J h γ := Problem.zero_mem_safe hk.slack hγ0 hp
  have hmem := (convex_safeSteps J h γ) hzero (hβ hp) (sub_nonneg.mpr h1) h0 (sub_add_cancel 1 τ)
  rwa [smul_zero, zero_add, smul_smul] at hmem

/-- A trial point of a line search: along the direction of `s`, at a length within the safeguard. -/
def Contained (k : Setup (Exact ε)) (J : Euclidean n →ₗ[ℝ] Euclidean m) (h : Euclidean m) (γ : ℝ)
    (s : State (Exact ε)) (t : Trial (Exact ε)) : Prop :=
  ∃ (α : ℝ) (d : Euclidean n), s.direction = vec d ∧ k.problem.trial s.x (vec d) (real α) = .ok t ∧
    α • d ∈ k.problem.safe J h γ

/-! ### Frames -/

/-- What a statement about a line search in exact arithmetic has to bring along. -/
structure ContainedFrame (k : Setup (Exact ε)) (W : Watch (Exact ε)) (Q : Unit → State (Exact ε) → Prop)
    (E : Halt → State (Exact ε) → Prop) (c : Kept (Exact ε)) (J : Euclidean n →ₗ[ℝ] Euclidean m) (h : Euclidean m)
    (γ : ℝ) : Prop where
  hooks : k.hooks.StepOnly
  visit : ∀ loc s, loc.OnStep → s.kept = c → W.visit loc s
  stuck : ∀ s, Stuck c s → Q () s
  halted : ∀ e s, s.kept = c → E e s
  realAt : ∀ s : State (Exact ε), s.kept = c → k.RealAt s J h
  gamma : k.par.gamma = real γ
  gamma_nonneg : 0 ≤ γ
  grad : ∃ g : Euclidean n, c.grad = vec g
  history : c.history.Real n
  trial : ∀ s t, s.kept = c → Contained k J h γ s t → W.trial s t
  accepted : ∀ s v t, s.kept = c → Contained k J h γ s v → v.Passes t → Active c t → t.direction = s.direction →
    (∃ d : Euclidean n, t.dx = vec d ∧ ∀ x : Euclidean n, s.x = vec x → v.x = vec (x + d)) →
    (∃ a, t.alphaStart = real a) → Running.wp W (Running.accept k v) Q E t

theorem ContainedFrame.searchFrame {W : Watch (Exact ε)} {Q : Unit → State (Exact ε) → Prop}
    {E : Halt → State (Exact ε) → Prop} {c : Kept (Exact ε)} (fr : ContainedFrame k W Q E c J h γ) :
    SearchFrame k W Q E c (fun d => ∃ v : Euclidean n, d = vec v) (fun a => ∃ r, a = real r) fun _ => UpTo where
  hooks := fr.hooks
  visit := fr.visit
  failed s hs hstop := fr.stuck s ⟨hs, .inl hstop⟩
  vanished _ _ hs _ _ := fr.stuck _ ⟨hs.kept, .inr rfl⟩
  halted := fr.halted
  descent := by
    obtain ⟨g, hg⟩ := fr.grad
    exact ⟨_, hg ▸ scale_vec (a := -1)⟩
  directed s d hs hv hd := by
    obtain ⟨v, hv⟩ := hv
    obtain ⟨g, hg⟩ := fr.grad
    have hk := fr.realAt s hs
    have hgrad : s.grad = c.grad := congrArg Kept.grad hs
    have hhistory : s.history = c.history := congrArg Kept.history hs
    exact Directed.real hk.dim hk.hessian (hhistory ▸ fr.history) (hgrad.trans hg) hv hd
  usable a _ hfin := isFinite_iff.mp hfin
  probing s b hs hb _ := by
    obtain ⟨d, hd⟩ := hs.direction
    obtain ⟨a, ha⟩ := hs.alphaStart
    have hk := fr.realAt s hs.kept
    obtain ⟨β, rfl, hsafe⟩ := safeLength_safe hk fr.gamma fr.gamma_nonneg hd ha hb
    refine ⟨⟨_, by rw [half_eq, real_mul]⟩, ⟨β, 1, rfl, zero_le_one, le_rfl, by rw [one_mul]⟩, _, {
      toLengths := upTo_lengths β
      sees := fun p hp hat => ?_
      halted := fun p => fr.halted _ s hs.kept }⟩
    obtain ⟨α, hα, hmem⟩ := UpTo.safe hk fr.gamma_nonneg hsafe hp
    refine fr.trial s p.trial hs.kept ⟨α, d, hd, ?_, hmem⟩
    rw [← hα, ← hd]
    exact hat.trial
  accepted s b _ p t hs hb hp happroves ht hrec := by
    obtain ⟨d, hd⟩ := hs.direction
    obtain ⟨a, ha⟩ := hs.alphaStart
    have hk := fr.realAt s hs.kept
    obtain ⟨β, rfl, hsafe⟩ := safeLength_safe hk fr.gamma fr.gamma_nonneg hd ha hb
    obtain ⟨α, hα, hmem⟩ := UpTo.safe hk fr.gamma_nonneg hsafe hp.1
    have htrial : k.problem.trial s.x (vec d) (real α) = .ok p.trial := by
      rw [← hα, ← hd]
      exact hp.2.trial
    have hmu : t.mu = s.mu := congrArg Kept.mu (ht.kept.trans hs.kept.symm)
    have hpass : p.trial.Passes t := by
      refine .probe ?_
      rw [hmu]
      exact hp.2.merit ▸ happroves.finite
    refine fr.accepted s p.trial t hs.kept ⟨α, d, hd, htrial, hmem⟩ hpass ht hrec.direction ⟨α • d, ?_, fun x hx => ?_⟩ ?_
    · rw [hrec.dx, hα, hd, scale_vec]
    · have hadd := (Problem.trial_eq_ok htrial).1
      rw [hx] at hadd
      exact checked_add_eq_ok hadd
    · rw [hrec.alphaStart, hα]
      unfold nextStart
      split
      · exact ⟨1, rfl⟩
      · exact ⟨1, rfl⟩
      · exact ⟨_, by rw [two_eq, real_mul]⟩

end LineSearch
end ConstrainedOpt
