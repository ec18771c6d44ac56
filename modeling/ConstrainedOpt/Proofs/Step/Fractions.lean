import Mathlib.Topology.Algebra.Module.FiniteDimension
import ConstrainedOpt.Proofs.Step.Safeguard

/-! # Fractions of a path

How much of a path stays in a set. Where finitely many continuous quantities must not become negative, and the largest
fraction is not the whole path, one of them has come to zero there: on a ball the path ends at the radius, under the
safeguard of a linearised constraint at a component of the slack that has been used up.
-/
namespace ConstrainedOpt
open Exact Journaled
variable {ε : Set.Ioi (0 : ℝ)} {n m : ℕ} {x p : Euclidean n} {t : ℝ}

theorem exists_eq_zero_of_isGreatest {ι : Type} [Finite ι] {f : ι → Euclidean n → ℝ} (hf : ∀ i, Continuous (f i))
    (ht : IsGreatest (fractions {v | ∀ i, 0 ≤ f i v} x p) t) (h1 : t < 1) : ∃ i, f i (x + t • p) = 0 := by
  obtain ⟨⟨h0, -, hmem⟩, hgreatest⟩ := ht
  by_contra hne
  have hpos : ∀ i, 0 < f i (x + t • p) := fun i => lt_of_le_of_ne (hmem i) fun h => hne ⟨i, h.symm⟩
  -- what is positive at a fraction is so a little further on
  have hnear : ∀ᶠ u in nhdsWithin t (Set.Ioi t), u < 1 ∧ ∀ i, 0 < f i (x + u • p) := by
    refine Filter.Eventually.filter_mono nhdsWithin_le_nhds ((gt_mem_nhds h1).and (Filter.eventually_all.mpr fun i => ?_))
    have hcont : Continuous fun u : ℝ => f i (x + u • p) := (hf i).comp (by fun_prop)
    exact hcont.continuousAt.eventually (lt_mem_nhds (hpos i))
  obtain ⟨u, ⟨hu1, hu⟩, htu⟩ := (hnear.and self_mem_nhdsWithin).exists
  have hle : u ≤ t := hgreatest ⟨h0.trans (le_of_lt htu), hu1.le, fun i => (hu i).le⟩
  exact absurd htu (not_lt.mpr hle)

theorem norm_eq_of_isGreatest {radius : ℝ} (ht : IsGreatest (fractions (Metric.closedBall 0 radius) x p) t) (h1 : t < 1) :
    ‖x + t • p‖ = radius := by
  have hball : Metric.closedBall (0 : Euclidean n) radius = {v | ∀ _ : Unit, 0 ≤ radius - ‖v‖} := by
    ext v
    simp
  rw [hball] at ht
  obtain ⟨-, hzero⟩ := exists_eq_zero_of_isGreatest (fun _ => continuous_const.sub continuous_norm) ht h1
  exact (sub_eq_zero.mp hzero).symm

theorem slack_eq_zero_of_isGreatest {J : Euclidean n →ₗ[ℝ] Euclidean m} {h : Euclidean m} {κ : ℝ}
    (ht : IsGreatest (fractions (safeSteps J h κ) x p) t) (h1 : t < 1) : ∃ i, κ * h i + J (x + t • p) i = 0 := by
  have hJ : Continuous J := J.continuous_of_finiteDimensional
  exact exists_eq_zero_of_isGreatest (f := fun i v => κ * h i + J v i) (fun i => by fun_prop) ht h1

/-- Two bounds cut the path at the same fraction. -/
def Tied (S T : Set (Euclidean n)) (x p : Euclidean n) : Prop :=
  ∃ t, t < 1 ∧ IsGreatest (fractions S x p) t ∧ IsGreatest (fractions T x p) t

/-! ### Safeguards that keep a slack -/

/-- The safeguard keeps the part `κ` of the slack `h` of a linearised constraint. Without a constraint it is not asked. -/
def Safeguard.Keeps (sg : Safeguard (Exact ε)) (J : Euclidean n →ₗ[ℝ] Euclidean m) (h : Euclidean m) (κ : ℝ) : Prop :=
  (m = 0 ∧ sg = .unlimited) ∨ ∃ B : Operator (Exact ε), B.Acts J ∧ sg.IsLinear B (vec h) (real κ)

namespace Safeguard.Keeps
variable {sg : Safeguard (Exact ε)} {J : Euclidean n →ₗ[ℝ] Euclidean m} {h : Euclidean m} {κ : ℝ} (hsg : sg.Keeps J h κ)
include hsg

theorem measures (hκ : 0 ≤ κ) : sg.Measures (safeSteps J h κ) := by
  intro call x d hx
  rcases hsg with ⟨rfl, rfl⟩ | ⟨B, hB, hlinear⟩
  · exact ensures_pure ⟨1, rfl, isGreatest_one fun i => i.elim0⟩
  · rw [hlinear.eq]
    exact linearFraction_ensures hB hκ d hx

theorem guards (hκ : 0 ≤ κ) : sg.Guards (safeSteps J h κ) := (hsg.measures hκ).guards (convex_safeSteps J h κ)

end Safeguard.Keeps

end ConstrainedOpt
