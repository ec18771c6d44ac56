import ConstrainedOpt.Proofs.Run.Gradient
import ConstrainedOpt.Proofs.Step.NormalEquations

/-! # Real gradients

A gradient that is found sound is a real vector, its multipliers are, and with them what is remembered of the
gradients and stored in the history.
-/
namespace ConstrainedOpt
open Exact Journaled Running
variable {ε : Set.Ioi (0 : ℝ)} {n m : ℕ} {k : Setup (Exact ε)} {s : State (Exact ε)} {c : Constraint (Exact ε)}

/-- The stored pairs are real vectors. -/
def History.Real (n : ℕ) (h : History (Exact ε)) : Prop :=
  ∀ q ∈ h.newestFirst, ∃ u v : Euclidean n, q = (vec u, vec v)

theorem History.Real.push {h : History (Exact ε)} (hh : h.Real n) (u v : Euclidean n) (size : ℕ) :
    (h.push (vec u) (vec v) size).Real n := by
  intro q hq
  unfold History.push at hq
  split at hq
  · cases hq
  · have hzip : q ∈ ((vec u :: h.steps).zip (vec v :: h.changes)).take size := by
      rw [List.zip, List.take_zipWith]
      exact hq
    rcases List.mem_cons.mp (List.mem_of_mem_take hzip) with rfl | hq
    · exact ⟨u, v, rfl⟩
    · exact hh q hq

theorem Setup.Graded.real (hp : k.problem.objective.Sized) (hx : s.x.length = n) (hlen : s.grad.length = n)
    {updateY : Bool} {y grad : Vec (Exact ε)} (hg : k.Graded updateY s y grad) : ∃ v : Euclidean n, grad = vec v := by
  have hanswer := hg.1
  rw [hlen, ← hx] at hanswer
  have hgrad := (Barrier.lagrangianGradient_length hp s.h s.y).answer hanswer rfl
  exact exists_vec (hgrad.trans hx) (Vec.isFinite_of_norm hg.2)

/-- Least-squares multipliers are real, whatever the gradient of the barrier objective is. -/
theorem Barrier.multipliers_real {p : Problem (Exact ε)} (hc : p.equality = some c) (hm : c.rows = m)
    (par : NormalParam (Exact ε)) (x φ y : Vec (Exact ε)) :
    (multipliers p par x φ y).Ensures fun r => r.2 = .ok () → ∃ w : Euclidean m, r.1 = vec w := by
  unfold multipliers
  rw [hc]
  refine ensures_bind (ensures_true _) fun b _ => ?_
  refine ensures_bind (NormalEquations.solve_sound (A := c.jacobian x) hm b y _) fun s hs => ensures_pure fun hok => ?_
  rcases ho : s.outcome with e | i
  · rw [ho] at hok
    cases hok
  · exact hs i ho

theorem Setup.Graded.real_multipliers (hc : k.problem.equality = some c) (hm : c.rows = m) {updateY : Bool}
    (hy : updateY = true ∨ ∃ v : Euclidean m, s.y = vec v) {y grad : Vec (Exact ε)} (hg : k.Graded updateY s y grad) :
    ∃ w : Euclidean m, y = vec w := by
  have hensures : ∀ size, (Barrier.lagrangianGradient k.problem k.par.normalEq updateY s.x s.h s.y s.mu size).Ensures
      fun r => r.2.2 = .ok () → ∃ w : Euclidean m, r.1 = vec w := by
    intro size
    unfold Barrier.lagrangianGradient
    refine ensures_bind (ensures_true _) fun φ _ => ?_
    rw [hc]
    refine ensures_bind (P := fun r => r.2 = .ok () → ∃ w : Euclidean m, r.1 = vec w) ?_ ?_
    · split
      · exact Barrier.multipliers_real hc hm k.par.normalEq s.x φ s.y
      case isFalse hkept => exact ensures_pure fun _ => hy.resolve_left hkept
    · rintro ⟨y, _ | ⟨⟨⟩⟩⟩ hy
      · exact ensures_pure nofun
      · exact ensures_bind (ensures_true _) fun grad _ => ensures_pure fun _ => hy rfl
  exact (hensures _).answer hg.1 rfl

/-- Taking the part of real multipliers from a real gradient leaves a real vector. -/
theorem Running.WithoutMultipliers.real {x y v w : Vec (Exact ε)} (h : WithoutMultipliers k x y v w)
    (hpulls : ∀ c, k.problem.equality = some c → (c.jacobian x).Pulls n m) {μ : Euclidean m} (hy : y = vec μ)
    {a : Euclidean n} (hv : v = vec a) : ∃ u : Euclidean n, w = vec u := by
  unfold WithoutMultipliers at h
  split at h
  · exact ⟨a, h.trans hv⟩
  case h_2 c hc =>
    rw [hy, hv] at h
    exact ((hpulls c hc).real (-1) 1 μ a).answer h

end ConstrainedOpt
