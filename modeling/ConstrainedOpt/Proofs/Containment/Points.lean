import ConstrainedOpt.Proofs.Containment.Runs

/-! # Interior points

Over the reals a point that passes is a real one in the interior of the inequality constraint, whatever its functions are,
and the next step from it is one of a problem over the reals again.
-/
namespace ConstrainedOpt
open Exact
variable {ε : Set.Ioi (0 : ℝ)} {n m : ℕ} {k : Setup (Exact ε)} {s : State (Exact ε)} {h : Euclidean n → Euclidean m}
  {J : Euclidean n → Euclidean n →ₗ[ℝ] Euclidean m}

/-- A problem over the reals: its Hessian model propagates what is undefined and its equality constraint has transposed
Jacobians at each real point, and its inequality constraint is the function `h` with the derivatives `J`. -/
structure Setup.OverReals (k : Setup (Exact ε)) (h : Euclidean n → Euclidean m)
    (J : Euclidean n → Euclidean n →ₗ[ℝ] Euclidean m) : Prop where
  hessian : ∀ (s : State (Exact ε)) (x : Euclidean n), s.x = vec x → (k.hessian s).Propagates n
  equality : ∀ c, k.problem.equality = some c → ∀ x : Euclidean n, (c.jacobian (vec x)).Pulls n c.rows
  inequality : ∀ c, k.problem.inequality = some c → c.Realises h J

/-- A state at the real point `x`, in the interior of the inequality constraint. -/
structure Setup.InteriorAt (k : Setup (Exact ε)) (h : Euclidean n → Euclidean m) (x : Euclidean n)
    (s : State (Exact ε)) : Prop where
  point : s.x = vec x
  slack : k.problem.inequality ≠ none → s.h = vec (h x) ∧ ∀ i, 0 < h x i

theorem Setup.InteriorAt.realAt {x : Euclidean n} (hp : k.OverReals h J) (hdim : k.n = n) (hs : k.InteriorAt h x s) :
    k.RealAt s (J x) (h x) where
  dim := hdim
  length := by rw [hs.point, length_vec]
  hessian := hp.hessian s x hs.point
  equality c hc := hs.point ▸ hp.equality c hc x
  inequality c hc := by
    refine ⟨hs.point ▸ (hp.inequality c hc).linearises x, (hs.slack ?_).1⟩
    simp [hc]
  slack hne := (hs.slack hne).2

/-- A trial point whose slack is positive is in the interior. -/
theorem Setup.InteriorAt.of_trial {x : Euclidean n} (hp : k.OverReals h J) {v : Trial (Exact ε)} (hv : v.x = vec x)
    (heval : k.problem.evaluate v.x = .ok v) (hpos : ∀ u ∈ v.h, 0 < u) (hx : s.x = v.x) (hh : s.h = v.h) :
    k.InteriorAt h x s where
  point := hx.trans hv
  slack hne := by
    obtain ⟨c, hc⟩ := Option.ne_none_iff_exists'.mp hne
    have hvalue := (Problem.evaluate_eq_ok heval).2.2.2.2.1 c hc
    rw [hv, (hp.inequality c hc).value] at hvalue
    have hvalue : v.h = vec (h x) := (Except.ok.inj hvalue).symm
    exact ⟨hh.trans hvalue, fun i => real_lt.mp (hpos _ (hvalue ▸ List.mem_ofFn.mpr ⟨i, rfl⟩))⟩

theorem Setup.AffineSlack.overReals {A : Euclidean n →ₗ[ℝ] Euclidean m} {b : Euclidean m} (hp : k.AffineSlack A b) :
    k.OverReals (fun x => A x + b) fun _ => A := ⟨hp.hessian, hp.equality, hp.inequality⟩

end ConstrainedOpt
