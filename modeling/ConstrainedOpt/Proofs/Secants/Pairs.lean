import ConstrainedOpt.Proofs.Exact.Gradient
import ConstrainedOpt.Proofs.Exact.Strict

/-! # Secant pairs of the Lagrangian

A secant pair is a step to an iterate, with the change of the gradient of the barrier Lagrangian along it, both gradients
taken with the multipliers and the barrier parameter of the iterate. The change is put together from what is remembered
before the step, a gradient without its multipliers, and from what is found after it. A history that is pushed the secant
pair of each iterate keeps those of the last iterates.
-/
namespace ConstrainedOpt
open Exact Journaled Running

/-- An iterate with its multipliers and the barrier parameter of the step to it. -/
structure Iterate (F : Type) where
  x : Vec F
  y : Vec F
  mu : F

def State.iterate {F : Type} (s : State F) : Iterate F := ⟨s.x, s.y, s.mu⟩

variable {ε : Set.Ioi (0 : ℝ)} {n : ℕ} {p : Problem (Exact ε)} {k : Setup (Exact ε)} {s : State (Exact ε)}
  {x a g t : Euclidean n} {y v : Vec (Exact ε)} {μ : Exact ε}

/-- `step` is the one from `x` to the iterate `i`, and `change` that of the gradient of the barrier Lagrangian with the
multipliers and the barrier parameter of `i`. -/
def Problem.Secant (p : Problem (Exact ε)) (n : ℕ) (x : Vec (Exact ε)) (i : Iterate (Exact ε))
    (step change : Vec (Exact ε)) : Prop :=
  ∃ u w a b : Euclidean n, x = vec u ∧ i.x = vec w ∧ step = vec (w - u) ∧
    p.lagrangianGradient i.x i.y i.mu = .ok (vec a) ∧ p.lagrangianGradient x i.y i.mu = .ok (vec b) ∧
    change = vec (a - b)

/-! ### Gradients -/

/-- The gradient of the barrier objective at `x` is `g`. -/
def Problem.BarrierGradientAt (p : Problem (Exact ε)) (x : Euclidean n) (μ : Exact ε) (g : Euclidean n) : Prop :=
  ∃ e, p.evaluate (vec x) = .ok e ∧ p.barrierGradient (vec x) e.h μ = .ok (vec g)

/-- At `x` the multipliers `y` add `t` to the gradient. -/
def Problem.MultipliersAdd (p : Problem (Exact ε)) (x : Euclidean n) (y : Vec (Exact ε)) (t : Euclidean n) : Prop :=
  match p.equality with
  | none => t = 0
  | some c => c.adjoint (vec x) y n = .ok (vec t)

theorem Problem.lagrangianGradient_of_parts (hg : p.BarrierGradientAt x μ g) (ht : p.MultipliersAdd x y t) :
    p.lagrangianGradient (vec x) y μ = .ok (vec (g + t)) := by
  obtain ⟨e, he, hg⟩ := hg
  unfold MultipliersAdd at ht
  unfold Problem.lagrangianGradient
  refine Checked.bind_eq_ok.mpr ⟨e, he, Checked.bind_eq_ok.mpr ⟨_, hg, ?_⟩⟩
  cases hp : p.equality with
  | none =>
    rw [hp] at ht
    rw [ht, add_zero]
    rfl
  | some c =>
    rw [hp] at ht
    refine Checked.bind_eq_ok.mpr ⟨vec t, length_vec ▸ ht, ?_⟩
    have hsum := checked_axpby_vec (ε := ε) 1 1 t g
    rwa [one_smul, one_smul, add_comm] at hsum

/-- A real gradient has real parts. -/
theorem Problem.parts_of_lagrangianGradient (h : p.lagrangianGradient (vec x) y μ = .ok (vec a)) :
    ∃ g t : Euclidean n, p.BarrierGradientAt x μ g ∧ p.MultipliersAdd x y t ∧ a = g + t := by
  obtain ⟨e, he, h⟩ := Checked.bind_eq_ok.mp h
  obtain ⟨φ, hφ, h⟩ := Checked.bind_eq_ok.mp h
  unfold MultipliersAdd
  cases hp : p.equality with
  | none =>
    rw [hp] at h
    cases h
    exact ⟨a, 0, ⟨e, he, hφ⟩, rfl, (add_zero a).symm⟩
  | some c =>
    rw [hp] at h
    obtain ⟨w, hw, h⟩ := Checked.bind_eq_ok.mp h
    obtain ⟨t, g, rfl, rfl, rfl⟩ := Checked.real_of_axpby (r := 1) one_ne_zero h
    rw [length_vec] at hw
    exact ⟨g, t, ⟨e, he, hφ⟩, hw, by rw [one_smul, one_smul, add_comm]⟩

/-- Without the multipliers what they add is gone. -/
theorem Running.WithoutMultipliers.eq_sub (h : WithoutMultipliers k (vec x) y (vec a) v)
    (ht : k.problem.MultipliersAdd x y t) : v = vec (a - t) := by
  unfold WithoutMultipliers at h
  unfold Problem.MultipliersAdd at ht
  cases hp : k.problem.equality with
  | none =>
    rw [hp] at h ht
    rw [ht, sub_zero]
    exact h
  | some c =>
    rw [hp] at h ht
    have hlen : (vec a : Vec (Exact ε)).length = (vec x : Vec (Exact ε)).length := by rw [length_vec, length_vec]
    obtain ⟨w, hw, hv⟩ := Checked.bind_eq_ok.mp ((Barrier.applyTransposed_ensures c hlen).answer h).1
    rw [length_vec, ht] at hw
    cases hw
    rw [checked_axpby_eq_ok (a := -1) (b := 1) hv, one_smul, neg_one_smul, neg_add_eq_sub]

/-- Real multipliers add a real vector. -/
theorem Running.WithoutMultipliers.exists_add (h : WithoutMultipliers k (vec x) y (vec a) v)
    (hpulls : ∀ c, k.problem.equality = some c → (c.jacobian (vec x)).Pulls n c.rows)
    (hy : ∀ c, k.problem.equality = some c → ∃ w : Euclidean c.rows, y = vec w) :
    ∃ t : Euclidean n, k.problem.MultipliersAdd x y t := by
  unfold WithoutMultipliers at h
  unfold Problem.MultipliersAdd
  cases hp : k.problem.equality with
  | none => exact ⟨0, rfl⟩
  | some c =>
    rw [hp] at h
    obtain ⟨w, rfl⟩ := hy c hp
    obtain ⟨u, rfl⟩ := ((hpulls c hp).real (-1) 1 w a).answer h
    have hlen : (vec a : Vec (Exact ε)).length = (vec x : Vec (Exact ε)).length := by rw [length_vec, length_vec]
    obtain ⟨z, hz, hu⟩ := Checked.bind_eq_ok.mp ((Barrier.applyTransposed_ensures c hlen).answer h).1
    obtain ⟨t, _, rfl, -⟩ := Checked.real_of_axpby (r := -1) one_ne_zero hu
    rw [length_vec] at hz
    exact ⟨t, hz⟩

/-- From a gradient without its multipliers before a step and a gradient after it, what is stored of the step is its secant
pair. -/
theorem Problem.Secant.of_changed {x w g a : Euclidean n} (hold : s.xOld = vec x) (hgradOld : s.gradOld = vec g)
    (hg : k.problem.BarrierGradientAt x s.mu g) (hx : s.x = vec (x + w)) (hgrad : s.grad = vec a)
    (ha : k.problem.lagrangianGradient s.x s.y s.mu = .ok s.grad)
    (hpulls : ∀ c, k.problem.equality = some c → (c.jacobian (vec x)).Pulls n c.rows)
    (hy : ∀ c, k.problem.equality = some c → ∃ u : Euclidean c.rows, s.y = vec u) (hv : Changed k s v) :
    k.problem.Secant n s.xOld s.iterate (vec w) v := by
  obtain ⟨d, hd, hv⟩ := hv
  rw [hgradOld, hgrad] at hd
  rw [hold, checked_add_eq_ok (a := -1) hd] at hv
  obtain ⟨t, ht⟩ := hv.exists_add hpulls hy
  refine ⟨x, x + w, a, g + t, hold, hx, by rw [add_sub_cancel_left], hgrad ▸ ha, ?_, ?_⟩
  · rw [hold]
    exact Problem.lagrangianGradient_of_parts hg ht
  · rw [hv.eq_sub ht, neg_one_smul, ← sub_eq_add_neg, sub_sub]

/-! ### Histories -/

/-- The last of the points `its` after `x₀`. -/
def lastPoint (x₀ : Vec (Exact ε)) (its : List (Iterate (Exact ε))) : Vec (Exact ε) :=
  (its.map Iterate.x).getLastD x₀

/-- The pairs of the iterates `its` after `x₀`, newest first. -/
inductive Problem.Secants (p : Problem (Exact ε)) (n : ℕ) (x₀ : Vec (Exact ε)) :
    List (Iterate (Exact ε)) → List (Vec (Exact ε) × Vec (Exact ε)) → Prop
  | none : Secants p n x₀ [] []
  | push {its pairs i step change} (h : Secants p n x₀ its pairs)
      (hsecant : p.Secant n (lastPoint x₀ its) i step change) :
      Secants p n x₀ (its ++ [i]) ((step, change) :: pairs)

/-- The first `size` of some pairs. -/
def History.first (size : ℕ) (pairs : List (Vec (Exact ε) × Vec (Exact ε))) : History (Exact ε) :=
  ⟨(pairs.map Prod.fst).take size, (pairs.map Prod.snd).take size⟩

theorem History.push_first (size : ℕ) (pairs : List (Vec (Exact ε) × Vec (Exact ε))) (step change : Vec (Exact ε)) :
    (first size pairs).push step change size = first size ((step, change) :: pairs) := by
  cases size with
  | zero => rfl
  | succ size => simp [push, first, List.take_take]

/-- The history holds the pairs of as many of the last iterates as fit: its pair number `j` is that of the step to the
iterate that has `j` iterates after it, from the point before that. -/
structure Problem.StoresSecants (p : Problem (Exact ε)) (n size : ℕ) (x₀ : Vec (Exact ε)) (its : List (Iterate (Exact ε)))
    (h : History (Exact ε)) : Prop where
  steps : h.steps.length = min its.length size
  changes : h.changes.length = min its.length size
  secant : ∀ j < min its.length size, ∃ x i step change, (x₀ :: its.map Iterate.x)[its.length - 1 - j]? = some x ∧
    its[its.length - 1 - j]? = some i ∧ h.steps[j]? = some step ∧ h.changes[j]? = some change ∧
    p.Secant n x i step change

variable {x₀ : Vec (Exact ε)} {its : List (Iterate (Exact ε))} {pairs : List (Vec (Exact ε) × Vec (Exact ε))}

theorem lastPoint_concat (i : Iterate (Exact ε)) : lastPoint x₀ (its ++ [i]) = i.x := by simp [lastPoint]

theorem getElem?_lastPoint : (x₀ :: its.map Iterate.x)[its.length]? = some (lastPoint x₀ its) := by
  rcases List.eq_nil_or_concat its with rfl | ⟨its, i, rfl⟩
  · rfl
  · simp [lastPoint]

theorem Problem.Secants.length_eq (h : p.Secants n x₀ its pairs) : pairs.length = its.length := by
  induction h with
  | none => rfl
  | push _ _ ih => simp [ih]

theorem Problem.Secants.getElem? (h : p.Secants n x₀ its pairs) {j : ℕ} (hj : j < its.length) :
    ∃ x i step change, (x₀ :: its.map Iterate.x)[its.length - 1 - j]? = some x ∧ its[its.length - 1 - j]? = some i ∧
      pairs[j]? = some (step, change) ∧ p.Secant n x i step change := by
  induction h generalizing j with
  | none => cases hj
  | @push its pairs i step change _ hsecant ih =>
    rw [List.length_append, List.length_singleton, Nat.add_sub_cancel]
    cases j with
    | zero =>
      refine ⟨lastPoint x₀ its, i, step, change, ?_, List.getElem?_concat_length, rfl, hsecant⟩
      rw [Nat.sub_zero, List.map_append, ← List.cons_append, List.getElem?_append_left (by simp)]
      exact getElem?_lastPoint
    | succ j =>
      have hj : j < its.length := by simpa using hj
      obtain ⟨x, i', step', change', hx, hi', hpair, hsecant'⟩ := ih hj
      have hindex : its.length - (j + 1) = its.length - 1 - j := by omega
      refine ⟨x, i', step', change', ?_, ?_, hpair, hsecant'⟩
      · rwa [hindex, List.map_append, ← List.cons_append, List.getElem?_append_left (by simp; omega)]
      · rwa [hindex, List.getElem?_append_left (by omega)]

theorem Problem.Secants.stores (h : p.Secants n x₀ its pairs) (size : ℕ) :
    p.StoresSecants n size x₀ its (.first size pairs) where
  steps := by simp [History.first, h.length_eq, Nat.min_comm]
  changes := by simp [History.first, h.length_eq, Nat.min_comm]
  secant j hj := by
    obtain ⟨hits, hsize⟩ := lt_min_iff.mp hj
    obtain ⟨x, i, step, change, hx, hi, hpair, hsecant⟩ := h.getElem? hits
    refine ⟨x, i, step, change, hx, hi, ?_, ?_, hsecant⟩
    · simp [History.first, hsize, hpair]
    · simp [History.first, hsize, hpair]

end ConstrainedOpt
