import ConstrainedOpt.Proofs.Derivatives
import ConstrainedOpt.Proofs.Route.Directions
import ConstrainedOpt.Proofs.Secants.Runs

/-! # Conjugate gradient directions

A conjugate gradient rule weighs the last direction by the gradient it was computed from. No state keeps that gradient: it is
put together again from the current gradient and from the change that was stored after the step. The change belongs to the
barrier parameter of the step, the current gradient to that of the iterate. If the parameter has been reduced in between, what
is put together differs from the last gradient by what the reduction has changed.
-/
namespace ConstrainedOpt

/-! ### What a step shows -/

/-- Sees at the beginning of a step what the step keeps. -/
def Watch.begins {F : Type} (c : Kept F) : Watch F := ⟨fun loc u => loc = .beforeGetStep → u.kept = c, fun _ _ => True⟩

namespace Running
variable {F : Type} [Scalar F] {k : Setup F} {s : State F} {c : Kept F} {p : List (Event F)}

/-- A step of any driver begins with what it keeps, and goes on with the norm of its gradient. -/
theorem takeStep_begins (hk : k.hooks.StepOnly) (hs : Active c s) :
    leads (takeStep k)
      (fun _ t q => (t.stop = .notConverged → t.normGrad = Vec.norm t.grad ∧ t.iter = c.iter) ∧
        ∀ u, (.beforeGetStep, u) ∈ Event.visits q → (.beforeGetStep, u) ∈ Event.visits p ∨ u.kept = c)
      (fun _ _ q => ∀ u, (.beforeGetStep, u) ∈ Event.visits q → (.beforeGetStep, u) ∈ Event.visits p ∨ u.kept = c) s p := by
  have hframe : StepFrame k (.begins c) (fun _ t => t.stop = .notConverged → t.normGrad = Vec.norm t.grad ∧ t.iter = c.iter)
      (fun _ _ => True) c := {
    hooks := hk
    visit := fun _ _ _ hu _ => hu
    trial := fun _ _ _ => trivial
    stuck := fun _ ht hrunning => by rcases ht.failed with h | h <;> cases h.symm.trans hrunning
    halted := fun _ _ _ => trivial
    accepted := fun u w hu _ _ => by
      refine accept_wp hk w (by rintro ⟨⟩) (fun _ _ _ => by rintro ⟨⟩) (fun t ht hrunning => ?_) fun _ _ _ => trivial
      obtain ⟨y, grad, -, rfl⟩ := ht.sound_of_running hrunning
      exact ⟨rfl, congrArg Kept.iter hu.kept⟩ }
  have hseen : ∀ (ws : Visits F) q, (∀ v ∈ ws, (Watch.begins c).visit v.1 v.2) → Event.visits q = Event.visits p ++ ws →
      ∀ u, (.beforeGetStep, u) ∈ Event.visits q → (.beforeGetStep, u) ∈ Event.visits p ∨ u.kept = c := by
    intro ws q hws hq u hu
    rw [hq, List.mem_append] at hu
    exact hu.imp id fun hu => hws _ hu rfl
  exact leads_watched (takeStep_wp hframe hs) (fun _ _ ws q ht hws hq => ⟨ht, hseen ws q hws hq⟩)
    fun _ _ ws q _ hws hq => hseen ws q hws hq

end Running

open Exact Running
variable {ε : Set.Ioi (0 : ℝ)} {n : ℕ} {p : Problem (Exact ε)} {k : Setup (Exact ε)} {s t s₀ : State (Exact ε)}
  {x y z v : Vec (Exact ε)} {μ ν : Exact ε} {vs : Visits (Exact ε)} {g a b : Euclidean n}

/-! ### Weights -/

/-- A real quotient, or nothing instead of one that is not finite. -/
theorem Exact.finite_quotient (r w : ℝ) :
    (if Scalar.isFinite (real r / real w : Exact ε) then real r / real w else 0 : Exact ε) = real (r / w) := by
  by_cases hw : w = 0
  · subst hw
    have hdiv : Scalar.isFinite (real r / real 0 : Exact ε) = false := by
      change Scalar.isFinite (if (0 : ℝ) = 0 then (if r = 0 then nan else blowUp r) else real (r / 0) : Exact ε) = false
      rw [if_pos rfl]
      split <;> rfl
    rw [hdiv, div_zero]
    rfl
  · rw [real_div hw, isFinite_real, if_pos rfl]

namespace LineSearch

/-- What the rules take for the gradient before. -/
theorem gradient_before (hgrad : t.grad = vec b) (hchange : t.gradChange = vec (a - g)) :
    Checked.add (-1) t.gradChange t.grad = .ok (vec (g + (b - a))) := by
  have hsum := checked_add_vec (ε := ε) (a := -1) (u := a - g) (v := b)
  rw [hgrad, hchange]
  refine hsum.trans ?_
  congr 2
  module

variable (hiter : t.iter ≠ 0) (hgrad : t.grad = vec b) (hchange : t.gradChange = vec (a - g))
include hiter hgrad hchange

theorem fletcherReeves_weight (hrule : k.par.direction = .fletcherReeves) (hnorm : t.normGrad = Vec.norm t.grad)
    (last : Vec (Exact ε)) : conjugateWeight k t last = .ok (real (‖b‖ ^ 2 / ‖g + (b - a)‖ ^ 2)) := by
  unfold conjugateWeight
  rw [if_neg hiter]
  refine Checked.bind_eq_ok.mpr ⟨_, gradient_before hgrad hchange, ?_⟩
  dsimp only
  rw [hrule, hnorm, hgrad, norm_vec, norm_vec, real_mul, real_mul, pow_two, pow_two]
  exact congrArg Except.ok (finite_quotient _ _)

theorem polakRibiere_weight (hrule : k.par.direction = .polakRibiere) (last : Vec (Exact ε)) :
    conjugateWeight k t last = .ok (real (inner ℝ b (a - g) / ‖g + (b - a)‖ ^ 2)) := by
  unfold conjugateWeight
  rw [if_neg hiter]
  refine Checked.bind_eq_ok.mpr ⟨_, gradient_before hgrad hchange, ?_⟩
  dsimp only
  rw [hrule, hgrad, hchange, checked_inner_vec, norm_vec, real_mul, pow_two]
  exact congrArg Except.ok (finite_quotient _ _)

end LineSearch

/-! ### Gradients without multipliers -/

theorem Problem.lagrangianGradient_of_none (hp : p.equality = none) (x y z : Vec (Exact ε)) (μ : Exact ε) :
    p.lagrangianGradient x y μ = p.lagrangianGradient x z μ := by
  unfold Problem.lagrangianGradient
  rw [hp]

/-- Without inequality constraints the barrier parameter does not matter. -/
theorem Problem.lagrangianGradient_of_unbounded (hp : p.inequality = none) (x y : Vec (Exact ε)) (μ ν : Exact ε) :
    p.lagrangianGradient x y μ = p.lagrangianGradient x y ν := by
  unfold Problem.lagrangianGradient Problem.barrierGradient
  rw [hp]

/-! ### Directions one iteration apart -/

/-- A direction is computed at `t`, one iteration after another was computed at `s` from the gradient `g`. The gradient at
the iterate of `t` is `a` with the barrier parameter of `s`, and `b` with its own. The rules take `g + (b - a)` for the
gradient before. -/
structure Setup.Conjugates (k : Setup (Exact ε)) (s t : State (Exact ε)) (g a b : Euclidean n) : Prop where
  before : s.grad = vec g
  moved : k.problem.lagrangianGradient t.x [] s.mu = .ok (vec a)
  current : k.problem.lagrangianGradient t.x [] t.mu = .ok (vec b)
  gradient : t.grad = vec b
  previous : Checked.add (-1) t.gradChange t.grad = .ok (vec (g + (b - a)))
  fletcherReeves : k.par.direction = .fletcherReeves → ∀ last,
    LineSearch.conjugateWeight k t last = .ok (real (‖b‖ ^ 2 / ‖g + (b - a)‖ ^ 2))
  polakRibiere : k.par.direction = .polakRibiere → ∀ last,
    LineSearch.conjugateWeight k t last = .ok (real (inner ℝ b (a - g) / ‖g + (b - a)‖ ^ 2))

/-- The directions computed at the visits `vs` one iteration apart. -/
def Setup.ConjugatesAlong (k : Setup (Exact ε)) (n : ℕ) (vs : Visits (Exact ε)) : Prop :=
  ∀ s t, (.beforeGetStep, s) ∈ vs → (.beforeGetStep, t) ∈ vs → s.iter + 1 = t.iter →
    ∃ g a b : Euclidean n, k.Conjugates s t g a b

/-- The change stored in `t` is that of the gradient since `s`, with the barrier parameter of `s`. -/
def Setup.ChangedSince (k : Setup (Exact ε)) (n : ℕ) (s t : State (Exact ε)) : Prop :=
  ∃ g a : Euclidean n, s.grad = vec g ∧ k.problem.lagrangianGradient t.x [] s.mu = .ok (vec a) ∧ t.gradChange = vec (a - g)

/-- A state between two steps, after the visits `vs`: the change since the last direction is stored. -/
structure Setup.Recalls (k : Setup (Exact ε)) (n : ℕ) (s : State (Exact ε)) (vs : Visits (Exact ε)) : Prop where
  standing : k.Standing n s
  norm : s.normGrad = Vec.norm s.grad
  along : k.ConjugatesAlong n vs
  earlier : ∀ u, (.beforeGetStep, u) ∈ vs → u.iter < s.iter
  changed : ∀ u, (.beforeGetStep, u) ∈ vs → u.iter + 1 = s.iter → k.ChangedSince n u s

/-- A state after a step, after the visits `vs`: the gradient of its direction is remembered. -/
structure Setup.Retains (k : Setup (Exact ε)) (n : ℕ) (s : State (Exact ε)) (vs : Visits (Exact ε)) : Prop where
  standing : k.Standing n s
  norm : s.normGrad = Vec.norm s.grad
  along : k.ConjugatesAlong n vs
  earlier : ∀ u, (.beforeGetStep, u) ∈ vs → u.iter ≤ s.iter
  remembered : ∀ u, (.beforeGetStep, u) ∈ vs → u.iter = s.iter →
    ∃ g : Euclidean n, u.grad = vec g ∧ s.gradOld = vec g ∧ u.mu = s.mu

theorem Setup.ConjugatesAlong.append (h : k.ConjugatesAlong n vs) {ws : Visits (Exact ε)}
    (hws : ∀ v ∈ ws, v.1 ≠ .beforeGetStep) : k.ConjugatesAlong n (vs ++ ws) := by
  have hmem : ∀ u, (.beforeGetStep, u) ∈ vs ++ ws → (.beforeGetStep, u) ∈ vs := fun u hu =>
    (List.mem_append.mp hu).resolve_right fun hu => hws _ hu rfl
  exact fun s t hs ht => h s t (hmem s hs) (hmem t ht)

theorem Setup.Recalls.assessed (hp : k.problem.objective.Sized) (hs : k.Recalls n s vs) (ht : Assessed k s t) :
    StepEnds (fun t => k.Recalls n t (vs ++ [(.beginningOfOptimizationLoop, s)]))
      (fun _ => k.ConjugatesAlong n (vs ++ [(.beginningOfOptimizationLoop, s)])) t := by
  have halong : k.ConjugatesAlong n (vs ++ [(.beginningOfOptimizationLoop, s)]) := hs.along.append (by simp)
  unfold StepEnds
  split
  case isTrue hrunning =>
    have hlowered := ht.lowered hrunning
    have hstanding := hs.standing.lowered hp hlowered hrunning
    have hsame : t.x = s.x ∧ t.iter = s.iter ∧ t.gradChange = s.gradChange ∧ t.normGrad = Vec.norm t.grad := by
      rcases hlowered with rfl | ⟨-, ht⟩
      · exact ⟨rfl, rfl, rfl, hs.norm⟩
      · obtain ⟨y, grad, -, rfl⟩ := ht.sound_of_running hrunning
        exact ⟨rfl, rfl, rfl, rfl⟩
    obtain ⟨hx, hiter, hchange, hnorm⟩ := hsame
    refine ⟨hstanding, hnorm, halong, fun u hu => ?_, fun u hu hnext => ?_⟩
    · rw [hiter]
      exact hs.earlier u (by simpa using hu)
    · rw [hiter] at hnext
      unfold ChangedSince
      rw [hx, hchange]
      exact hs.changed u (by simpa using hu) hnext
  case isFalse => exact halong

/-- A direction is computed in the step from `s`, from what is recalled. -/
theorem Setup.Recalls.conjugates (hequality : k.problem.equality = none) (hs : k.Recalls n s vs) {u : State (Exact ε)}
    (hu : (.beforeGetStep, u) ∈ vs) (hnext : u.iter + 1 = s.iter) (ht : t.kept = (s.beforeStep s.grad).kept) :
    ∃ g a b : Euclidean n, k.Conjugates u t g a b := by
  obtain ⟨g, a, hg, ha, hstored⟩ := hs.changed u hu hnext
  obtain ⟨b, hb, hcurrent⟩ := hs.standing.gradient
  rw [Problem.lagrangianGradient_of_none hequality _ _ []] at hcurrent
  have hx : t.x = s.x := congrArg Kept.x ht
  have hmu : t.mu = s.mu := congrArg Kept.mu ht
  have hiter : t.iter ≠ 0 := by
    have hsame : t.iter = s.iter := congrArg Kept.iter ht
    omega
  have hgrad : t.grad = vec b := (congrArg Kept.grad ht).trans hb
  have hnorm : t.normGrad = Vec.norm t.grad := (congrArg Kept.normGrad ht).trans (hs.norm.trans (by rw [hgrad, hb]))
  have hchange : t.gradChange = vec (a - g) := (congrArg Kept.gradChange ht).trans hstored
  exact ⟨g, a, b, {
    before := hg
    moved := hx ▸ ha
    current := by rwa [hx, hmu]
    gradient := hgrad
    previous := LineSearch.gradient_before hgrad hchange
    fletcherReeves := fun hrule => LineSearch.fletcherReeves_weight hiter hgrad hchange hrule hnorm
    polakRibiere := LineSearch.polakRibiere_weight hiter hgrad hchange }⟩

/-- The visits `ws` add the directions of the step from `s`. -/
theorem Setup.Recalls.conjugatesAlong (hequality : k.problem.equality = none) (hs : k.Recalls n s vs)
    {ws : Visits (Exact ε)}
    (hws : ∀ u, (.beforeGetStep, u) ∈ ws → (.beforeGetStep, u) ∈ vs ∨ u.kept = (s.beforeStep s.grad).kept) :
    k.ConjugatesAlong n ws := by
  intro u t hu ht hnext
  have hiter : ∀ {w : State (Exact ε)}, w.kept = (s.beforeStep s.grad).kept → w.iter = s.iter := fun h => congrArg Kept.iter h
  rcases hws u hu with hu | hu <;> rcases hws t ht with ht | ht
  · exact hs.along u t hu ht hnext
  · exact hs.conjugates hequality hu (hnext.trans (hiter ht)) ht
  · have hlt := hs.earlier t ht
    have heq := hiter hu
    omega
  · have heq := (hiter hu).trans (hiter ht).symm
    omega

/-- A step leads from what is recalled before it to what is remembered after it. -/
theorem Setup.Recalls.retains (hequality : k.problem.equality = none) (hs : k.Recalls n s vs) {ws : Visits (Exact ε)}
    (hws : ∀ u, (.beforeGetStep, u) ∈ ws → (.beforeGetStep, u) ∈ vs ∨ u.kept = (s.beforeStep s.grad).kept)
    (ht : k.Standing n t) (hnorm : t.normGrad = Vec.norm t.grad) (hiter : t.iter = s.iter) (hold : t.gradOld = s.grad)
    (hmu : t.mu = s.mu) : k.Retains n t ws := by
  refine ⟨ht, hnorm, hs.conjugatesAlong hequality hws, fun u hu => ?_, fun u hu hsame => ?_⟩
  · rw [hiter]
    rcases hws u hu with hu | hu
    · exact (hs.earlier u hu).le
    · exact (congrArg Kept.iter hu).le
  · obtain ⟨g, hg, -⟩ := hs.standing.gradient
    rw [hiter] at hsame
    have hu := (hws u hu).resolve_left fun hu => absurd (hs.earlier u hu) (by omega)
    exact ⟨g, (congrArg Kept.grad hu).trans hg, hold.trans hg, (congrArg Kept.mu hu).trans hmu.symm⟩

theorem Setup.Recalls.stepped (hp : k.problem.objective.Sized) (hequality : k.problem.equality = none)
    (hk : k.hooks.Observing) (hs : k.Recalls n s vs) (hrunning : s.stop = .notConverged)
    (hv : WithoutMultipliers k s.x s.y s.grad v) {p : List (Event (Exact ε))}
    (hvisits : Event.visits p = vs ++ [(.beforeSaveOld, s), (.beforeStep, s.remember v)]) :
    leads (takeStep k)
      (fun _ t q => StepEnds (fun t => k.Retains n t (Event.visits q)) (fun _ => k.ConjugatesAlong n (Event.visits q)) t)
      (fun _ _ q => k.ConjugatesAlong n (Event.visits q)) (s.beforeStep v) p := by
  obtain rfl := hv.of_none hequality
  have hstanding : k.Standing n (s.beforeStep s.grad) := by
    obtain ⟨⟨hvalues, hlength, hsize⟩, hgrad⟩ := hs.standing
    exact ⟨⟨hvalues, hlength, hsize⟩, hgrad⟩
  have hactive : Active (s.beforeStep s.grad).kept (s.beforeStep s.grad) := ⟨rfl, hrunning⟩
  have hbefore : ∀ u, (.beforeGetStep, u) ∈ Event.visits p → (.beforeGetStep, u) ∈ vs := by
    intro u hu
    rw [hvisits] at hu
    simpa using hu
  refine leads_mono (leads_wp (takeStep_begins hk.stepOnly hactive) (takeStep_wp (hstanding.stepFrame hp hk) hactive)) ?_ ?_
  · rintro _ t q ⟨⟨hgraded, hseen⟩, hmoved⟩
    replace hseen := fun u hu => (hseen u hu).imp_left (hbefore u)
    unfold StepEnds
    split
    case isTrue hrunning =>
      have hmoved := hmoved hrunning
      obtain ⟨hnorm, hiter⟩ := hgraded hrunning
      exact hs.retains hequality hseen hmoved.standing hnorm hiter hmoved.gradOld hmoved.mu
    case isFalse => exact hs.conjugatesAlong hequality hseen
  · rintro _ t q ⟨hseen, -⟩
    exact hs.conjugatesAlong hequality fun u hu => (hseen u hu).imp_left (hbefore u)

theorem Setup.Retains.paired (hequality : k.problem.equality = none) (hs : k.Retains n s vs) (hv : Changed k s v) :
    k.Recalls n (s.paired v k.par.storedHistory).counted (vs ++ [(.beforeQuasi, s),
      (.afterQuasi, s.paired v k.par.storedHistory),
      (.endOfOptimizationIteration, (s.paired v k.par.storedHistory).counted)]) := by
  obtain ⟨⟨hvalues, hlength, hsize⟩, hgrad⟩ := hs.standing
  refine ⟨⟨⟨hvalues, hlength, hsize⟩, hgrad⟩, hs.norm, hs.along.append (by simp), fun u hu => ?_, fun u hu hnext => ?_⟩
  · exact Nat.lt_succ_of_le (hs.earlier u (by simpa using hu))
  · obtain ⟨g, hg, hold, hmu⟩ := hs.remembered u (by simpa using hu) (Nat.succ.inj hnext)
    obtain ⟨a, ha, hgradient⟩ := hgrad
    rw [Problem.lagrangianGradient_of_none hequality _ _ [], ← hmu] at hgradient
    have hchange := hv.of_none hequality
    rw [hold, ha] at hchange
    refine ⟨g, a, hg, hgradient, ?_⟩
    rw [sub_eq_add_neg, ← neg_one_smul ℝ g]
    exact checked_add_eq_ok (a := -1) hchange

theorem Setup.conjugates_loopCourse (hk : k.hooks.Observing) (hp : k.problem.objective.Sized)
    (hequality : k.problem.equality = none) :
    LoopCourse k (k.Recalls n) (k.Recalls n) (k.Retains n) (fun _ => k.ConjugatesAlong n) (k.ConjugatesAlong n) where
  hooks := hk.stepOnly
  assessed _ _ _ hs hvisits := assess_leads hvisits (fun _ ht => hs.assessed hp ht) (hs.along.append (by simp))
  stepped _ _ _ _ hs hrunning hv hvisits := hs.stepped hp hequality hk hrunning hv hvisits
  paired _ _ _ hs _ hv := hs.paired hequality hv
  saveHalted _ _ hs := hs.along.append (by simp)
  pairHalted _ _ hs := hs.along.append (by simp)
  outOfFuel _ _ hs := hs.along

theorem Setup.Opened.recalls (hp : k.problem.objective.Sized) (hn : k.n = n) (hx : s₀.x.length = n)
    {t : Trial (Exact ε)} {y grad : Vec (Exact ε)} (ht : k.Opened s₀ t y grad) :
    k.Recalls n (k.openedState s₀ t y grad) [(.beginningOfOptimization, s₀),
      (.beforeInitialFuncAndGrad, k.prepare s₀), (.afterInitialFuncAndGrad, k.openedState s₀ t y grad),
      (.beforeOptimizationLoop, k.openedState s₀ t y grad)] where
  standing := ht.standing hp hn hx
  norm := rfl
  along := by simp [ConjugatesAlong]
  earlier := by simp
  changed := by simp

/-- What a run shows of its directions: each but the first is computed one iteration after another one. Of two that are one
iteration apart the rules take for the gradient of the first what the reductions of the barrier parameter have made of it.
That is this gradient itself exactly if they have not changed the gradient at the iterate between, and they cannot have
changed it if there is nothing to reduce or nothing was reduced. -/
structure Solution.Conjugates (r : Solution (Exact ε)) (k : Setup (Exact ε)) (n : ℕ) : Prop where
  succeeds : ∀ t, (.beforeGetStep, t) ∈ r.visits → 0 < t.iter → ∃ s, (.beforeGetStep, s) ∈ r.visits ∧ s.iter + 1 = t.iter
  conjugates : ∀ s t, (.beforeGetStep, s) ∈ r.visits → (.beforeGetStep, t) ∈ r.visits → s.iter + 1 = t.iter →
    ∃ g a b : Euclidean n, k.Conjugates s t g a b ∧
      (Checked.add (-1) t.gradChange t.grad = .ok s.grad ↔ a = b) ∧ (k.problem.inequality = none ∨ t.mu = s.mu → a = b)

theorem Setup.Conjugates.previous_iff (h : k.Conjugates s t g a b) :
    Checked.add (-1) t.gradChange t.grad = .ok s.grad ↔ a = b := by
  rw [h.previous, h.before, Except.ok.injEq, vec_inj, add_eq_left, sub_eq_zero, eq_comm]

theorem Setup.Conjugates.eq_of_same (h : k.Conjugates s t g a b) (hsame : k.problem.inequality = none ∨ t.mu = s.mu) :
    a = b := by
  have hgradient : k.problem.lagrangianGradient t.x [] s.mu = k.problem.lagrangianGradient t.x [] t.mu := by
    rcases hsame with hunbounded | hmu
    · exact Problem.lagrangianGradient_of_unbounded hunbounded _ _ _ _
    · rw [hmu]
  exact vec_inj.mp (Except.ok.inj (h.moved.symm.trans (hgradient.trans h.current)))

/-- In exact arithmetic the rules of nonlinear conjugate gradients have the gradient of the last direction, up to what a
reduction of the barrier parameter has changed since, in every observed run without equality constraints. -/
theorem Problem.solve_conjugates {p : Problem (Exact ε)} {par : Parameters (Exact ε)} {hooks : Hooks (Exact ε)}
    (hhooks : hooks.Observing) (hp : p.objective.Sized) (hequality : p.equality = none) :
    (p.solve par hooks s₀).Conjugates ⟨par, p, hooks, s₀.x.length⟩ s₀.x.length := by
  have halong : Setup.ConjugatesAlong ⟨par, p, hooks, s₀.x.length⟩ s₀.x.length (p.solve par hooks s₀).visits := by
    refine Problem.solve_course hhooks.stepOnly rfl (fun _ => Setup.conjugates_loopCourse hhooks hp hequality)
      (fun t y grad ht => ht.recalls hp rfl rfl) ?_ ?_ ?_
    · rintro _ (_ | _)
      · exact ⟨by simp [Setup.ConjugatesAlong], fun t _ => by simp [Setup.ConjugatesAlong]⟩
      · exact ⟨by simp [Setup.ConjugatesAlong, Setup.openingVisits], fun t _ => by
          simp [Setup.ConjugatesAlong, Setup.openingVisits]⟩
    · exact fun t vs hvs => hvs.append (by simp)
    · exact fun vs hvs => hvs
  refine ⟨fun t ht hiter => ?_, fun s t hs ht hnext => ?_⟩
  · obtain ⟨s, hs, hlast⟩ := p.solve_stepBegun par hhooks ht (Nat.sub_lt hiter Nat.one_pos)
    exact ⟨s, hs, by omega⟩
  · obtain ⟨g, a, b, h⟩ := halong s t hs ht hnext
    exact ⟨g, a, b, h, h.previous_iff, h.eq_of_same⟩

theorem Problem.solve_conjugates_leastHalfSquare :
    let p : Problem (Exact ⟨1, Set.mem_Ioi.mpr one_pos⟩) := .leastHalfSquare
    let par : Parameters (Exact ⟨1, Set.mem_Ioi.mpr one_pos⟩) :=
      { Parameters.default with algorithm := .lineSearch, direction := .fletcherReeves }
    (Hooks.passive : Hooks (Exact ⟨1, Set.mem_Ioi.mpr one_pos⟩)).Observing ∧ p.objective.Sized ∧ p.equality = none ∧
      par.validate p.problemClass = .ok () ∧ (p.solve par .passive (.new [1])).Conjugates ⟨par, p, .passive, 1⟩ 1 := by
  intro p par
  have hhooks : (Hooks.passive : Hooks (Exact ⟨1, Set.mem_Ioi.mpr one_pos⟩)).Observing := fun _ _ => rfl
  have hvalid : par.validate .inequalityConstrained = .ok () := by
    have hdefault := Parameters.default_valid (ε := ⟨1, Set.mem_Ioi.mpr one_pos⟩) (c := .inequalityConstrained)
    unfold Parameters.validate at hdefault ⊢
    rw [if_neg (by simp)] at hdefault ⊢
    exact hdefault
  exact ⟨hhooks, Problem.leastHalfSquare_sized, rfl, hvalid,
    Problem.solve_conjugates hhooks Problem.leastHalfSquare_sized rfl⟩

end ConstrainedOpt
