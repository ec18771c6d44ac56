import ConstrainedOpt.Problem.Polynomial
import ConstrainedOpt.Scalar.Binary64
import ConstrainedOpt.Proofs.Run.Gradient
import ConstrainedOpt.Proofs.Run.Loop

/-! # What a stop certifies

The function values, the gradient and the norms a state carries are those of its own iterate, multipliers and
barrier parameter whenever an outer iteration begins, so that the test of the stopping criteria speaks about
the point a run returns.
-/
namespace ConstrainedOpt
variable {F : Type} [Scalar F]
open Running

/-- What a state carries is what its iterate, multipliers and barrier parameter determine. -/
structure Problem.Consistent (p : Problem F) (s : State F) : Prop where
  values : p.evaluate s.x = .ok ⟨s.x, s.f, s.g, s.h⟩
  gradient : p.lagrangianGradient s.x s.y s.mu = .ok s.grad
  normGrad : s.normGrad = Vec.norm s.grad
  normG : s.normG = Vec.norm s.g

/-! ### The invariant -/

/-- At `s` a gradient is due: the function values are those of the iterate, no stop is met, and the tolerances
refer to the norms of the first state `s₁`. -/
structure Setup.Due (k : Setup F) (s₁ s : State F) : Prop where
  values : k.problem.evaluate s.x = .ok ⟨s.x, s.f, s.g, s.h⟩
  length : s.grad.length = s.x.length
  running : s.stop = .notConverged
  normGradTyp : s.normGradTyp = s₁.normGrad
  normGTyp : s.normGTyp = s₁.normG

/-- The states of a run between its steps. -/
structure Setup.Tracked (k : Setup F) (s₁ s : State F) : Prop extends k.Due s₁ s where
  consistent : k.problem.Consistent s

/-- The stopping criterion of small gradients holds of a consistent state. -/
structure Setup.Certified (k : Setup F) (s₁ s : State F) : Prop where
  consistent : k.problem.Consistent s
  gradient : s.normGrad ≤ k.par.epsGrad * k.par.typical s₁.normGrad
  constraint : k.equalities ≠ 0 → s.normG ≤ k.par.epsConstr * k.par.typical s₁.normG
  barrier : k.inequalities ≠ 0 → s.mu ≤ k.par.epsMu

variable {k : Setup F} {s₁ s t : State F}

theorem Setup.Due.graded (hp : k.problem.objective.Sized) (h : k.Due s₁ s) {updateY : Bool} {y grad : Vec F}
    (hg : k.Graded updateY s y grad) : k.Tracked s₁ (s.graded y grad) := by
  obtain ⟨hgrad, hlen⟩ := hg.gradient hp h.values h.length
  exact {
    values := h.values
    length := hlen
    running := h.running
    normGradTyp := h.normGradTyp
    normGTyp := h.normGTyp
    consistent := ⟨h.values, hgrad, rfl, rfl⟩ }

theorem Setup.Due.regraded (hp : k.problem.objective.Sized) (h : k.Due s₁ s) (ht : Regraded k s t) :
    k.Tracked s₁ t ∨ t.stop = .globalizationFailure := by
  cases ht with
  | sound hg => exact .inl (h.graded hp hg)
  | failed => exact .inr rfl

theorem Setup.Tracked.lowered (hp : k.problem.objective.Sized) (h : k.Tracked s₁ s) (ht : Lowered k s t) :
    k.Tracked s₁ t ∨ t.stop = .globalizationFailure := by
  rcases ht with rfl | ⟨-, ht⟩
  · exact .inl h
  · have hdue : k.Due s₁ (s.lowered k.par) := ⟨h.values, h.length, h.running, h.normGradTyp, h.normGTyp⟩
    exact hdue.regraded hp ht

theorem Setup.Tracked.certified (h : k.Tracked s₁ s) (hc : k.criterion s = .gradientSmall) (stop : Stop) :
    k.Certified s₁ { s with stop } := by
  have hcons : k.problem.Consistent { s with stop } := by
    obtain ⟨hv, hg, hn, hm⟩ := h.consistent
    exact ⟨hv, hg, hn, hm⟩
  unfold Setup.criterion at hc
  rw [if_neg (by simp [h.running])] at hc
  split at hc
  case isTrue hsmall =>
    obtain ⟨hgrad, hconstr, hmu⟩ := hsmall
    rw [h.normGradTyp] at hgrad
    rw [h.normGTyp] at hconstr
    exact ⟨hcons, hgrad, hconstr.resolve_left, hmu.resolve_left⟩
  case isFalse =>
    split at hc
    · cases hc
    · split at hc <;> cases hc

/-- A run that leaves its loop for small gradients has met their criterion. -/
def Setup.Settled (k : Setup F) (s₁ s : State F) : Prop := s.stop = .gradientSmall → k.Certified s₁ s

theorem Setup.Tracked.assessed (hp : k.problem.objective.Sized) (h : k.Tracked s₁ s) (ht : Assessed k s t) :
    StepEnds (k.Tracked s₁) (k.Settled s₁) t := by
  unfold StepEnds
  cases ht with
  | stop hl hc =>
    rw [if_neg hc]
    intro hsmall
    rcases h.lowered hp hl with ht | hfail
    · exact ht.certified hsmall _
    · have hgf := (Setup.criterion_of_stopped (by simp [hfail])).symm.trans hsmall
      simp [hfail] at hgf
  | unsound => exact nofun
  | go hl hc =>
    rw [if_pos rfl]
    rcases h.lowered hp hl with ⟨⟨hv, hlen, _, hn, hm⟩, ⟨hv', hg, hn', hm'⟩⟩ | hfail
    · exact ⟨⟨hv, hlen, rfl, hn, hm⟩, ⟨hv', hg, hn', hm'⟩⟩
    · have hgf := (Setup.criterion_of_stopped (by simp [hfail])).symm.trans hc
      simp [hfail] at hgf

/-- At the beginning of an outer iteration the state is consistent. -/
def Watch.consistent (p : Problem F) : Watch F where
  visit loc s := loc = .beginningOfOptimizationLoop → p.Consistent s
  trial _ _ := True

theorem Setup.stepFrame (hp : k.problem.objective.Sized) (hk : k.hooks.StepOnly) (h : k.Tracked s₁ s)
    (c : Kept F) (hc : s.kept = c) :
    StepFrame k (Watch.consistent k.problem) (fun _ => StepEnds (k.Tracked s₁) (k.Settled s₁)) (fun _ _ => True)
      c where
  hooks := hk
  visit _ _ hloc _ hhead := by
    rw [hhead] at hloc
    exact hloc.elim
  trial _ _ _ := trivial
  stuck u hu := by
    unfold StepEnds Setup.Settled
    rcases hu.failed with hstop | hstop <;> rw [hstop] <;> exact nofun
  halted _ _ _ := trivial
  accepted u t hu htrial _ := by
    obtain ⟨dx, a, htrial⟩ := htrial.exists_trial
    obtain ⟨hadd, heval⟩ := Problem.trial_eq_ok htrial
    have heq := hu.kept.trans hc.symm
    have hx : u.x = s.x := congrArg Kept.x heq
    have hgrad : u.grad = s.grad := congrArg Kept.grad heq
    have hdue : k.Due s₁ (u.moveTo t) := {
      values := heval
      length := by
        change u.grad.length = t.x.length
        rw [Checked.add_length hadd, hgrad, hx, h.length]
      running := hu.running
      normGradTyp := (congrArg Kept.normGradTyp heq).trans h.normGradTyp
      normGTyp := (congrArg Kept.normGTyp heq).trans h.normGTyp }
    refine accept_wp hk t nofun (fun _ _ _ => nofun) (fun v hv => ?_) fun _ _ _ => trivial
    unfold StepEnds
    rcases hdue.regraded hp hv with hv | hv
    · exact if_pos hv.running ▸ hv
    · simp [hv, Setup.Settled]

theorem Setup.loopFrame (hp : k.problem.objective.Sized) (hk : k.hooks.StepOnly) (s₁ : State F) :
    LoopFrame k (Watch.consistent k.problem) (fun _ _ => True) (k.Tracked s₁) (k.Tracked s₁) (k.Tracked s₁)
      (k.Settled s₁) where
  hooks := hk
  head _ hs _ := hs.consistent
  assessed _ _ hs ht := hs.assessed hp ht
  assessHalted _ _ _ _ _ := trivial
  started _ _ := nofun
  saved s v hs hrunning _ := by
    have hs' : k.Tracked s₁ (s.beforeStep v) := by
      obtain ⟨⟨hv, hlen, hr, hn, hm⟩, ⟨hv', hg, hn', hm'⟩⟩ := hs
      exact ⟨⟨hv, hlen, hr, hn, hm⟩, ⟨hv', hg, hn', hm'⟩⟩
    exact ⟨nofun, takeStep_wp (Setup.stepFrame hp hk hs' _ rfl) ⟨rfl, hrunning⟩⟩
  saveHalted _ _ _ _ := trivial
  stepped _ _ := nofun
  paired s v hs hrunning _ := by
    obtain ⟨⟨hv, hlen, hr, hn, hm⟩, ⟨hv', hg, hn', hm'⟩⟩ := hs
    exact ⟨nofun, nofun, ⟨⟨hv, hlen, hr, hn, hm⟩, ⟨hv', hg, hn', hm'⟩⟩⟩
  pairHalted _ _ _ := trivial
  outOfFuel _ _ := trivial

/-! ### Runs -/

theorem Setup.Opened.tracked (hp : k.problem.objective.Sized) {t : Trial F} {y grad : Vec F}
    (hlen : s.x.length = k.n) (h : k.Opened s t y grad) :
    k.Tracked (k.openedState s t y grad) (k.openedState s t y grad) ∧ (k.openedState s t y grad).x = s.x := by
  have hx := (Problem.evaluate_eq_ok h.evaluated).1
  have hdue : k.Due (k.openedState s t y grad) { k.firstPoint s t with
      normGradTyp := Vec.norm grad, normGTyp := Vec.norm t.g } := {
    values := by
      change k.problem.evaluate t.x = .ok t
      rw [hx]
      exact h.evaluated
    length := by
      change (Vec.zeros k.n : Vec F).length = t.x.length
      rw [hx, hlen, Vec.length_zeros]
    running := rfl
    normGradTyp := rfl
    normGTyp := rfl }
  exact ⟨hdue.graded hp h.graded, hx⟩

/-- Whatever the manipulator sees at the beginning of an outer iteration is consistent. A run that ends for
small gradients returns a point where the criterion holds of the quantities computed anew, against the norms
of the first state. -/
theorem Problem.solve_certifies {p : Problem F} (hp : p.objective.Sized) {hooks : Hooks F}
    (hk : hooks.Observing) (par : Parameters F) (s₀ : State F) :
    (∀ s, (.beginningOfOptimizationLoop, s) ∈ (p.solve par hooks s₀).visits → p.Consistent s) ∧
    ((p.solve par hooks s₀).result = .ok .gradientSmall → ∃ s₁ t grad,
      (.afterInitialFuncAndGrad, s₁) ∈ (p.solve par hooks s₀).visits ∧ s₁.x = s₀.x ∧ p.Consistent s₁ ∧
      p.evaluate (p.solve par hooks s₀).state.x = .ok t ∧
      p.lagrangianGradient (p.solve par hooks s₀).state.x (p.solve par hooks s₀).state.y
        (p.solve par hooks s₀).state.mu = .ok grad ∧
      Vec.norm grad ≤ par.epsGrad * par.typical (Vec.norm s₁.grad) ∧
      (p.equalities ≠ 0 → Vec.norm t.g ≤ par.epsConstr * par.typical (Vec.norm s₁.g)) ∧
      (p.inequalities ≠ 0 → (p.solve par hooks s₀).state.mu ≤ par.epsMu)) := by
  let k : Setup F := ⟨par, p, hooks, s₀.x.length⟩
  have hgoes : (p.solve par hooks s₀).Goes (Watch.consistent p)
      (fun s₁ stop t => k.Settled s₁ t ∧ stop = t.stop) (fun _ _ _ => True) k s₀ := by
    refine solve_goes rfl hk.stepOnly fun t y grad hopened => ?_
    exact LoopFrame.loop_wp (Setup.loopFrame hp hk.stepOnly _) (hopened.tracked hp rfl).1 nofun fun _ _ => nofun
  constructor
  · intro s hs
    rcases hgoes.visit hs with hopening | hstart | hconsistent
    · simp [Watch.opening] at hopening
    · cases hstart
    · exact hconsistent rfl
  generalize p.solve par hooks s₀ = r at hgoes
  intro hsmall
  cases hgoes with
  | abandoned _ hresult =>
    obtain ⟨hstop, heq⟩ := hresult _ hsmall
    simp [Abandoned, ← heq] at hstop
  | optimized t y grad first rest hopened _ _ hevents hok _ =>
    obtain ⟨htracked, hx⟩ := hopened.tracked hp rfl
    have hstart : (.afterInitialFuncAndGrad, k.openedState s₀ t y grad) ∈ r.visits :=
      Solution.mem_visits.mpr (by simp [hevents])
    obtain ⟨hsettled, heq⟩ := hok _ hsmall
    obtain ⟨hcons, hgrad, hconstr, hmu⟩ := hsettled heq.symm
    rw [hcons.normGrad, htracked.consistent.normGrad] at hgrad
    rw [hcons.normG, htracked.consistent.normG] at hconstr
    exact ⟨_, _, _, hstart, hx, htracked.consistent, hcons.values, hcons.gradient, hgrad, hconstr, hmu⟩

theorem Objective.polynomial_sized (p : Polynomial F) : (Objective.polynomial p).Sized := by
  intro x n v hv
  rw [Checked.length_of_mapM hv, List.length_range]

/-- The least `u² + v²` with `u + v = 1`. -/
def Problem.nearestOnLine : Problem Float where
  objective := .polynomial [⟨1, [2, 0]⟩, ⟨1, [0, 2]⟩]
  equality := some (.polynomial [[⟨1, [1, 0]⟩, ⟨1, [0, 1]⟩, ⟨-1, []⟩]] 2)
  inequality := none
  preconditioner := none

theorem Problem.solve_certifies_nearestOnLine :
    let r := nearestOnLine.solve .default .passive (.new [1, 0])
    nearestOnLine.objective.Sized ∧ Hooks.passive.Observing (F := Float) ∧
    r.result = .ok .gradientSmall ∧ ∃ s₁ t grad,
      (.afterInitialFuncAndGrad, s₁) ∈ r.visits ∧ s₁.x = [1, 0] ∧ nearestOnLine.Consistent s₁ ∧
      nearestOnLine.evaluate r.state.x = .ok t ∧
      nearestOnLine.lagrangianGradient r.state.x r.state.y r.state.mu = .ok grad ∧
      Vec.norm grad ≤ Parameters.default.epsGrad * Parameters.default.typical (Vec.norm s₁.grad) ∧
      Vec.norm t.g ≤ Parameters.default.epsConstr * Parameters.default.typical (Vec.norm s₁.g) := by
  have hsized : nearestOnLine.objective.Sized := Objective.polynomial_sized _
  have hpassive : Hooks.passive.Observing (F := Float) := fun _ _ => rfl
  have hresult : (nearestOnLine.solve .default .passive (.new [1, 0])).result = .ok .gradientSmall := by
    have h : (nearestOnLine.solve .default .passive (.new [1, 0])).result.toOption = some .gradientSmall := by
      decide +kernel
    cases hr : (nearestOnLine.solve .default .passive (.new [1, 0])).result <;> simp_all [Except.toOption]
  obtain ⟨s₁, t, grad, hs₁, hx, hcons, ht, hgrad, hsmall, hconstr, -⟩ :=
    (solve_certifies hsized hpassive .default (.new [1, 0])).2 hresult
  exact ⟨hsized, hpassive, hresult, s₁, t, grad, hs₁, hx, hcons, ht, hgrad, hsmall, hconstr (by decide)⟩

end ConstrainedOpt
