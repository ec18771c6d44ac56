import ConstrainedOpt.Scalar.Binary64
import ConstrainedOpt.Proofs.Run.Loop
import ConstrainedOpt.Proofs.Scalar.Absorbing

/-! # The interior

The barrier keeps a run where the inequality constraints hold strictly: a point is accepted only when its merit
is finite, which no point outside the interior has, whatever the functions answer at trial points.
-/
namespace ConstrainedOpt
variable {F : Type} [Scalar F]
open Running

/-- The values of a state are those of its iterate, its slack is positive and its objective finite. -/
structure Problem.Interior (p : Problem F) (s : State F) : Prop where
  objective : p.objective.value s.x = .ok s.f
  slack : ∀ c, p.inequality = some c → c.value s.x c.rows = .ok s.h
  positive : ∀ u ∈ s.h, 0 < u
  finite : Scalar.isFinite s.f = true

section Barrier
variable [Absorbing F]

/-- The barrier objective is finite only in the interior. -/
theorem Barrier.objective_finite {f μ : F} {h : Vec F} (hf : Scalar.isFinite (Barrier.objective f h μ) = true) :
    Scalar.isFinite f = true ∧ ∀ u ∈ h, 0 < u := by
  unfold Barrier.objective at hf
  split at hf
  case isTrue hempty => exact ⟨hf, by simp [List.isEmpty_iff.mp hempty]⟩
  case isFalse =>
    dsimp only at hf
    split at hf
    case isTrue hb =>
      refine ⟨Absorbing.isFinite_of_sub _ _ hf, ?_⟩
      unfold Vec.logBarrier at hb
      split at hb
      case isTrue hall => simpa using hall
      case isFalse => simp [Absorbing.not_isFinite_neg_infinity] at hb
    case isFalse => simp [Absorbing.not_isFinite_infinity] at hf

theorem Barrier.merit_finite {f μ ρ m : F} {g h y : Vec F} (hm : Barrier.merit f g h y μ ρ = .ok m)
    (hf : Scalar.isFinite m = true) : Scalar.isFinite (Barrier.objective f h μ) = true := by
  unfold Barrier.merit at hm
  dsimp only at hm
  split at hm
  · cases hm
    exact hf
  · obtain ⟨i, -, hm⟩ := Checked.bind_eq_ok.mp hm
    cases hm
    exact Absorbing.isFinite_of_add _ _ (Absorbing.isFinite_of_add _ _ hf)

theorem Trial.Passes.barrier_finite {t : Trial F} {s : State F} (h : t.Passes s) :
    Scalar.isFinite (t.barrier s.mu) = true := by
  cases h with
  | barrier h => exact h
  | merit hm h => exact Barrier.merit_finite hm h
  | probe h =>
    unfold Trial.probeMerit at h
    split at h
    · simp [Absorbing.not_isFinite_infinity] at h
    · exact h

/-- No driver lets a point outside the interior pass. -/
theorem Trial.Passes.interior {t : Trial F} {s : State F} (h : t.Passes s) :
    Scalar.isFinite t.f = true ∧ ∀ u ∈ t.h, 0 < u := Barrier.objective_finite h.barrier_finite

end Barrier

/-! ### The invariant -/

def Watch.interior (p : Problem F) : Watch F := ⟨fun _ s => p.Interior s, fun _ _ => True⟩

variable {k : Setup F} {s t : State F}

theorem Problem.Interior.sameButGradient {p : Problem F} (h : p.Interior s) (ht : s.SameButGradient t) :
    p.Interior t := by
  unfold State.SameButGradient at ht
  rw [ht]
  exact ⟨h.objective, h.slack, h.positive, h.finite⟩

theorem Problem.Interior.regraded {p : Problem F} (h : p.Interior s) (ht : Regraded k s t) : p.Interior t := by
  cases ht with
  | sound => exact ⟨h.objective, h.slack, h.positive, h.finite⟩
  | failed hu =>
    have hu := h.sameButGradient hu
    exact ⟨hu.objective, hu.slack, hu.positive, hu.finite⟩

theorem Problem.Interior.lowered {p : Problem F} (h : p.Interior s) (ht : Lowered k s t) : p.Interior t := by
  rcases ht with rfl | ⟨-, ht⟩
  · exact h
  · have hmu : p.Interior (s.lowered k.par) := ⟨h.objective, h.slack, h.positive, h.finite⟩
    exact hmu.regraded ht

theorem Problem.Interior.assessed {p : Problem F} (h : p.Interior s) (ht : Assessed k s t) : p.Interior t := by
  cases ht with
  | stop hl | unsound hl | go hl =>
    have hl := h.lowered hl
    exact ⟨hl.objective, hl.slack, hl.positive, hl.finite⟩

theorem Problem.Interior.of_kept {p : Problem F} (h : p.Interior s) (ht : t.kept = s.kept) : p.Interior t := by
  have hx : t.x = s.x := congrArg Kept.x ht
  have hf : t.f = s.f := congrArg Kept.f ht
  have hh : t.h = s.h := congrArg Kept.h ht
  refine ⟨?_, ?_, ?_, ?_⟩
  · rw [hx, hf]
    exact h.objective
  · rw [hx, hh]
    exact h.slack
  · rw [hh]
    exact h.positive
  · rw [hf]
    exact h.finite

/-- Where a sound evaluation that passes leads is in the interior. -/
theorem Problem.Interior.of_trial {p : Problem F} {v : Trial F} (hv : p.evaluate v.x = .ok v)
    (hin : Scalar.isFinite v.f = true ∧ ∀ u ∈ v.h, 0 < u) (s : State F) : p.Interior (s.moveTo v) where
  objective := (Problem.evaluate_eq_ok hv).2.1
  slack := (Problem.evaluate_eq_ok hv).2.2.2.2.1
  positive := hin.2
  finite := hin.1

theorem interior_stepFrame [Absorbing F] (hk : k.hooks.StepOnly) (h : k.problem.Interior s) :
    StepFrame k (Watch.interior k.problem) (fun _ => k.problem.Interior) (fun _ => k.problem.Interior)
      s.kept where
  hooks := hk
  visit _ _ _ hu := h.of_kept hu
  trial _ _ _ := trivial
  stuck _ hu := h.of_kept hu.kept
  halted _ _ hu := h.of_kept hu
  accepted u v _ htrial hpass := by
    obtain ⟨dx, a, htrial⟩ := htrial.exists_trial
    have hin := Problem.Interior.of_trial (Problem.trial_eq_ok htrial).2 hpass.interior u
    refine accept_wp hk v hin (fun y grad hg => hin.regraded (.sound hg)) (fun w hw => hin.regraded hw) ?_
    exact fun e w hw => hin.sameButGradient hw

theorem interior_loopFrame [Absorbing F] (hk : k.hooks.StepOnly) :
    LoopFrame k (Watch.interior k.problem) (fun _ => k.problem.Interior) k.problem.Interior
      k.problem.Interior k.problem.Interior k.problem.Interior where
  hooks := hk
  head _ hs := hs
  assessed _ _ hs ht := by
    unfold StepEnds
    split <;> exact hs.assessed ht
  assessHalted e s t hs ht := by
    rcases ht with ht | ⟨u, stop, hu, rfl⟩
    · have hmu : k.problem.Interior (s.lowered k.par) := ⟨hs.objective, hs.slack, hs.positive, hs.finite⟩
      exact hmu.sameButGradient ht
    · have hu := hs.lowered hu
      exact ⟨hu.objective, hu.slack, hu.positive, hu.finite⟩
  started _ hs := hs
  saved s v hs hrunning _ := by
    have hs' : k.problem.Interior (s.beforeStep v) := ⟨hs.objective, hs.slack, hs.positive, hs.finite⟩
    refine ⟨⟨hs.objective, hs.slack, hs.positive, hs.finite⟩, ?_⟩
    refine wp_mono (takeStep_wp (interior_stepFrame hk hs') ⟨rfl, hrunning⟩) ?_ fun _ _ h => h
    intro _ t ht
    unfold StepEnds
    split <;> exact ht
  saveHalted _ _ _ hs := ⟨hs.objective, hs.slack, hs.positive, hs.finite⟩
  stepped _ hs := hs
  paired s v hs _ _ :=
    have hs' : k.problem.Interior (s.paired v k.par.storedHistory).counted :=
      ⟨hs.objective, hs.slack, hs.positive, hs.finite⟩
    ⟨⟨hs.objective, hs.slack, hs.positive, hs.finite⟩, hs', hs'⟩
  pairHalted _ _ hs := hs
  outOfFuel _ hs := hs

/-! ### Runs -/

/-- From its first gradient on a run whose manipulator writes at most steps never leaves the interior: neither
the states the manipulator sees from then on, among them those right after each accepted step, nor the state
the run leaves, however it ends. -/
theorem Problem.solve_interior [Absorbing F] (p : Problem F) {hooks : Hooks F} (hk : hooks.StepOnly)
    (par : Parameters F) (s₀ : State F) :
    (∀ v ∈ (p.solve par hooks s₀).optimizing, p.Interior v.2) ∧
    ((p.solve par hooks s₀).optimizing ≠ [] → p.Interior (p.solve par hooks s₀).state) := by
  let k : Setup F := ⟨par, p, hooks, s₀.x.length⟩
  have hopened : ∀ {t y grad}, k.Opened s₀ t y grad → p.Interior (k.openedState s₀ t y grad) := by
    intro t y grad h
    obtain ⟨hx, hf, -, -, hh, -⟩ := Problem.evaluate_eq_ok h.evaluated
    obtain ⟨hfin, hpos⟩ := Barrier.objective_finite h.feasible
    rw [← hx] at hf hh
    exact ⟨hf, hh, hpos, hfin⟩
  have hgoes : (p.solve par hooks s₀).Goes (Watch.interior p) (fun _ _ => p.Interior) (fun _ _ => p.Interior)
      k s₀ := by
    refine solve_goes rfl hk fun t y grad h => ?_
    refine wp_mono (LoopFrame.loop_wp (interior_loopFrame hk) (hopened h) (hopened h) fun _ ht => ht) ?_ ?_
    · exact fun _ _ h => h.1
    · exact fun _ _ h => h
  have hopening : ∀ {es : List (Event F)}, (∀ e ∈ es, Watch.opening.Sees e) →
      ∀ s, .visit .afterInitialFuncAndGrad s ∉ es := by
    intro es hes s hs
    simpa [Watch.opening, Watch.Sees] using hes _ hs
  generalize p.solve par hooks s₀ = r at hgoes
  cases hgoes with
  | abandoned hsees _ =>
    have hnone : ∀ v, v ∉ r.optimizing := fun v hv =>
      List.not_mem_nil (Solution.mem_optimizing (List.append_nil _).symm (hopening hsees) hv)
    exact ⟨fun v hv => absurd hv (hnone v), fun hne => absurd (List.eq_nil_iff_forall_not_mem.mpr hnone) hne⟩
  | optimized t y grad first rest h hfirst hrest hevents hok herror =>
    constructor
    · intro v hv
      rcases List.mem_cons.mp (Solution.mem_optimizing hevents (hopening hfirst) hv) with hv | hv
      · obtain ⟨-, hv⟩ := Event.visit.inj hv
        exact hv ▸ hopened h
      · exact hrest _ hv
    · intro _
      cases hr : r.result with
      | ok stop => exact hok stop hr
      | error e => exact herror e hr

omit [Scalar F] in
/-- A manipulator that proposes the same step whenever it is asked. -/
def Hooks.proposing (dx : Vec F) : Hooks F where
  manipulate loc s := match loc with
    | .getStep => { s with dx }
    | _ => s
  fail := id

omit [Scalar F] in
theorem Hooks.proposing_stepOnly (dx : Vec F) : (proposing dx).StepOnly where
  atGetStep s := ⟨dx, rfl⟩
  elsewhere loc s hloc := by
    cases loc with
    | getStep => exact absurd rfl hloc
    | _ => rfl

/-- The numbers that are not negative, as a constraint in one dimension. -/
def Constraint.halfLine : Constraint F where
  rows := 1
  cols := 1
  value x _ := .ok x
  forward _ dx _ := .ok dx
  adjoint _ dy _ := .ok dy
  second _ dx _ _ := .ok (Vec.zerosLike dx)

/-- The least half square on the half line. -/
def Problem.leastHalfSquare : Problem F where
  objective := {
    value := fun x => .ok (Scalar.half * Vec.inner x x)
    gradient := fun x n => Checked.copy x (Vec.zeros n)
    hessian := fun _ dx _ => .ok dx }
  equality := none
  inequality := some .halfLine
  preconditioner := none

theorem Problem.solve_interior_leastHalfSquare :
    let par : Parameters Float := { Parameters.default with algorithm := .userDefined }
    let r := leastHalfSquare.solve par (.proposing [-0.25]) (.new [1])
    (Hooks.proposing (F := Float) [-0.25]).StepOnly ∧ (∀ v ∈ r.optimizing, leastHalfSquare.Interior v.2) ∧
      (r.optimizing ≠ [] → leastHalfSquare.Interior r.state) := by
  intro par r
  have hk : (Hooks.proposing (F := Float) [-0.25]).StepOnly := Hooks.proposing_stepOnly _
  exact ⟨hk, leastHalfSquare.solve_interior hk par (.new [1])⟩

end ConstrainedOpt
