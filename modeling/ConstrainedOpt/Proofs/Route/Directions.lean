import ConstrainedOpt.Proofs.Route.Grammar

/-! # Where steps begin

The hook point before a step sees every count of complete iterations once the run has got beyond it.
-/
namespace ConstrainedOpt
variable {F : Type} [Scalar F] {k : Setup F} {s₀ u v : State F} {p : List (Event F)} {loc loc' : Location} {n : Nat}

omit [Scalar F] in
/-- The step of the iteration with `i` complete ones before it has begun. -/
def StepBegun (p : List (Event F)) (i : Nat) : Prop := ∃ s, (.beforeGetStep, s) ∈ Event.visits p ∧ s.iter = i

/-- The step of the current iteration has begun. -/
def Location.onStep : Location → Bool
  | .beforeGetStep | .getStep | .beforeActualVersusPredicted | .afterRejectedTrustRegion | .beforeLineSearch
  | .afterRejectedLineSearch | .afterStepBeforeGradient | .afterGradient | .beforeQuasi | .afterQuasi => true
  | _ => false

/-- The steps of the iterations before the current one have begun, and its own if the hook point belongs to it. -/
structure StepsBegun (p : List (Event F)) (loc : Location) (i : Nat) : Prop where
  before : ∀ j < i, StepBegun p j
  current : loc.onStep = true → StepBegun p i

omit [Scalar F] in
theorem StepBegun.append {i : Nat} (h : StepBegun p i) (q : List (Event F)) : StepBegun (p ++ q) i := by
  obtain ⟨s, hs, hi⟩ := h
  rw [StepBegun, Event.visits_append]
  exact ⟨s, List.mem_append_left _ hs, hi⟩

omit [Scalar F] in
theorem StepsBegun.append {i : Nat} (h : StepsBegun p loc i) (q : List (Event F)) : StepsBegun (p ++ q) loc i :=
  ⟨fun j hj => (h.before j hj).append q, fun hloc => (h.current hloc).append q⟩

omit [Scalar F] in
/-- The run goes on without another step. -/
theorem StepsBegun.next {i : Nat} (h : StepsBegun p loc i) (hloc : loc'.onStep = true → loc.onStep = true) (s : State F) :
    StepsBegun (p ++ [.visit loc' s]) loc' i :=
  ⟨fun j hj => (h.before j hj).append _, fun hon => (h.current (hloc hon)).append _⟩

omit [Scalar F] in
theorem StepsBegun.begun (h : ∀ j < v.iter, StepBegun p j) : StepsBegun (p ++ [.visit .beforeGetStep v]) .beforeGetStep v.iter :=
  ⟨fun j hj => (h j hj).append _, fun _ => ⟨v, by simp, rfl⟩⟩

theorem Leg.stepsBegun (leg : Leg k loc u n loc' v) (hlast : loc' ≠ .endOfOptimization)
    (h : loc ≠ .beginningOfOptimization → StepsBegun p loc u.iter) : StepsBegun (p ++ [.visit loc' v]) loc' v.iter := by
  have hsame : ∀ c : Counters, v.counters = c → c.iter = u.iter → u.iter = v.iter := by
    rintro _ rfl hc
    exact hc.symm
  cases leg with
  | opened hv =>
    have hiter : v.iter = 0 := congrArg Counters.iter hv
    exact ⟨fun j hj => absurd hj (by omega), fun hon => absurd hon (by decide)⟩
  | plain hloc hv =>
    rw [hsame _ hv rfl] at h
    cases loc <;> simp only [Location.following, Option.some.injEq, reduceCtorEq] at hloc <;> subst hloc
    all_goals exact (h (by decide)).next (by decide) v
  | begun _ hv =>
    rw [hsame _ hv rfl] at h
    exact (h (by decide)).next (by decide) v
  | restarted hv =>
    rw [hsame _ hv rfl] at h
    exact .begun (h (by decide)).before
  | retried _ hv =>
    rw [hsame _ hv rfl] at h
    exact .begun (h (by decide)).before
  | searched hloc _ _ hv =>
    rw [hsame _ hv rfl] at h
    cases hloc <;> exact (h (by decide)).next (by decide) v
  | missed hloc _ _ hv =>
    rw [hsame _ hv rfl] at h
    cases hloc <;> exact (h (by decide)).next (by decide) v
  | counted hv =>
    have hiter : v.iter = u.iter + 1 := congrArg Counters.iter hv
    rw [hiter]
    obtain ⟨hbefore, hcurrent⟩ := h (by decide)
    refine ⟨fun j hj => ?_, fun hon => absurd hon (by decide)⟩
    rcases Nat.lt_succ_iff_lt_or_eq.mp hj with hj | rfl
    · exact (hbefore j hj).append _
    · exact (hcurrent rfl).append _
  | ended => exact absurd rfl hlast
  | computed hv | composed _ hv | accepted hv | rejected hv | directed _ hv | supplied _ hv =>
    rw [hsame _ hv rfl] at h
    exact (h (by decide)).next (by decide) v

theorem Leg.ne_end (leg : Leg k loc u n loc' v) : loc ≠ .endOfOptimization := by
  rintro rfl
  cases leg with
  | plain hloc => cases hloc
  | searched hloc => cases hloc
  | missed hloc => cases hloc
  | ended h => exact absurd h.mem_ends (by decide)

theorem Route.stepsBegun (h : Route k s₀ p loc u n) (hfirst : loc ≠ .beginningOfOptimization)
    (hlast : loc ≠ .endOfOptimization) : StepsBegun p loc u.iter := by
  induction h with
  | start => exact absurd rfl hfirst
  | note m _ ih => exact (ih hfirst hlast).append _
  | trial s t _ ih => exact (ih hfirst hlast).append _
  | visit _ leg ih => exact leg.stepsBegun hlast fun hfirst => ih hfirst leg.ne_end

/-- A step begins after those of all iterations before its own. -/
theorem Route.stepBegun_before (h : Route k s₀ p loc u n) (hv : (.beforeGetStep, v) ∈ Event.visits p) :
    ∀ j < v.iter, StepBegun p j := by
  induction h with
  | start notes =>
    rw [Event.visits_start, List.mem_singleton] at hv
    cases hv
  | note m _ ih => exact fun j hj => (ih (by simpa using hv) j hj).append _
  | trial s t _ ih => exact fun j hj => (ih (by simpa using hv) j hj).append _
  | visit hroute leg ih =>
    rw [Event.visits_append, List.mem_append] at hv
    rcases hv with hv | hv
    · exact fun j hj => (ih hv j hj).append _
    · obtain ⟨rfl, rfl⟩ := Prod.mk.inj (List.mem_singleton.mp hv)
      exact ((hroute.visit leg).stepsBegun (by decide) (by decide)).before

theorem Problem.solve_stepBegun (p : Problem F) (par : Parameters F) {hooks : Hooks F} (hk : hooks.Observing)
    {s₀ t : State F} (ht : (.beforeGetStep, t) ∈ (p.solve par hooks s₀).visits) {i : Nat} (hi : i < t.iter) :
    ∃ s, (.beforeGetStep, s) ∈ (p.solve par hooks s₀).visits ∧ s.iter = i := by
  obtain ⟨loc, u, n, hroute⟩ := (p.solve_travels par hk s₀).exists_route
  exact hroute.stepBegun_before ht i hi

end ConstrainedOpt
