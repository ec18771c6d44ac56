import ConstrainedOpt.Proofs.Derivatives
import ConstrainedOpt.Proofs.History.Steps
import ConstrainedOpt.Proofs.Route.Grammar
import ConstrainedOpt.Proofs.Secants.Iterates

/-! # The secant pairs of a run

The iterates of a run are those of its accepted points whose gradient is sound. Whenever a pair has been stored the history
of the state holds the secant pairs of the last iterates, as many as it has room for.
-/
namespace ConstrainedOpt
variable {F : Type}

/-! ### What a step visits -/

namespace Running
variable [Scalar F] {k : Setup F} {s t : State F} {p q : List (Event F)} {vs : Visits F}

/-- Since the visits `vs` no gradient of an accepted point was found sound, and no pair was stored. -/
def Pending (vs : Visits F) (q : List (Event F)) : Prop :=
  ∃ ws, Event.visits q = vs ++ ws ∧ ∀ v ∈ ws, v.1 ≠ .afterGradient ∧ v.1 ≠ .afterQuasi

omit [Scalar F] in
theorem Pending.of_eq (hp : Pending vs p) (hq : Event.visits q = Event.visits p) : Pending vs q := by
  obtain ⟨ws, hws, hnone⟩ := hp
  exact ⟨ws, hq.trans hws, hnone⟩

omit [Scalar F] in
theorem Pending.visit (loc : Location) (hp : Pending vs p) (hgradient : loc ≠ .afterGradient) (hquasi : loc ≠ .afterQuasi)
    (hq : Event.visits q = Event.visits p ++ [(loc, s)]) : Pending vs q := by
  obtain ⟨ws, hws, hnone⟩ := hp
  refine ⟨ws ++ [(loc, s)], by rw [hq, hws, List.append_assoc], fun v hv => ?_⟩
  rcases List.mem_append.mp hv with hv | hv
  · exact hnone v hv
  · rw [List.mem_singleton.mp hv]
    exact ⟨hgradient, hquasi⟩

/-- A step that ends in `t` has visited no stored pair, and at most its own accepted point. -/
def StepVisits (vs : Visits F) (t : State F) (q : List (Event F)) : Prop :=
  ∃ ws, Event.visits q = vs ++ ws ∧ (∀ v ∈ ws, v.1 ≠ .afterQuasi) ∧ (iteratesAt .afterGradient ws).Sublist [t.iterate]

omit [Scalar F] in
theorem Pending.stepVisits (hp : Pending vs p) (t : State F) : StepVisits vs t p := by
  obtain ⟨ws, hws, hnone⟩ := hp
  refine ⟨ws, hws, fun v hv => (hnone v hv).2, ?_⟩
  rw [iteratesAt_eq_nil fun v hv => (hnone v hv).1]
  exact List.nil_sublist _

omit [Scalar F] in
theorem Pending.landed (hp : Pending vs p) (hq : Event.visits q = Event.visits p ++ [(.afterGradient, t)]) :
    StepVisits vs t q := by
  obtain ⟨ws, hws, hnone⟩ := hp
  refine ⟨ws ++ [(.afterGradient, t)], by rw [hq, hws, List.append_assoc], fun v hv => ?_, ?_⟩
  · rcases List.mem_append.mp hv with hv | hv
    · exact (hnone v hv).2
    · rw [List.mem_singleton.mp hv]
      nofun
  · rw [iteratesAt_append, iteratesAt_eq_nil fun v hv => (hnone v hv).1]
    simp

omit [Scalar F] in
theorem pending_enduring (vs : Visits F) : Enduring fun _ q => Pending vs q where
  noted _ _ _ hp := hp.of_eq (by simp)
  faulted _ _ _ _ _ _ _ hp := hp.of_eq (by simp)

theorem pending_stepCourse (hk : k.hooks.Observing) (vs : Visits F) :
    StepCourse k (fun _ q => Pending vs q) (StepVisits vs) (StepVisits vs) where
  toEnduring := pending_enduring vs
  rejected loc s := congrArg State.rejected (hk loc s)
  tried _ _ _ _ hp := hp.of_eq (by simp)
  visited loc s p hloc hp := by
    have hgradient : loc ≠ .afterGradient := by
      rintro rfl
      exact hloc
    have hquasi : loc ≠ .afterQuasi := by
      rintro rfl
      exact hloc
    exact hp.visit (s := s) loc hgradient hquasi (by simp)
  worked _ _ _ _ _ hp := hp
  accepted v s p hp := by
    unfold accept
    refine leads_bind (leads_update (leads_bind (leads_observed hk fun q hq => leads_bind ?_)))
    have hq : Pending vs q := hp.visit .afterStepBeforeGradient nofun nofun hq
    have hhalted : ∀ e (u : State F) r, Pending vs r ∧ Told e r → StepVisits vs u r ∧ Told e r :=
      fun e u r hr => ⟨hr.1.stepVisits u, hr.2⟩
    refine leads_mono ((pending_enduring vs).keeps_updateGradient k true (fun _ _ _ _ h => h) _ q hq) ?_ hhalted
    intro o u r hr
    split
    case h_1 e =>
      refine leads_mono ((pending_enduring vs).keeps_stepFailure k (.gradientUpdate e) u r hr) ?_ hhalted
      exact fun _ t r hr => hr.stepVisits t
    case h_2 => exact leads_observed hk fun r' hr' => hr.landed hr'
  done s p hp := hp.stepVisits s
  halted s p hp := hp.stepVisits s

theorem takeStep_visits (hk : k.hooks.Observing) :
    leads (takeStep k) (fun _ t q => StepVisits (Event.visits p) t q) (fun _ t q => StepVisits (Event.visits p) t q) s p := by
  have hp : Pending (Event.visits p) p := ⟨[], (List.append_nil _).symm, fun v hv => absurd hv List.not_mem_nil⟩
  exact leads_mono ((pending_stepCourse hk _).takeStep_leads hp) (fun _ _ _ h => h) fun _ _ _ h => h.1

end Running

/-! ### What a run remembers -/

open Exact Running
variable {ε : Set.Ioi (0 : ℝ)} {n : ℕ} {k : Setup (Exact ε)} {s s₀ t : State (Exact ε)} {vs ws : Visits (Exact ε)}
  {x₀ v : Vec (Exact ε)}

@[simp] theorem State.iterate_paired (change : Vec (Exact ε)) (size : ℕ) : (s.paired change size).iterate = s.iterate :=
  rfl

theorem exists_lastPoint {x : Euclidean n} (hx : x₀ = vec x) {its : List (Iterate (Exact ε))} (h : RealIterates n its) :
    ∃ w : Euclidean n, lastPoint x₀ its = vec w := by
  rcases List.eq_nil_or_concat its with rfl | ⟨its, i, rfl⟩
  · exact ⟨x, hx⟩
  · rw [List.concat_eq_append, lastPoint_concat]
    exact h i (by simp)

/-- The state `s` in which a pair has just been stored, after the visits `before`. -/
structure Setup.StoredAt (k : Setup (Exact ε)) (n : ℕ) (x₀ : Vec (Exact ε)) (before : Visits (Exact ε))
    (s : State (Exact ε)) : Prop where
  accepted : (iteratesAt .afterGradient before).Sublist (iteratesAt .afterQuasi before ++ [s.iterate])
  stores : RealIterates n (iteratesAt .afterQuasi before ++ [s.iterate]) →
    k.problem.StoresSecants n k.par.storedHistory x₀ (iteratesAt .afterQuasi before ++ [s.iterate]) s.history

/-- Each pair of the visits `vs` was stored well. -/
def Setup.StoresAlong (k : Setup (Exact ε)) (n : ℕ) (x₀ : Vec (Exact ε)) (vs : Visits (Exact ε)) : Prop :=
  ∀ before s, before ++ [(.afterQuasi, s)] <+: vs → k.StoredAt n x₀ before s

theorem Setup.storesAlong_nil : k.StoresAlong n x₀ [] :=
  fun _ _ h => absurd (List.prefix_nil.mp h) (List.append_ne_nil_of_right_ne_nil _ (List.cons_ne_nil _ _))

theorem Setup.StoresAlong.push (h : k.StoresAlong n x₀ vs) (loc : Location) (s : State (Exact ε))
    (hloc : loc = .afterQuasi → k.StoredAt n x₀ vs s) : k.StoresAlong n x₀ (vs ++ [(loc, s)]) := by
  intro before t hbefore
  rcases List.prefix_concat_iff.mp hbefore with heq | hbefore
  · obtain ⟨rfl, hlast⟩ := List.append_inj' heq rfl
    obtain ⟨rfl, rfl⟩ := Prod.mk.inj (List.cons.inj hlast).1
    exact hloc rfl
  · exact h before t hbefore

theorem Setup.StoresAlong.append (h : k.StoresAlong n x₀ vs) (hws : ∀ v ∈ ws, v.1 ≠ .afterQuasi) :
    k.StoresAlong n x₀ (vs ++ ws) := by
  induction ws generalizing vs with
  | nil => rwa [List.append_nil]
  | cons w ws ih =>
    obtain ⟨hw, hws⟩ := List.forall_mem_cons.mp hws
    rw [List.append_cons]
    exact ih (h.push _ _ fun hloc => absurd hloc hw) hws

/-- The history `h` holds the pairs of the iterates `its` after `x₀`, if these are real. -/
def Setup.Holds (k : Setup (Exact ε)) (n : ℕ) (x₀ : Vec (Exact ε)) (its : List (Iterate (Exact ε)))
    (h : History (Exact ε)) : Prop :=
  RealIterates n its → ∃ pairs, k.problem.Secants n x₀ its pairs ∧ h = .first k.par.storedHistory pairs

/-- A state between two steps, after the visits `vs`: the pairs of all its iterates have been stored. -/
structure Setup.Remembers (k : Setup (Exact ε)) (n : ℕ) (x₀ : Vec (Exact ε)) (s : State (Exact ε))
    (vs : Visits (Exact ε)) : Prop where
  standing : k.Standing n s
  along : k.StoresAlong n x₀ vs
  accepted : (iteratesAt .afterGradient vs).Sublist (iteratesAt .afterQuasi vs)
  point : s.x = lastPoint x₀ (iteratesAt .afterQuasi vs)
  history : k.Holds n x₀ (iteratesAt .afterQuasi vs) s.history

/-- A state after a step, after the visits `vs`: the pair of its iterate is to be stored. -/
structure Setup.Gains (k : Setup (Exact ε)) (n : ℕ) (x₀ : Vec (Exact ε)) (s : State (Exact ε))
    (vs : Visits (Exact ε)) : Prop where
  standing : k.Standing n s
  multipliers : ∀ c, k.problem.equality = some c → ∃ u : Euclidean c.rows, s.y = vec u
  along : k.StoresAlong n x₀ vs
  accepted : (iteratesAt .afterGradient vs).Sublist (iteratesAt .afterQuasi vs ++ [s.iterate])
  point : s.xOld = lastPoint x₀ (iteratesAt .afterQuasi vs)
  history : k.Holds n x₀ (iteratesAt .afterQuasi vs) s.history
  dx : ∀ x z : Euclidean n, s.xOld = vec x → s.x = vec z → s.dx = vec (z - x)
  gradOld : ∀ x : Euclidean n, s.xOld = vec x → ∃ g, s.gradOld = vec g ∧ k.problem.BarrierGradientAt x s.mu g

theorem Setup.Remembers.assessed (hp : k.problem.objective.Sized) (hs : k.Remembers n x₀ s vs) (ht : Assessed k s t) :
    StepEnds (fun t => k.Remembers n x₀ t (vs ++ [(.beginningOfOptimizationLoop, s)]))
      (fun _ => k.StoresAlong n x₀ (vs ++ [(.beginningOfOptimizationLoop, s)])) t := by
  have halong : k.StoresAlong n x₀ (vs ++ [(.beginningOfOptimizationLoop, s)]) := hs.along.push _ _ nofun
  unfold StepEnds
  split
  case isTrue hrunning =>
    have hlowered := ht.lowered hrunning
    obtain ⟨hx, hhistory⟩ := hlowered.same hrunning
    refine ⟨hs.standing.lowered hp hlowered hrunning, halong, ?_, ?_, ?_⟩
    · simpa using hs.accepted
    · simpa [hx] using hs.point
    · simpa [hhistory] using hs.history
  case isFalse => exact halong

theorem Setup.Remembers.stepped (hp : k.problem.objective.Sized) (hk : k.hooks.Observing) (hs : k.Remembers n x₀ s vs)
    (hrunning : s.stop = .notConverged) (hv : WithoutMultipliers k s.x s.y s.grad v) {p : List (Event (Exact ε))}
    (hvisits : Event.visits p = vs ++ [(.beforeSaveOld, s), (.beforeStep, s.remember v)]) :
    leads (takeStep k)
      (fun _ t q => StepEnds (fun t => k.Gains n x₀ t (Event.visits q)) (fun _ => k.StoresAlong n x₀ (Event.visits q)) t)
      (fun _ _ q => k.StoresAlong n x₀ (Event.visits q)) (s.beforeStep v) p := by
  have hquasi : iteratesAt .afterQuasi (Event.visits p) = iteratesAt .afterQuasi vs := by simp [hvisits]
  have hgradient : iteratesAt .afterGradient (Event.visits p) = iteratesAt .afterGradient vs := by simp [hvisits]
  have halong : k.StoresAlong n x₀ (Event.visits p) := hvisits ▸ hs.along.append (by simp)
  have hstanding : k.Standing n (s.beforeStep v) := by
    obtain ⟨⟨hvalues, hlength, hsize⟩, hgrad⟩ := hs.standing
    exact ⟨⟨hvalues, hlength, hsize⟩, hgrad⟩
  have hmoved := takeStep_wp (hstanding.stepFrame hp hk) ⟨rfl, hrunning⟩
  refine leads_mono (leads_wp (takeStep_visits hk) hmoved) ?_ ?_
  · rintro _ t q ⟨⟨ws, hq, hnone, hshown⟩, hmoved⟩
    have halong : k.StoresAlong n x₀ (Event.visits q) := hq ▸ halong.append hnone
    have hquasi : iteratesAt .afterQuasi (Event.visits q) = iteratesAt .afterQuasi vs := by
      rw [hq, iteratesAt_append, iteratesAt_eq_nil hnone, List.append_nil, hquasi]
    unfold StepEnds
    split
    case isTrue hrunning =>
      have hmoved := hmoved hrunning
      refine ⟨hmoved.standing, hmoved.multipliers, halong, ?_, ?_, ?_, ?_, ?_⟩
      · rw [hquasi, hq, iteratesAt_append, hgradient]
        exact hs.accepted.append hshown
      · rw [hquasi, hmoved.xOld]
        exact hs.point
      · rw [hquasi, hmoved.history]
        exact hs.history
      · intro x z hx hz
        exact hmoved.dx x z (hmoved.xOld.symm.trans hx) hz
      · intro x hx
        rw [hmoved.gradOld, hmoved.mu]
        exact hs.standing.gradOld hv (hmoved.xOld.symm.trans hx)
    case isFalse => exact halong
  · rintro _ t q ⟨⟨ws, hq, hnone, -⟩, -⟩
    exact hq ▸ halong.append hnone

theorem Setup.Gains.secant (hx₀ : ∃ x : Euclidean n, x₀ = vec x)
    (hpulls : ∀ c, k.problem.equality = some c → ∀ x : Euclidean n, (c.jacobian (vec x)).Pulls n c.rows)
    (hs : k.Gains n x₀ s vs) (hv : Changed k s v) (hreal : RealIterates n (iteratesAt .afterQuasi vs ++ [s.iterate])) :
    k.problem.Secant n (lastPoint x₀ (iteratesAt .afterQuasi vs)) s.iterate s.dx v := by
  obtain ⟨hbefore, hlast⟩ := List.forall_mem_append.mp hreal
  obtain ⟨z, hz⟩ := List.forall_mem_singleton.mp hlast
  obtain ⟨_, hx₀⟩ := hx₀
  obtain ⟨x, hx⟩ := exists_lastPoint hx₀ hbefore
  have hold : s.xOld = vec x := hs.point.trans hx
  obtain ⟨g, hgradOld, hg⟩ := hs.gradOld x hold
  obtain ⟨a, hgrad, ha⟩ := hs.standing.gradient
  have hz : s.x = vec (x + (z - x)) := by
    rw [add_sub_cancel]
    exact hz
  rw [← hs.point, hs.dx x z hold (by rwa [add_sub_cancel] at hz)]
  exact .of_changed hold hgradOld hg hz hgrad (hgrad ▸ ha) (fun c hc => hpulls c hc x) hs.multipliers hv

theorem Setup.Gains.paired (hx₀ : ∃ x : Euclidean n, x₀ = vec x)
    (hpulls : ∀ c, k.problem.equality = some c → ∀ x : Euclidean n, (c.jacobian (vec x)).Pulls n c.rows)
    (hs : k.Gains n x₀ s vs) (hv : Changed k s v) :
    k.Remembers n x₀ (s.paired v k.par.storedHistory).counted (vs ++ [(.beforeQuasi, s),
      (.afterQuasi, s.paired v k.par.storedHistory),
      (.endOfOptimizationIteration, (s.paired v k.par.storedHistory).counted)]) := by
  have hholds : k.Holds n x₀ (iteratesAt .afterQuasi vs ++ [s.iterate]) (s.paired v k.par.storedHistory).history := by
    intro hreal
    obtain ⟨pairs, hpairs, hhistory⟩ := hs.history (List.forall_mem_append.mp hreal).1
    refine ⟨_, hpairs.push (hs.secant hx₀ hpulls hv hreal), ?_⟩
    change s.history.push s.dx v k.par.storedHistory = _
    rw [hhistory, History.push_first]
  have hstored : k.StoredAt n x₀ (vs ++ [(.beforeQuasi, s)]) (s.paired v k.par.storedHistory) := by
    refine ⟨by simpa using hs.accepted, fun hreal => ?_⟩
    have hquasi : iteratesAt .afterQuasi (vs ++ [(.beforeQuasi, s)]) = iteratesAt .afterQuasi vs := by simp
    rw [hquasi, State.iterate_paired] at hreal ⊢
    obtain ⟨pairs, hpairs, hhistory⟩ := hholds hreal
    exact hhistory ▸ hpairs.stores _
  have halong := (hs.along.push .beforeQuasi s nofun).push .afterQuasi _ fun _ => hstored
  have halong := halong.push .endOfOptimizationIteration (s.paired v k.par.storedHistory).counted nofun
  obtain ⟨⟨hvalues, hlength, hsize⟩, hgrad⟩ := hs.standing
  refine ⟨⟨⟨hvalues, hlength, hsize⟩, hgrad⟩, by simpa using halong, ?_, ?_, ?_⟩
  · simpa using hs.accepted
  · simp [lastPoint_concat]
    rfl
  · simpa [State.counted] using hholds

theorem Setup.Opened.remembers (hp : k.problem.objective.Sized) (hn : k.n = n) {x : Euclidean n} (hx : s₀.x = vec x)
    {t : Trial (Exact ε)} {y grad : Vec (Exact ε)} (ht : k.Opened s₀ t y grad) :
    k.Remembers n s₀.x (k.openedState s₀ t y grad) [(.beginningOfOptimization, s₀),
      (.beforeInitialFuncAndGrad, k.prepare s₀), (.afterInitialFuncAndGrad, k.openedState s₀ t y grad),
      (.beforeOptimizationLoop, k.openedState s₀ t y grad)] where
  standing := ht.standing hp hn (by rw [hx, length_vec])
  along := Setup.storesAlong_nil.append (by simp)
  accepted := by simp
  point := (Problem.evaluate_eq_ok ht.evaluated).1
  history _ := ⟨[], .none, (by simp [History.first, History.empty] : History.empty = _)⟩

theorem Setup.secants_loopCourse (hk : k.hooks.Observing) (hp : k.problem.objective.Sized)
    (hpulls : ∀ c, k.problem.equality = some c → ∀ x : Euclidean n, (c.jacobian (vec x)).Pulls n c.rows)
    (hx₀ : ∃ x : Euclidean n, x₀ = vec x) :
    LoopCourse k (k.Remembers n x₀) (k.Remembers n x₀) (k.Gains n x₀) (fun _ => k.StoresAlong n x₀) (k.StoresAlong n x₀) where
  hooks := hk.stepOnly
  assessed _ _ _ hs hvisits := assess_leads hvisits (fun _ ht => hs.assessed hp ht) (hs.along.push _ _ nofun)
  stepped _ _ _ _ hs hrunning hv hvisits := hs.stepped hp hk hrunning hv hvisits
  paired _ _ _ hs _ hv := hs.paired hx₀ hpulls hv
  saveHalted _ _ hs := hs.along.push _ _ nofun
  pairHalted _ _ hs := hs.along.push _ _ nofun
  outOfFuel _ _ hs := hs.along

/-- What a run shows that started at `x₀`: whenever a pair has been stored one more point has been accepted than pairs had
been stored, and the history holds the secant pairs of the last of these points, if they are real. -/
structure Solution.StoresSecants (r : Solution (Exact ε)) (p : Problem (Exact ε)) (n size : ℕ) (x₀ : Vec (Exact ε)) :
    Prop where
  accepted : ∀ before s after, r.visits = before ++ (.afterQuasi, s) :: after →
    (iteratesAt .afterGradient before).length = (iteratesAt .afterQuasi before).length + 1
  stores : ∀ before s after, r.visits = before ++ (.afterQuasi, s) :: after →
    RealIterates n (iteratesAt .afterGradient before) →
    p.StoresSecants n size x₀ (iteratesAt .afterGradient before) s.history

/-- In exact arithmetic the history of an observed run holds the secant pairs of the Lagrangian, for any problem whose
Jacobians are real at real points. -/
theorem Problem.solve_stores_secants {p : Problem (Exact ε)} {par : Parameters (Exact ε)} {hooks : Hooks (Exact ε)}
    (hhooks : hooks.Observing) (hp : p.objective.Sized)
    (hpulls : ∀ c, p.equality = some c → ∀ x : Euclidean n, (c.jacobian (vec x)).Pulls n c.rows) {x : Euclidean n}
    (hx : s₀.x = vec x) : (p.solve par hooks s₀).StoresSecants p n par.storedHistory s₀.x := by
  have hlength : (⟨par, p, hooks, s₀.x.length⟩ : Setup (Exact ε)) = ⟨par, p, hooks, n⟩ := by rw [hx, length_vec]
  have halong : (⟨par, p, hooks, n⟩ : Setup (Exact ε)).StoresAlong n s₀.x (p.solve par hooks s₀).visits := by
    refine Problem.solve_course hhooks.stepOnly hlength
      (fun _ => Setup.secants_loopCourse hhooks hp hpulls ⟨x, hx⟩) (fun t y grad ht => ht.remembers hp rfl hx) ?_ ?_ ?_
    · rintro _ (_ | _)
      · exact ⟨Setup.storesAlong_nil.append (by simp), fun t _ => Setup.storesAlong_nil.append (by simp)⟩
      · refine ⟨Setup.storesAlong_nil.append (by simp), fun t _ => ?_⟩
        exact Setup.storesAlong_nil.append (by simp)
    · exact fun t vs hvs => hvs.push _ _ nofun
    · exact fun vs hvs => hvs
  obtain ⟨loc, u, m, hroute⟩ := (p.solve_travels par hhooks s₀).exists_route
  have haccepted : ∀ before s after, (p.solve par hooks s₀).visits = before ++ (.afterQuasi, s) :: after →
      (iteratesAt .afterGradient before).length = (iteratesAt .afterQuasi before).length + 1 := by
    intro before s after hvisits
    have hlocations : Event.locations (p.solve par hooks s₀).events.toList =
        before.map Prod.fst ++ .afterQuasi :: after.map Prod.fst := by
      change (p.solve par hooks s₀).visits.map Prod.fst = _
      rw [hvisits, List.map_append, List.map_cons]
    rw [length_iteratesAt, length_iteratesAt]
    exact hroute.count_stored hlocations
  refine ⟨haccepted, fun before s after hvisits hreal => ?_⟩
  have hstored := halong before s ⟨after, by rw [hvisits, List.append_assoc, List.singleton_append]⟩
  have heq := hstored.accepted.eq_of_length (by simpa using haccepted before s after hvisits)
  rw [heq] at hreal ⊢
  exact hstored.stores hreal

/-- The least half square on the unit sphere of the line, inside a larger ball, from a point between those of the sphere. -/
theorem Problem.solve_stores_secants_leastOnSphere :
    let p : Problem (Exact ⟨1, Set.mem_Ioi.mpr one_pos⟩) := .leastOnSphere
    let par : Parameters (Exact ⟨1, Set.mem_Ioi.mpr one_pos⟩) :=
      { Parameters.default with hessian := .bfgs, storedHistory := 5 }
    let s : State (Exact ⟨1, Set.mem_Ioi.mpr one_pos⟩) := State.new (vec (WithLp.toLp 2 fun _ => 1 / 2 : Euclidean 1))
    let r := p.solve par .passive s
    (Hooks.passive : Hooks (Exact ⟨1, Set.mem_Ioi.mpr one_pos⟩)).Observing ∧ p.objective.Sized ∧
      (∀ c, p.equality = some c → ∀ x : Euclidean 1, (c.jacobian (vec x)).Pulls 1 c.rows) ∧
      par.validate p.problemClass = .ok () ∧ RealIterates 1 (iteratesAt .afterGradient r.visits) ∧
      r.StoresSecants p 1 5 s.x := by
  intro p par s r
  have hhooks : (Hooks.passive : Hooks (Exact ⟨1, Set.mem_Ioi.mpr one_pos⟩)).Observing := fun _ _ => rfl
  have hsized : p.objective.Sized := Problem.leastHalfSquare_sized
  have hpulls : ∀ c, p.equality = some c → ∀ x : Euclidean 1, (c.jacobian (vec x)).Pulls 1 c.rows := by
    rintro c ⟨⟩ x
    exact (Constraint.ball_differentiates 1 x).linearises.acts.pulls
  have hreals : (⟨par, p, .passive, 1⟩ : Setup (Exact ⟨1, Set.mem_Ioi.mpr one_pos⟩)).OverReals (ballSlack 2)
      (fun x => (fderiv ℝ (ballSlack 2) x : Euclidean 1 →ₗ[ℝ] Euclidean 1)) := {
    hessian := fun s x hs =>
      Setup.hessian_propagates (fun _ dx _ z hz hfin => by cases hz; exact hfin) (hs ▸ length_vec)
    equality := hpulls
    inequality := by
      rintro c ⟨⟩
      rw [two_eq]
      exact ⟨fun x => (Constraint.ball_differentiates 2 x).value, fun x => (Constraint.ball_differentiates 2 x).linearises⟩ }
  exact ⟨hhooks, hsized, hpulls, Parameters.default_valid, Problem.solve_realIterates hhooks rfl hsized hreals rfl,
    Problem.solve_stores_secants hhooks hsized hpulls rfl⟩

end ConstrainedOpt
