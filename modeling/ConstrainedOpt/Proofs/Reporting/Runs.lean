import ConstrainedOpt.Proofs.History.Requests
import ConstrainedOpt.Proofs.Reporting.Pieces
import ConstrainedOpt.Proofs.Reuse.Oblivious
import ConstrainedOpt.Proofs.Run.Opening
import ConstrainedOpt.Scalar.Binary64

/-! # Reporting does not steer

Two runs that differ in what they print, in which checks they run and in whether they run them at all go through the
same hook points and trial points to the same end, as long as no check that runs finds a non-finite error.
-/
namespace ConstrainedOpt
variable {F : Type} [Scalar F]
open Running

/-- All checks at `x` that are selected end in finite errors. -/
def Setup.Passes (k : Setup F) (x : Vec F) : Prop :=
  (Diagnostics.run k.problem x k.par.functionChecks k.par.spaceChecks).answer = .ok true

/-- The iteration that starts from a state runs its checks at a point: they are scheduled, it is not the first
iteration, and neither the update of the barrier parameter nor the stopping criterion ends the run before them. -/
inductive Setup.ChecksIn (k : Setup F) (u : State F) : Vec F → Prop
  | due {v : State F} (hschedule : k.par.checkSchedule = .everyIteration)
      (hupdate : ((updateMu k).run ⟨u, #[]⟩).1 = .ok () ∧ ((updateMu k).run ⟨u, #[]⟩).2.state = v) (hiter : 0 < v.iter)
      (hcriterion : k.criterion v = .notConverged) : ChecksIn k u v.x

/-- Every check that the iteration from `u` runs passes. -/
def Setup.Sound (k : Setup F) (u : State F) : Prop := ∀ x, k.ChecksIn u x → k.Passes x

/-- The checks before the first evaluation pass, should a run from `s` come to them. -/
def Setup.SoundAtStart (k : Setup F) (s : State F) : Prop :=
  k.parameterError? = none → k.sizesFit s.y = true → k.par.checkSchedule ≠ .never → k.Passes s.x

variable {k : Setup F} {r : Reporting} {s t : State F}

namespace Running

/-! ### Iterations -/

theorem reports_diagnose (h : k.Passes s.x) : Reports (diagnose k) s :=
  reports_getState (reports_lift h (reports_pure s))

/-- What is left of an assessment once the barrier parameter is updated: a stop, or checks that pass. -/
theorem assess_matches (hst : s.Alike t) (hs : k.Sound s) (ht : (k.reporting r).Sound t) :
    Matches (assess k) (assess (k.reporting r)) s t := by
  have hreports : ∀ {k : Setup F} {s u : State F}, k.Sound s → Reaches (updateMu k) s () u →
      k.criterion u = .notConverged → Reports (do
        if 0 < (← getState).iter ∧ k.par.checkSchedule = .everyIteration then diagnose k)
          { u with stop := k.criterion u } := by
    intro k s u hs hu hcriterion
    refine reports_getState (reports_ite (fun hdue => reports_diagnose ?_) fun _ => reports_pure _)
    exact hs u.x (.due hdue.2 (hu.run (oblivious_updateMu k)) hdue.1 hcriterion)
  unfold assess
  refine (mirrors_updateMu s t hst).bind fun _ u v hu hv huv => matches_getState ?_
  have hsame : (k.reporting r).criterion v = k.criterion u := by
    obtain ⟨c⟩ := huv
    rfl
  have hset : Matches (setStop (k.criterion u)) (setStop ((k.reporting r).criterion v)) u v := by
    rw [hsame]
    exact mirrors_setStop _ u v huv
  refine hset.bind fun _ w z hw hz hwz => matches_stopped ?_
  obtain rfl := hw.update_eq
  obtain rfl := hz.update_eq
  dsimp only
  rw [hsame]
  by_cases hgo : k.criterion u = .notConverged
  · rw [if_neg (by simp [hgo]), if_neg (by simp [hgo])]
    have hz := hreports ht hv (hsame.trans hgo)
    rw [hsame] at hz hwz
    exact (hreports hs hu hgo).matches hz hwz
  · rw [if_pos (by simp [hgo]), if_pos (by simp [hgo])]
    rw [hsame] at hwz
    exact mirrors_pure () _ _ hwz

theorem iteration_matches (hk : k.hooks.Observing) (hst : s.Alike t) (hs : k.Sound s) (ht : (k.reporting r).Sound t) :
    Matches (iteration k) (iteration (k.reporting r)) s t := by
  unfold iteration
  refine (mirrors_visit hk _ s t hst).bind fun _ u v hu hv _ => ?_
  obtain rfl : u = s := hu.visit_eq.trans (hk _ _)
  obtain rfl : v = t := hv.visit_eq.trans (hk _ _)
  refine (assess_matches hst hs ht).bind fun _ u v _ _ huv => ?_
  refine Mirrors.bind mirrors_stopped (fun _ => mirrors_ite (fun _ => mirrors_pure _) fun _ => ?_) u v huv
  refine (mirrors_body hk).bind fun _ => mirrors_stopped.bind fun _ => mirrors_ite (fun _ => mirrors_pure _) fun _ => ?_
  exact (mirrors_tail hk).bind fun _ => mirrors_pure _

theorem mem_heads_iteration (k : Setup F) (s : State F) : s ∈ Heads (iteration k) s := by
  refine heads_bind (c := visit k .beginningOfOptimizationLoop) (fun _ => oblivious_iterationRest k) s ?_
  exact List.mem_singleton_self _

/-- Iterations match when all of their checks pass. -/
theorem iterations_matches (hk : k.hooks.Observing) (fuel : Nat) (hst : s.Alike t)
    (hs : ∀ u ∈ Heads (iterations k fuel) s, k.Sound u)
    (ht : ∀ u ∈ Heads (iterations (k.reporting r) fuel) t, (k.reporting r).Sound u) :
    Matches (iterations k fuel) (iterations (k.reporting r) fuel) s t := by
  induction fuel generalizing s t with
  | zero => exact mirrors_throw _ s t hst
  | succ fuel ih =>
    have hrest : ∀ (k : Setup F) go, Oblivious (if go = true then iterations k fuel else pure ()) := by
      intro k go
      split
      · exact oblivious_iterations k fuel
      · exact oblivious_pure _
    have hfirst : ∀ (k : Setup F) (s : State F), s ∈ Heads (iterations k (fuel + 1)) s :=
      fun k s => heads_bind (hrest k) s (mem_heads_iteration k s)
    refine (iteration_matches hk hst (hs s (hfirst k s)) (ht t (hfirst _ t))).bind fun go u v hu hv huv => ?_
    cases go with
    | false => exact mirrors_pure _ u v huv
    | true =>
      refine ih huv (fun w hw => hs w ?_) fun w hw => ht w ?_
      · exact hu.heads (oblivious_iteration k) (hrest k) hw
      · exact hv.heads (oblivious_iteration _) (hrest _) hw

/-! ### Runs -/

/-- What a run does between its first gradient and its first iteration. -/
def enter (k : Setup F) : Running F Unit := do
  visit k .afterInitialFuncAndGrad
  Table.printHeader k
  Table.printRow k
  visit k .beforeOptimizationLoop
  log .info ["----- Started"]

theorem optimize_eq (k : Setup F) :
    optimize k = (enter k >>= fun _ => iterations k (k.par.iterMax + patience) >>= fun _ => finish k) := by
  unfold optimize loop enter
  simp only [bind_assoc]

theorem oblivious_enter (k : Setup F) : Oblivious (enter k) :=
  (oblivious_visit _ _).bind fun _ => (oblivious_printHeader k).bind fun _ => (oblivious_printRow k).bind fun _ =>
    (oblivious_visit _ _).bind fun _ => oblivious_log _ _

theorem mirrors_enter (hk : k.hooks.Observing) : Mirrors (enter k) (enter (k.reporting r)) := by
  unfold enter
  refine (mirrors_visit hk _).bind fun _ => Mirrors.bind ?_ fun _ => Mirrors.bind ?_ fun _ =>
    (mirrors_visit hk _).bind fun _ => mirrors_log _ _ _ _
  · exact fun s t hst => (reports_printHeader k s).matches (reports_printHeader _ t) hst
  · exact fun s t hst => (reports_printRow k s).matches (reports_printRow _ t) hst

theorem optimize_matches (hk : k.hooks.Observing) (hst : s.Alike t) (hs : ∀ u ∈ Heads (optimize k) s, k.Sound u)
    (ht : ∀ u ∈ Heads (optimize (k.reporting r)) t, (k.reporting r).Sound u) :
    Matches (optimize k) (optimize (k.reporting r)) s t := by
  have hrest : ∀ k : Setup F, ∀ _ : Unit, Oblivious (iterations k (k.par.iterMax + patience) >>= fun _ => finish k) :=
    fun k _ => (oblivious_iterations k _).bind fun _ => oblivious_finish k
  have hheads : ∀ {k : Setup F} {s u : State F}, Reaches (enter k) s () u →
      Heads (iterations k (k.par.iterMax + patience)) u ⊆ Heads (optimize k) s := by
    intro k s u hu
    rw [optimize_eq]
    exact fun w hw => hu.heads (oblivious_enter k) (hrest k) (heads_bind (fun _ => oblivious_finish k) u hw)
  rw [optimize_eq, optimize_eq]
  refine (mirrors_enter hk s t hst).bind fun _ u v hu hv huv => ?_
  refine (iterations_matches hk _ huv (fun w hw => ?_) fun w hw => ?_).bind fun _ u v _ _ huv => mirrors_finish hk u v huv
  · exact hs w (hheads hu hw)
  · exact ht w (hheads hv hw)

theorem reports_initialDiagnostics (hschedule : k.par.checkSchedule ≠ .diagnosticsOnly)
    (h : k.par.checkSchedule ≠ .never → k.Passes s.x) : Reports (initialDiagnostics k) s := by
  unfold initialDiagnostics
  refine reports_ite (fun _ => reports_pure s) fun hdue => (reports_diagnose (h hdue)).bind ?_
  exact reports_stopped fun _ => reports_ite (fun _ => reports_pure s) fun _ =>
    reports_ite (fun honly => absurd honly hschedule) fun _ => reports_pure s

/-- What a run does before its first diagnostics. -/
def arrive (k : Setup F) : Running F Unit := do
  log .info ["----- Initializing"]
  visit k .beginningOfOptimization
  check k
  update k.prepare

theorem opening_eq (k : Setup F) : opening k = (arrive k >>= fun _ => initialDiagnostics k >>= fun _ => do
    if ← stopped then return false
    if !(← initialEvaluation k) then return false
    initialGradient k) := by
  unfold opening arrive
  simp only [bind_assoc]

theorem mirrors_arrive (hk : k.hooks.Observing) : Mirrors (arrive k) (arrive (k.reporting r)) :=
  (mirrors_log _ _ _ _).bind fun _ => (mirrors_visit hk _).bind fun _ => mirrors_check.bind fun _ =>
    mirrors_update fun _ _ => .over r.checkSchedule

theorem arrive_spec (hk : k.hooks.Observing) :
    wp .any (arrive k) (fun _ u => u.x = s.x ∧ k.parameterError? = none ∧ k.sizesFit s.y = true) (fun _ _ => True) s := by
  unfold arrive
  refine wp_bind (wp_log (wp_bind (wp_visit trivial ?_)))
  rw [hk]
  refine wp_bind (wp_mono check_spec ?_ fun _ _ _ => trivial)
  rintro _ _ ⟨rfl, hvalid, hfits⟩
  exact wp_update ⟨rfl, hvalid, hfits⟩

/-- Openings match when the checks at the start pass. -/
theorem opening_matches (hk : k.hooks.Observing) (hschedule : k.par.checkSchedule ≠ .diagnosticsOnly)
    (hschedule' : r.checkSchedule ≠ .diagnosticsOnly) (hs : k.SoundAtStart s) (hs' : (k.reporting r).SoundAtStart s) :
    Matches (opening k) (opening (k.reporting r)) s s := by
  rw [opening_eq, opening_eq]
  refine (mirrors_arrive hk s s (.refl s)).bind fun _ u v hu hv huv => ?_
  obtain ⟨hux, hvalid, hfits⟩ := hu.of_wp (arrive_spec hk)
  obtain ⟨hvx, -, -⟩ := hv.of_wp (arrive_spec (k := k.reporting r) hk)
  have hreports : Reports (initialDiagnostics k) u := by
    refine reports_initialDiagnostics hschedule fun hdue => ?_
    rw [hux]
    exact hs hvalid hfits hdue
  have hreports' : Reports (initialDiagnostics (k.reporting r)) v := by
    refine reports_initialDiagnostics hschedule' fun hdue => ?_
    rw [hvx]
    exact hs' hvalid hfits hdue
  refine (hreports.matches hreports' huv).bind fun _ u v _ _ huv => ?_
  refine Mirrors.bind mirrors_stopped (fun _ => mirrors_ite (fun _ => mirrors_pure _) fun _ => ?_) u v huv
  exact (mirrors_initialEvaluation hk).bind fun _ => mirrors_ite (fun _ => mirrors_pure _) fun _ => mirrors_initialGradient

theorem whole_matches (hk : k.hooks.Observing) (hschedule : k.par.checkSchedule ≠ .diagnosticsOnly)
    (hschedule' : r.checkSchedule ≠ .diagnosticsOnly) (hstart : k.SoundAtStart s)
    (hstart' : (k.reporting r).SoundAtStart s) (hs : ∀ u ∈ Heads (whole k) s, k.Sound u)
    (hs' : ∀ u ∈ Heads (whole (k.reporting r)) s, (k.reporting r).Sound u) :
    Matches (whole k) (whole (k.reporting r)) s s := by
  have hrest : ∀ (k : Setup F) go, Oblivious (if go = true then optimize k else finish k) := by
    intro k go
    split
    · exact oblivious_optimize k
    · exact oblivious_finish k
  refine (opening_matches hk hschedule hschedule' hstart hstart').bind fun go u v hu hv huv => ?_
  cases go with
  | false => exact mirrors_finish hk u v huv
  | true =>
    refine optimize_matches hk huv (fun w hw => hs w ?_) fun w hw => hs' w ?_
    · exact hu.heads (oblivious_opening k) (hrest k) hw
    · exact hv.heads (oblivious_opening _) (hrest _) hw

end Running

/-! ### Solutions -/

/-- Two solutions show the same: the same result, the same hook points and trial points with the same states in the
same order, and the same final state. The states may differ in the schedule of the diagnostics. -/
structure Solution.Alike (r r' : Solution F) : Prop where
  result : r'.result = r.result
  events : r'.events.toList.filterMap Event.shown = r.events.toList.filterMap Event.shown
  state : r.state.Alike r'.state

/-- All checks that a run comes to end in finite errors: those before its first evaluation and those of its
iterations. -/
structure Problem.ChecksPass (p : Problem F) (par : Parameters F) (hooks : Hooks F) (s : State F) : Prop where
  atStart : (⟨par, p, hooks, s.x.length⟩ : Setup F).SoundAtStart s
  later : ∀ u, (.beginningOfOptimizationLoop, u) ∈ (p.solve par hooks s).visits →
    (⟨par, p, hooks, s.x.length⟩ : Setup F).Sound u

/-- Reporting does not steer a run: parameters that differ in the printed table, in the selection of the checks and in
their schedule, never or at every iteration, lead to solutions that show the same, as long as the checks of both runs
pass. -/
theorem Problem.solve_unsteered (p : Problem F) {par par' : Parameters F} {hooks : Hooks F} (hk : hooks.Observing)
    (s : State F)
    (hpar : par' = { par with
      msgLevel := par'.msgLevel, functionChecks := par'.functionChecks, spaceChecks := par'.spaceChecks
      checkSchedule := par'.checkSchedule })
    (hschedule : par.checkSchedule = .never ∨ par.checkSchedule = .everyIteration)
    (hschedule' : par'.checkSchedule = .never ∨ par'.checkSchedule = .everyIteration)
    (hpass : p.ChecksPass par hooks s) (hpass' : p.ChecksPass par' hooks s) :
    (p.solve par hooks s).Alike (p.solve par' hooks s) := by
  let r : Reporting := ⟨par'.msgLevel, par'.functionChecks, par'.spaceChecks, par'.checkSchedule⟩
  have hpar : par' = par.reporting r := hpar
  have honly : par.checkSchedule ≠ .diagnosticsOnly := by rcases hschedule with h | h <;> simp [h]
  have honly' : r.checkSchedule ≠ .diagnosticsOnly := by
    change par'.checkSchedule ≠ _
    rcases hschedule' with h | h <;> simp [h]
  generalize r = r at hpar honly'
  subst hpar
  have hmatches := Running.whole_matches (k := ⟨par, p, hooks, s.x.length⟩) hk honly honly' hpass.atStart hpass'.atStart
    hpass.later hpass'.later
  obtain ⟨ds, ds', hds, hds', hshown, hanswer, hstate⟩ := hmatches #[] #[]
  refine ⟨hanswer, ?_, hstate⟩
  have hevents : (p.solve par hooks s).events.toList = ds := hds
  have hevents' : (p.solve (par.reporting r) hooks s).events.toList = ds' := hds'
  rw [hevents, hevents', hshown]

/-- Without inequality constraints the iteration checks where it starts. -/
theorem Setup.ChecksIn.eq_start {k : Setup F} {u : State F} {x : Vec F} (h : k.ChecksIn u x) (hfree : k.inequalities = 0) :
    x = u.x := by
  obtain ⟨-, ⟨-, hstate⟩, -, -⟩ := h
  rw [← hstate]
  unfold updateMu
  simp only [hfree, true_or, if_true]
  rfl

/-- Where there are no inequality constraints, the checks pass when they do at the start and at all heads of
iterations. -/
theorem Problem.checksPass_of_all {p : Problem F} {par : Parameters F} {hooks : Hooks F} {s : State F}
    (hfree : p.inequality = none)
    (h : ((s.x :: (p.solve par hooks s).visits.filterMap fun v =>
      if v.1 = .beginningOfOptimizationLoop then some v.2.x else none).all fun x =>
        (Diagnostics.run p x par.functionChecks par.spaceChecks).answer.toOption == some true) = true) :
    p.ChecksPass par hooks s := by
  have hfree : (⟨par, p, hooks, s.x.length⟩ : Setup F).inequalities = 0 := by
    change (p.inequality.map Constraint.rows).getD 0 = 0
    rw [hfree]
    rfl
  have hpasses : ∀ x, ((Diagnostics.run p x par.functionChecks par.spaceChecks).answer.toOption == some true) = true →
      (⟨par, p, hooks, s.x.length⟩ : Setup F).Passes x := by
    intro x hx
    unfold Setup.Passes
    dsimp only
    cases hr : (Diagnostics.run p x par.functionChecks par.spaceChecks).answer with
    | error e => simp [hr, Except.toOption] at hx
    | ok b => simpa [hr, Except.toOption] using hx
  rw [List.all_cons, Bool.and_eq_true, List.all_eq_true] at h
  refine ⟨fun _ _ _ => hpasses s.x h.1, fun u hu x hx => ?_⟩
  rw [hx.eq_start hfree]
  exact hpasses u.x (h.2 u.x (List.mem_filterMap.mpr ⟨_, hu, by simp⟩))

/-- A run that is never due for its checks comes to none. -/
theorem Problem.checksPass_of_never (p : Problem F) {par : Parameters F} (hooks : Hooks F) (s : State F)
    (hnever : par.checkSchedule = .never) : p.ChecksPass par hooks s where
  atStart _ _ hdue := absurd hnever hdue
  later := by
    rintro u - _ ⟨hschedule, -, -, -⟩
    cases hnever.symm.trans hschedule

/-- Parameters that print everything and check everything, everywhere. -/
def Parameters.checking : Parameters Float :=
  { Parameters.default with
    delta := 1, msgLevel := 2, functionChecks := .firstOrder, spaceChecks := .basic, checkSchedule := .everyIteration }

theorem Problem.solve_unsteered_leastSquare :
    let par : Parameters Float := { Parameters.default with delta := 1 }
    let r := Problem.leastSquare.solve par .passive (.new [1.5])
    let r' := Problem.leastSquare.solve .checking .passive (.new [1.5])
    (Hooks.passive (F := Float)).Observing ∧ r.Alike r' ∧
      (r.state.iter, r.result.toOption) = (2, some .gradientSmall) := by
  intro par r r'
  have hk : (Hooks.passive (F := Float)).Observing := fun _ _ => rfl
  have hpass : Problem.leastSquare.ChecksPass par .passive (.new [1.5]) := Problem.checksPass_of_never _ _ _ rfl
  have hpass' : Problem.leastSquare.ChecksPass .checking .passive (.new [1.5]) :=
    Problem.checksPass_of_all rfl (by decide +kernel)
  exact ⟨hk, Problem.leastSquare.solve_unsteered hk (.new [1.5]) rfl (.inl rfl) (.inr rfl) hpass hpass',
    by decide +kernel⟩

end ConstrainedOpt
