import ConstrainedOpt.Proofs.History.Requests
import ConstrainedOpt.Proofs.Parameters
import ConstrainedOpt.Proofs.Route.Steps

/-! # Routes of whole runs

An observed run travels by its legs from the first hook point to the last one, or to where it ends.
-/
namespace ConstrainedOpt
variable {F : Type} [Scalar F] {k : Setup F} {W : Watch F} {s₀ s u : State F} {p : List (Event F)} {loc : Location}
  {n : Nat}

namespace Running

/-! ### One iteration -/

theorem iterMax_le_of_criterion (hs : s.stop = .notConverged) (h : k.criterion s = .maxItersExceeded) :
    k.par.iterMax ≤ s.iter := by
  unfold Setup.criterion at h
  rw [if_neg (by simp [hs])] at h
  split at h
  · cases h
  · split at h
    · cases h
    · split at h
      · assumption
      · cases h

theorem Regraded.counts {t : State F} (h : Regraded k s t) :
    t.counters = s.counters ∧ (t.stop = s.stop ∨ t.stop = .globalizationFailure) := by
  cases h with
  | sound => exact ⟨rfl, .inl rfl⟩
  | failed ht => exact ⟨ht.counters, .inr rfl⟩

theorem Lowered.counts {t : State F} (h : Lowered k s t) :
    t.counters = s.counters ∧ (t.stop = s.stop ∨ t.stop = .globalizationFailure) := by
  rcases h with rfl | ⟨-, h⟩
  · exact ⟨rfl, .inl rfl⟩
  · exact h.counts

/-- The criteria count nothing. They let a step begin below the bound on the iterations, and name that bound only at
it. -/
theorem Assessed.counts {t : State F} (h : Assessed k s t) (hs : s.stop = .notConverged) :
    t.counters = s.counters ∧ (t.stop = .notConverged → t.iter < k.par.iterMax) ∧
      (t.stop = .maxItersExceeded → k.par.iterMax ≤ t.iter) := by
  cases h with
  | @stop t ht hc =>
    have hbound : k.criterion t = .maxItersExceeded → k.par.iterMax ≤ t.iter := by
      intro hmax
      rcases ht.counts.2 with hstop | hstop
      · exact iterMax_le_of_criterion (hstop.trans hs) hmax
      · rw [Setup.criterion_of_stopped (by simp [hstop])] at hmax
        simp [hstop] at hmax
    exact ⟨ht.counts.1, fun hstop => absurd hstop hc, hbound⟩
  | unsound ht => exact ⟨ht.counts.1, nofun, nofun⟩
  | @go t ht hc =>
    have hroom : t.iter < k.par.iterMax := Setup.iter_lt_of_criterion hc
    exact ⟨ht.counts.1, fun _ => hroom, nofun⟩

theorem assess_counts (hs : s.stop = .notConverged) :
    wp W (assess k)
      (fun _ t => t.counters = s.counters ∧ (t.stop = .notConverged → t.iter < k.par.iterMax) ∧
        (t.stop = .maxItersExceeded → k.par.iterMax ≤ t.iter))
      (fun _ t => t.counters = s.counters) s := by
  refine wp_mono assess_spec (fun _ t h => h.counts hs) ?_
  rintro _ t (h | ⟨v, stop, h, rfl⟩)
  · exact h.counters
  · exact h.counts.1

theorem saveOld_counts :
    wp W (saveOld k) (fun _ t => t.counters = s.counters ∧ t.stop = s.stop) (Interrupted s) s := by
  unfold saveOld
  refine wp_bind (wp_update ?_)
  split
  · exact wp_bind (wp_getState (wp_bind (wp_interrupted fun _ _ => wp_update ⟨rfl, rfl⟩)))
  · exact wp_pure ⟨rfl, rfl⟩

theorem updateHistory_counts :
    wp W (updateHistory k) (fun _ t => t.counters = s.counters ∧ t.stop = s.stop)
      (Interrupted s) s := by
  unfold updateHistory
  refine wp_bind (wp_getState (wp_bind (wp_interrupted fun v _ => ?_)))
  exact wp_bind (wp_interrupted fun w _ => wp_update ⟨rfl, rfl⟩)

theorem body_arrives (hk : k.hooks.Observing) (hmax : 0 < k.par.lineSearchIterMax) (hs : s.stop = .notConverged)
    (hp : Route k s₀ p .beginningOfOptimizationLoop u 0) (hu : s.counters = u.counters) (hroom : s.iter < k.par.iterMax) :
    leads (body k) (fun _ => StepArrives k s₀) (Stranded k s₀) s p := by
  have hiter : s.iter = u.iter := congrArg Counters.iter hu
  unfold body
  refine leads_bind (leads_hook hk hp (.begun (hiter ▸ hroom) hu) fun q hq => ?_)
  refine leads_bind (leads_none hq saveOld_counts ?_ fun e t q he hq => .of_interrupted he rfl hq ⟨nofun, nofun⟩)
  rintro _ t q ⟨hcounters, hstop⟩ hq
  refine leads_bind (leads_hook hk hq (.plain rfl hcounters) fun q hq => leads_bind (leads_update ?_))
  exact leads_takeStep hk hmax (hstop.trans hs) hq (.restarted rfl)

theorem tail_arrives (hk : k.hooks.Observing) (hs : s.stop = .notConverged) (hp : Route k s₀ p .afterGradient s 0) :
    leads (tail k) (fun _ t q => t.stop = .notConverged ∧ Route k s₀ q .endOfOptimizationIteration t 0)
      (Stranded k s₀) s p := by
  unfold tail
  refine leads_bind (leads_hook hk hp (.plain rfl rfl) fun q hq => ?_)
  refine leads_bind (leads_none hq updateHistory_counts ?_ fun e t q he hq =>
    .of_interrupted he rfl hq ⟨nofun, nofun⟩)
  rintro _ t q ⟨hcounters, hstop⟩ hq
  refine leads_bind (leads_hook hk hq (.plain rfl hcounters) fun q hq => ?_)
  refine leads_bind (leads_none hq (countIteration_wp (Q := fun _ v => v = t.counted) (E := fun _ _ => False) rfl) ?_
    fun _ _ _ h => h.elim)
  rintro _ _ q rfl hq
  exact leads_hook hk hq (.counted rfl) fun q hq => ⟨hstop.trans hs, hq⟩

/-- Where an iteration ends: at its last hook point, or with the run. -/
def IterationArrives (k : Setup F) (s₀ : State F) (more : Bool) (t : State F) (p : List (Event F)) : Prop :=
  if more then t.stop = .notConverged ∧ Route k s₀ p .endOfOptimizationIteration t 0 else Stopped k s₀ t p

theorem iteration_arrives (hk : k.hooks.Observing) (hmax : 0 < k.par.lineSearchIterMax) (hs : s.stop = .notConverged)
    (hp : Route k s₀ p loc u n) (leg : Leg k loc u n .beginningOfOptimizationLoop s) :
    leads (iteration k) (IterationArrives k s₀) (Stranded k s₀) s p := by
  unfold iteration
  refine leads_bind (leads_hook hk hp leg fun q hq => ?_)
  refine leads_bind (leads_none hq (assess_counts hs) ?_ fun e t q ht hq =>
    .ended hq (ht ▸ .counted .head))
  rintro _ t q ⟨hcounters, hgo, hbound⟩ hq
  refine leads_bind (leads_stopped ?_)
  by_cases hrunning : t.stop = .notConverged
  · rw [if_neg (by simp [hrunning])]
    refine leads_bind (leads_mono (body_arrives hk hmax hrunning hq hcounters (hgo hrunning)) ?_ fun _ _ _ h => h)
    intro _ v q hv
    refine leads_bind (leads_stopped ?_)
    cases hv with
    | landed hrunning hq =>
      rw [if_neg (by simp [hrunning])]
      refine leads_bind (leads_mono (tail_arrives hk hrunning hq) ?_ fun _ _ _ h => h)
      exact fun _ _ _ h => leads_pure h
    | stopped h =>
      rw [if_pos (by simp [h.stop])]
      exact leads_pure h
  · rw [if_pos (by simpa using hrunning)]
    exact leads_pure ⟨hrunning, hbound, _, _, _, hq, hcounters ▸ .counted .head⟩

theorem iterations_arrive (hk : k.hooks.Observing) (hmax : 0 < k.par.lineSearchIterMax) (fuel : Nat)
    (hs : s.stop = .notConverged) (hp : Route k s₀ p loc u n) (leg : Leg k loc u n .beginningOfOptimizationLoop s) :
    leads (iterations k fuel) (fun _ => Stopped k s₀) (Stranded k s₀) s p := by
  induction fuel generalizing s p loc u n with
  | zero => exact leads_throw (.exhausted rfl)
  | succ fuel ih =>
    refine leads_bind (leads_mono (iteration_arrives hk hmax hs hp leg) ?_ fun _ _ _ h => h)
    rintro (_ | _) t q ht
    · exact leads_pure ht
    · exact ih ht.1 ht.2 (.plain rfl rfl)

/-! ### Whole runs -/

/-- A run that has come to its last hook point. -/
structure Arrived (k : Setup F) (s₀ : State F) (stop : Stop) (t : State F) (p : List (Event F)) : Prop where
  answer : stop = t.stop
  stopped : t.stop ≠ .notConverged
  max : t.stop = .maxItersExceeded → k.par.iterMax ≤ t.iter
  route : Route k s₀ p .endOfOptimization t 0

theorem finish_arrives (hk : k.hooks.Observing) (h : Stopped k s₀ s p) :
    leads (finish k) (Arrived k s₀) (Stranded k s₀) s p := by
  obtain ⟨loc, u, n, hp, hending⟩ := h.route
  have hend : ∀ q, Route k s₀ q loc u n → leads (do
      visit k .endOfOptimization
      return (← getState).stop) (Arrived k s₀) (Stranded k s₀) s q := fun q hq =>
    leads_bind (leads_hook hk hq (.ended hending) fun q hq => leads_bind (leads_getState (leads_pure
      ⟨rfl, h.stop, h.max, hq⟩)))
  have hline : ∀ q, Route k s₀ q loc u n → leads (do
      if 1 ≤ k.par.msgLevel then
        event (.note (.line ["Optimization stopped: ", .text (Registry.text s.stop)]))
      visit k .endOfOptimization
      return (← getState).stop) (Arrived k s₀) (Stranded k s₀) s q := by
    intro q hq
    split
    · exact leads_bind (leads_note hq fun q hq => hend q hq)
    · exact hend q hq
  unfold finish
  refine leads_bind (leads_getState ?_)
  dsimp only
  split <;> exact leads_bind (leads_note hp hline)

theorem loop_arrives (hk : k.hooks.Observing) (hmax : 0 < k.par.lineSearchIterMax) (hs : s.stop = .notConverged)
    (hp : Route k s₀ p .afterInitialFuncAndGrad s 0) : leads (loop k) (Arrived k s₀) (Stranded k s₀) s p := by
  unfold loop
  refine leads_bind (leads_none hp (printHeader_wp (Q := fun _ v => v = s) (E := fun _ _ => False) rfl) ?_
    fun _ _ _ h => h.elim)
  rintro _ s q rfl hq
  refine leads_bind (leads_none hq (printRow_wp (Q := fun _ v => v = s) (E := fun _ _ => False) rfl) ?_
    fun _ _ _ h => h.elim)
  rintro _ s q rfl hq
  refine leads_bind (leads_hook hk hq (.plain rfl rfl) fun q hq => leads_bind (leads_note hq fun q hq => ?_))
  refine leads_bind (leads_mono (iterations_arrive hk hmax _ hs hq (.plain rfl rfl)) ?_ fun _ _ _ h => h)
  exact fun _ _ _ h => finish_arrives hk h

theorem initialDiagnostics_counts (hs : s.counters = .zero) :
    wp W (initialDiagnostics k)
      (fun _ t => t.counters = .zero ∧ (t.stop = s.stop ∨ t.stop = .globalizationFailure ∨ t.stop = .userDefined))
      (fun _ t => t.counters = .zero) s := by
  unfold initialDiagnostics
  split
  · exact wp_pure ⟨hs, .inl rfl⟩
  · refine wp_bind (wp_mono diagnose_spec ?_ fun _ t ht => ht ▸ hs)
    intro _ t ht
    have ht : t.counters = .zero ∧ (t.stop = s.stop ∨ t.stop = .globalizationFailure ∨ t.stop = .userDefined) := by
      rcases ht with rfl | rfl
      · exact ⟨hs, .inl rfl⟩
      · exact ⟨hs, .inr (.inl rfl)⟩
    refine wp_bind (wp_stopped ?_)
    split
    · exact wp_pure ht
    · split
      · exact wp_setStop ⟨ht.1, .inr (.inr rfl)⟩
      · exact wp_pure ht

/-- Where the opening of a run ends: with the values of the first iterate, or with the run. -/
def OpeningArrives (k : Setup F) (s₀ : State F) (go : Bool) (t : State F) (p : List (Event F)) : Prop :=
  if go then t.stop = .notConverged ∧ ∃ u, Route k s₀ p .beforeInitialFuncAndGrad u 0 ∧ t.counters = u.counters
  else Stopped k s₀ t p

theorem initialEvaluation_arrives (hk : k.hooks.Observing) (hs : s.stop = .notConverged) (hzero : s.counters = .zero)
    (hp : Route k s₀ p .beginningOfOptimization u 0) :
    leads (initialEvaluation k) (OpeningArrives k s₀) (Stranded k s₀) s p := by
  have hset : ∀ stop, (if 0 < k.inequalities then Stop.interiorPointInstability else .globalizationFailure) = stop →
      stop ≠ .notConverged ∧ stop ≠ .maxItersExceeded := by
    rintro _ rfl
    split <;> exact ⟨nofun, nofun⟩
  unfold initialEvaluation
  refine leads_bind (leads_hook hk hp (.opened hzero) fun q hq => leads_bind (leads_getState ?_))
  refine leads_bind (leads_none hq (wp_interrupted (Q := fun _ v => v = s)
    fun _ _ => rfl) ?_ fun e t q he hq => .of_interrupted he rfl hq ⟨nofun, nofun⟩)
  rintro t _ q rfl hq
  refine leads_bind (leads_update (leads_bind (leads_getState ?_)))
  split
  · exact leads_pure ⟨hs, _, hq, rfl⟩
  · refine leads_bind (leads_note hq fun q hq => leads_bind (leads_setStop (leads_pure ?_)))
    obtain ⟨hstop, hbound⟩ := hset _ rfl
    exact ⟨hstop, fun h => absurd h hbound, _, _, _, hq, .counted .initial⟩

theorem initialGradient_arrives (hs : s.stop = .notConverged) (hp : Route k s₀ p .beforeInitialFuncAndGrad u 0)
    (hu : s.counters = u.counters) : leads (initialGradient k) (OpeningArrives k s₀) (Stranded k s₀) s p := by
  unfold initialGradient
  refine leads_bind (leads_getState ?_)
  extract_lets updateY grade
  have hgo : ∀ v : State F, v.stop = .notConverged → v.counters = u.counters →
      leads (grade ()) (OpeningArrives k s₀) (Stranded k s₀) v p := by
    intro v hv hcounters
    refine leads_bind (leads_none hp (updateGradient_spec updateY) ?_ ?_)
    · intro o w q hw hq
      split
      · have hending : Ending k .beforeInitialFuncAndGrad u 0 w.counters := by
          rw [hw.counters, hcounters]
          exact .counted .initial
        refine leads_bind (leads_stepFailure hq (fun q hq => leads_pure ⟨?_, ?_, _, _, _, hq, hending⟩) ?_)
        · simp
        · simp
        · exact fun _ q hq => .ended hq hending
      · obtain ⟨y, grad, -, rfl⟩ := hw
        exact leads_bind (leads_update (leads_pure ⟨hv, _, hq, hcounters⟩))
    · rintro _ w q rfl hq
      exact .ended hq (hcounters ▸ .counted .initial)
  split
  · exact leads_bind (leads_update (hgo _ hs hu))
  · exact hgo s hs hu

/-- A run that is refused: its parameters or its sizes do not fit, and its state is left as it was. -/
structure Refused (k : Setup F) (s₀ t : State F) (p : List (Event F)) : Prop where
  state : t = s₀
  unfit : ¬ (k.parameterError? = none ∧ k.sizesFit s₀.y = true)
  route : Route k s₀ p .beginningOfOptimization s₀ 0

theorem check_arrives (hp : Route k s₀ p .beginningOfOptimization s₀ 0) :
    leads (check k) (fun _ t q => t = s₀ ∧ k.parameterError? = none ∧ Route k s₀ q .beginningOfOptimization s₀ 0)
      (fun e t q => (∃ f, e = .failure f) ∧ Refused k s₀ t q) s₀ p := by
  unfold check
  cases hvalid : k.parameterError? with
  | some e =>
    refine leads_bind (leads_note hp fun q hq => leads_bind (leads_fail hq fun q hq => ⟨⟨_, rfl⟩, rfl, ?_, hq⟩))
    simp [hvalid]
  | none =>
    refine leads_bind (leads_getState ?_)
    split
    case isTrue h =>
      refine leads_bind (leads_note hp fun q hq => leads_fail hq fun q hq => ⟨⟨_, rfl⟩, rfl, fun hfits => ?_, hq⟩)
      simp [hfits.2] at h
    case isFalse => exact leads_pure ⟨rfl, rfl, hp⟩

theorem opening_arrives (hk : k.hooks.Observing) :
    leads (opening k) (fun go t q => k.parameterError? = none ∧ OpeningArrives k s₀ go t q)
      (fun e t q => Stranded k s₀ e t q ∨ (∃ f, e = .failure f) ∧ Refused k s₀ t q) s₀ [] := by
  unfold opening
  refine leads_bind (leads_event (leads_bind (leads_visit ?_)))
  rw [hk]
  have hstart : Route k s₀ _ .beginningOfOptimization s₀ 0 :=
    .start [.record .info ["----- Initializing"], .record .trace [.text (Registry.text Location.beginningOfOptimization)]]
  refine leads_bind (leads_mono (check_arrives hstart) ?_ fun _ _ _ h => .inr h)
  rintro _ s₀ q ⟨rfl, hvalid, hq⟩
  refine leads_bind (leads_update ?_)
  have hprepared : (k.prepare s₀).stop = .notConverged := rfl
  have hzero : (k.prepare s₀).counters = .zero := rfl
  generalize k.prepare s₀ = s at hprepared hzero
  refine leads_bind (leads_none hq (initialDiagnostics_counts hzero) ?_ fun e t q ht hq =>
    .inl (.ended hq (ht ▸ .diagnosed)))
  rintro _ t q ⟨hcounters, hstop⟩ hq
  refine leads_bind (leads_stopped ?_)
  rcases hstop with hstop | hstop
  · rw [if_neg (by simp [hstop, hprepared])]
    refine leads_bind (leads_mono (initialEvaluation_arrives hk (hstop.trans hprepared) hcounters hq) ?_
      fun _ _ _ h => .inl h)
    rintro (_ | _) v q hv
    · exact leads_pure ⟨hvalid, hv⟩
    · obtain ⟨hrunning, u, hq, hu⟩ := hv
      exact leads_mono (initialGradient_arrives hrunning hq hu) (fun _ _ _ h => ⟨hvalid, h⟩) fun _ _ _ h => .inl h
  · have hboth : t.stop ≠ .notConverged ∧ t.stop ≠ .maxItersExceeded := by
      rcases hstop with h | h <;> simp [h]
    rw [if_pos (by simpa using hboth.1)]
    exact leads_pure ⟨hvalid, hboth.1, fun h => absurd h hboth.2, _, _, _, hq, hcounters ▸ .diagnosed⟩

theorem whole_arrives (hk : k.hooks.Observing) :
    leads (whole k) (Arrived k s₀) (fun e t q => Stranded k s₀ e t q ∨ (∃ f, e = .failure f) ∧ Refused k s₀ t q) s₀ [] := by
  unfold whole optimize
  refine leads_bind (leads_mono (opening_arrives hk) ?_ fun _ _ _ h => h)
  rintro (_ | _) t q ⟨hvalid, ht⟩
  · exact leads_mono (finish_arrives hk ht) (fun _ _ _ h => h) fun _ _ _ h => .inl h
  · obtain ⟨hrunning, u, hq, hcounters⟩ := ht
    refine leads_bind (leads_hook hk hq (.plain rfl hcounters) fun q hq => ?_)
    have hmax : 0 < k.par.lineSearchIterMax := of_decide_eq_true (Setup.range_of_valid hvalid
      (decide (0 < k.par.lineSearchIterMax), "linesearch_iter_max") (by simp [Parameters.ranges]))
    exact leads_mono (loop_arrives hk hmax hrunning hq) (fun _ _ _ h => h) fun _ _ _ h => .inl h

end Running

/-- How a run from `s₀` travels: it answers at its last hook point, halts where a run may end, is refused, or panics on
its way. -/
inductive Solution.Travels (k : Setup F) (s₀ : State F) (r : Solution F) : Prop
  | answered {stop : Stop} (hresult : r.result = .ok stop) (h : Running.Arrived k s₀ stop r.state r.events.toList)
  | halted {e : Halt} {loc : Location} {u : State F} {n : Nat} (hresult : r.result = .error e) (he : e ≠ .outOfFuel)
      (route : Route k s₀ r.events.toList loc u n) (ending : Ending k loc u n r.state.counters)
  | refused {f : Failure} (hresult : r.result = .error (.failure f)) (h : Running.Refused k s₀ r.state r.events.toList)
  | panicked {q : Panic} {loc : Location} {u : State F} {n : Nat} (hresult : r.result = .error (.panic q))
      (route : Route k s₀ r.events.toList loc u n) (hloc : loc.Inner) (hiter : r.state.iter = u.iter)

theorem Problem.solve_travels (p : Problem F) (par : Parameters F) {hooks : Hooks F} (hk : hooks.Observing)
    (s₀ : State F) : (p.solve par hooks s₀).Travels ⟨par, p, hooks, s₀.x.length⟩ s₀ := by
  let k : Setup F := ⟨par, p, hooks, s₀.x.length⟩
  have harrives : Running.leads (Running.whole k) (Running.Arrived k s₀)
      (fun e t q => Stranded k s₀ e t q ∨ (∃ f, e = .failure f) ∧ Running.Refused k s₀ t q) s₀ [] := Running.whole_arrives hk
  obtain ⟨hok, herror⟩ := solve_leads harrives
  rcases hr : (p.solve par hooks s₀).result with e | stop
  · have hfuel : e ≠ .outOfFuel := by
      rintro rfl
      exact p.solve_ends hk.stopOnly par s₀ hr
    rcases herror e hr with h | h
    · cases h with
      | ended route ending => exact .halted hr hfuel route ending
      | panicked route hloc he hiter => exact .panicked (hr.trans (congrArg Except.error he)) route hloc hiter
      | exhausted he => exact absurd he hfuel
    · obtain ⟨⟨f, rfl⟩, h⟩ := h
      exact .refused hr h
  · exact .answered hr (hok stop hr)

end ConstrainedOpt
