import ConstrainedOpt.Proofs.Assertion.History
import ConstrainedOpt.Proofs.Run.Opening
import ConstrainedOpt.Proofs.Run.Step

/-! # The loop of a run

An invariant of the outer iterations has three faces: `I` at their beginning, `J` once the stopping criteria
have let the iteration go on, and `K` after its step. A run that leaves the loop does so in `D`.
-/
namespace ConstrainedOpt
variable {F : Type} [Scalar F]
open Running

/-- The state a step driver starts from. -/
def State.beforeStep (s : State F) (gradOld : Vec F) : State F := { s.remember gradOld with rejected := 0 }

/-- What a step ends in: `K` when the iteration goes on, else `D`. -/
def StepEnds (K D : State F → Prop) (s : State F) : Prop := if s.stop = .notConverged then K s else D s

omit [Scalar F] in
theorem StepEnds.of_running {K : State F → Prop} {s : State F} (h : s.stop = .notConverged → K s) :
    StepEnds K (fun _ => True) s := by
  unfold StepEnds
  split
  · exact h ‹_›
  · trivial

omit [Scalar F] in
theorem StepEnds.mono {K K' D D' : State F → Prop} {s : State F} (h : StepEnds K D s) (hK : K s → K' s)
    (hD : D s → D' s) : StepEnds K' D' s := by
  unfold StepEnds at h ⊢
  by_cases hrunning : s.stop = .notConverged
  · rw [if_pos hrunning] at h ⊢
    exact hK h
  · rw [if_neg hrunning] at h ⊢
    exact hD h

omit [Scalar F] in
/-- A step that finds no point stops the run. -/
theorem StepEnds.of_stuck {K D : State F → Prop} {c : Kept F} {s : State F} (hs : Stuck c s) (hD : D s) :
    StepEnds K D s := by
  unfold StepEnds
  rcases hs.failed with hstop | hstop <;> simp [hstop, hD]

structure LoopFrame (k : Setup F) (W : Watch F) (E : Halt → State F → Prop) (I J K D : State F → Prop) :
    Prop where
  hooks : k.hooks.StepOnly
  head : ∀ s, I s → W.visit .beginningOfOptimizationLoop s
  assessed : ∀ s t, I s → Assessed k s t → StepEnds J D t
  assessHalted : ∀ e s t, I s →
    ((s.lowered k.par).SameButGradient t ∨ ∃ u stop, Lowered k s u ∧ t = { u with stop }) → E e t
  started : ∀ s, J s → W.visit .beforeSaveOld s
  saved : ∀ s v, J s → s.stop = .notConverged → WithoutMultipliers k s.x s.y s.grad v →
    W.visit .beforeStep (s.remember v) ∧
    wp W (takeStep k) (fun _ => StepEnds K D) E (s.beforeStep v)
  saveHalted : ∀ e s v, J s → E e (s.remember v)
  stepped : ∀ s, K s → W.visit .beforeQuasi s
  paired : ∀ s v, K s → s.stop = .notConverged → Changed k s v →
    W.visit .afterQuasi (s.paired v k.par.storedHistory) ∧
    W.visit .endOfOptimizationIteration (s.paired v k.par.storedHistory).counted ∧
    I (s.paired v k.par.storedHistory).counted
  pairHalted : ∀ e s, K s → E e s
  outOfFuel : ∀ s, I s → E .outOfFuel s

variable {k : Setup F} {W : Watch F} {E : Halt → State F → Prop} {I J K D : State F → Prop} {s : State F}

namespace LoopFrame

theorem body_wp (fr : LoopFrame k W E I J K D) (hs : J s) (hrunning : s.stop = .notConverged) :
    wp W (body k) (fun _ => StepEnds K D) E s := by
  unfold body
  refine wp_bind (wp_quiet fr.hooks nofun (fr.started s hs) ?_)
  refine wp_bind (wp_mono saveOld_spec ?_ ?_)
  · rintro _ _ ⟨v, rfl, hv⟩
    obtain ⟨hvisit, hstep⟩ := fr.saved s v hs hrunning hv
    exact wp_bind (wp_quiet fr.hooks nofun hvisit (wp_bind (wp_update hstep)))
  · rintro e _ ⟨v, rfl⟩
    exact fr.saveHalted e s v hs

theorem tail_wp (fr : LoopFrame k W E I J K D) (hs : K s) (hrunning : s.stop = .notConverged) :
    wp W (tail k) (fun _ => I) E s := by
  unfold tail
  refine wp_bind (wp_quiet fr.hooks nofun (fr.stepped s hs) ?_)
  refine wp_bind (wp_mono updateHistory_spec ?_ fun e _ h => h ▸ fr.pairHalted e s hs)
  rintro _ _ ⟨v, rfl, hv⟩
  obtain ⟨hafter, hend, hI⟩ := fr.paired s v hs hrunning hv
  refine wp_bind (wp_quiet fr.hooks nofun hafter (wp_bind (countIteration_wp ?_)))
  exact wp_quiet fr.hooks nofun hend hI

/-- One iteration keeps the invariant or ends the loop. -/
theorem iteration_wp (fr : LoopFrame k W E I J K D) (hs : I s) :
    wp W (iteration k) (fun more t => if more then I t else D t) E s := by
  have hcontinue : ∀ {P : State F → Prop} (t : State F) (c : Running F Bool), StepEnds P D t →
      (t.stop = .notConverged → P t → wp W c (fun more t => if more then I t else D t) E t) →
      wp W (do if ← stopped then return false else c) (fun more t => if more then I t else D t) E t := by
    intro P t c ht hc
    refine wp_bind (wp_stopped ?_)
    unfold StepEnds at ht
    split at ht
    case isTrue h =>
      rw [if_neg (by simpa using h)]
      exact hc h ht
    case isFalse h =>
      rw [if_pos (by simpa using h)]
      exact wp_pure ht
  unfold iteration
  refine wp_bind (wp_quiet fr.hooks nofun (fr.head s hs) ?_)
  refine wp_bind (wp_mono assess_spec ?_ fun e t h => fr.assessHalted e s t hs h)
  intro _ t ht
  refine hcontinue t _ (fr.assessed s t hs ht) fun hrunning hJ => ?_
  refine wp_bind (wp_mono (fr.body_wp hJ hrunning) ?_ fun _ _ h => h)
  intro _ u hu
  refine hcontinue u _ hu fun hrunning hK => ?_
  exact wp_bind (wp_mono (fr.tail_wp hK hrunning) (fun _ _ h => wp_pure h) fun _ _ h => h)

theorem iterations_wp (fr : LoopFrame k W E I J K D)
    (fuel : Nat) (hs : I s) : wp W (iterations k fuel) (fun _ => D) E s := by
  induction fuel generalizing s with
  | zero => exact wp_throw (fr.outOfFuel s hs)
  | succ fuel ih =>
    refine wp_bind (wp_mono (fr.iteration_wp hs) ?_ fun _ _ h => h)
    rintro (_ | _) t ht
    · exact wp_pure ht
    · exact ih ht

/-- A run that starts its loop within an invariant ends outside the loop, with the stop of its state. -/
theorem loop_wp (fr : LoopFrame k W E I J K D) (hs : I s) (hloop : W.visit .beforeOptimizationLoop s)
    (hend : ∀ t, D t → W.visit .endOfOptimization t) :
    wp W (loop k) (fun stop t => D t ∧ stop = t.stop) E s := by
  unfold loop
  refine wp_bind (printHeader_wp (wp_bind (printRow_wp ?_)))
  refine wp_bind (wp_quiet fr.hooks nofun hloop (wp_bind (wp_log ?_)))
  refine wp_bind (wp_mono (fr.iterations_wp _ hs) ?_ fun _ _ h => h)
  exact fun _ t ht => finish_wp fr.hooks (hend t ht) ⟨ht, rfl⟩

end LoopFrame

/-! ### Whole runs -/

omit [Scalar F] in
theorem Solution.mem_visits {r : Solution F} {loc : Location} {s : State F} :
    (loc, s) ∈ r.visits ↔ .visit loc s ∈ r.events.toList := Event.mem_visits

omit [Scalar F] in
theorem Solution.mem_trials {r : Solution F} {q : State F × Trial F} :
    q ∈ r.trials ↔ .trial q.1 q.2 ∈ r.events.toList := by
  unfold Solution.trials
  rw [List.mem_filterMap]
  constructor
  · rintro ⟨e, he, h⟩
    cases e <;> cases h
    exact he
  · exact fun h => ⟨_, h, rfl⟩

/-- A run has no answer unless its parameters and sizes fit. -/
theorem whole_unfit_wp (hk : k.hooks.StepOnly) (hW : W.visit .beginningOfOptimization s)
    (h : ¬ (k.parameterError? = none ∧ k.sizesFit s.y = true)) :
    wp W (whole k) (fun _ _ => False) (fun _ _ => True) s := by
  unfold whole
  refine wp_bind ?_
  unfold opening
  refine wp_bind (wp_log (wp_bind (wp_quiet hk nofun hW ?_)))
  refine wp_bind (wp_mono check_spec ?_ fun _ _ _ => trivial)
  rintro _ _ ⟨rfl, hvalid, hfits⟩
  exact absurd ⟨hvalid, hfits⟩ h

/-- What a whole run shows is what its solution records. -/
theorem solve_wp {p : Problem F} {par : Parameters F} {hooks : Hooks F} {s : State F} {W : Watch F}
    {Q : Stop → State F → Prop} {E : Halt → State F → Prop} {k : Setup F}
    (hk : (⟨par, p, hooks, s.x.length⟩ : Setup F) = k) (h : wp W (whole k) Q E s) :
    (∀ e ∈ (p.solve par hooks s).events.toList, W.Sees e) ∧
      (∀ stop, (p.solve par hooks s).result = .ok stop → Q stop (p.solve par hooks s).state) ∧
      ∀ e, (p.solve par hooks s).result = .error e → E e (p.solve par hooks s).state := by
  subst hk
  obtain ⟨es, hevents, hsees, hok, herror⟩ := wp_run h #[]
  have hevents : (p.solve par hooks s).events.toList = es := hevents
  exact ⟨by rwa [hevents], hok, herror⟩

/-- What a whole run leads to is what its solution records. -/
theorem solve_leads {p : Problem F} {par : Parameters F} {hooks : Hooks F} {s : State F}
    {Q : Stop → State F → List (Event F) → Prop} {E : Halt → State F → List (Event F) → Prop}
    (h : leads (whole ⟨par, p, hooks, s.x.length⟩) Q E s []) :
    (∀ stop, (p.solve par hooks s).result = .ok stop →
      Q stop (p.solve par hooks s).state (p.solve par hooks s).events.toList) ∧
      ∀ e, (p.solve par hooks s).result = .error e →
        E e (p.solve par hooks s).state (p.solve par hooks s).events.toList := by
  obtain ⟨es, hevents, hok, herror⟩ := leads_run h #[]
  have hevents : (p.solve par hooks s).events.toList = es := hevents
  rw [hevents]
  exact ⟨hok, herror⟩

/-- The visits from the first gradient on. -/
def Solution.optimizing (r : Solution F) : List (Location × State F) :=
  r.visits.dropWhile fun v => v.1 != .afterInitialFuncAndGrad

omit [Scalar F] in
theorem Solution.mem_optimizing {r : Solution F} {first rest : List (Event F)} {v : Location × State F}
    (hevents : r.events.toList = first ++ rest) (hfirst : ∀ s, .visit .afterInitialFuncAndGrad s ∉ first)
    (hv : v ∈ r.optimizing) : .visit v.1 v.2 ∈ rest := by
  have hvisits : r.visits = Event.visits r.events.toList := rfl
  unfold Solution.optimizing at hv
  rw [hvisits, hevents, Event.visits_append, List.dropWhile_append_of_pos] at hv
  · exact Event.mem_visits.mp ((List.dropWhile_suffix _).subset hv)
  · rintro ⟨loc, s⟩ hu
    refine bne_iff_ne.mpr ?_
    rintro rfl
    exact hfirst s (Event.mem_visits.mp hu)

/-- What the opening of a run shows, and a run that ends with it. -/
def Watch.opening : Watch F where
  visit loc _ := loc = .beginningOfOptimization ∨ loc = .beforeInitialFuncAndGrad ∨ loc = .endOfOptimization
  trial _ _ := False

/-- How a run may go: it ends with its opening and certifies nothing, or it opens and goes on as `W`, `Q` and
`E` say, which may refer to the state it opened with. The events of the opening come first. -/
inductive Solution.Goes (W : Watch F) (Q : State F → Stop → State F → Prop)
    (E : State F → Halt → State F → Prop) (k : Setup F) (s : State F) (r : Solution F) : Prop
  | abandoned (hsees : ∀ e ∈ r.events.toList, Watch.opening.Sees e)
      (hresult : ∀ stop, r.result = .ok stop → Abandoned r.state ∧ stop = r.state.stop)
  | optimized (t : Trial F) (y grad : Vec F) (first rest : List (Event F)) (hopened : k.Opened s t y grad)
      (hfirst : ∀ e ∈ first, Watch.opening.Sees e) (hrest : ∀ e ∈ rest, W.Sees e)
      (hevents : r.events.toList = first ++ .visit .afterInitialFuncAndGrad (k.openedState s t y grad) :: rest)
      (hok : ∀ stop, r.result = .ok stop → Q (k.openedState s t y grad) stop r.state)
      (herror : ∀ e, r.result = .error e → E (k.openedState s t y grad) e r.state)

section Goes
variable {Q : State F → Stop → State F → Prop} {E : State F → Halt → State F → Prop} {r : Solution F}
  (h : r.Goes W Q E k s)
include h

/-- Behind the opening of a run the watch sees what it shows. -/
theorem Solution.Goes.visit {loc : Location} {u : State F} (hu : (loc, u) ∈ r.visits) :
    Watch.opening.visit loc u ∨ loc = .afterInitialFuncAndGrad ∨ W.visit loc u := by
  have hu := Solution.mem_visits.mp hu
  cases h with
  | abandoned hsees _ => exact .inl (hsees _ hu)
  | optimized t y grad first rest _ hfirst hrest hevents _ _ =>
    rw [hevents, List.mem_append, List.mem_cons] at hu
    rcases hu with hu | hu | hu
    · exact .inl (hfirst _ hu)
    · exact .inr (.inl (Event.visit.inj hu).1)
    · exact .inr (.inr (hrest _ hu))

/-- No points are tried in an opening. -/
theorem Solution.Goes.trial {q : State F × Trial F} (hq : q ∈ r.trials) : W.trial q.1 q.2 := by
  have hq := Solution.mem_trials.mp hq
  cases h with
  | abandoned hsees _ => exact (hsees _ hq).elim
  | optimized t y grad first rest _ hfirst hrest hevents _ _ =>
    rw [hevents, List.mem_append, List.mem_cons] at hq
    rcases hq with hq | hq | hq
    · exact (hfirst _ hq).elim
    · cases hq
    · exact hrest _ hq

end Goes

/-- The record of the visit that ends an opening. -/
def openingNote : Event F := .note (.record .trace [.text (Registry.text Location.afterInitialFuncAndGrad)])

theorem optimize_run (hk : k.hooks.StepOnly) (events : Array (Event F)) :
    (optimize k).run ⟨s, events⟩ =
      (loop k).run ⟨s, (events.push openingNote).push (.visit .afterInitialFuncAndGrad s)⟩ := by
  have h : (optimize k).run ⟨s, events⟩ = (loop k).run ⟨k.hooks.manipulate .afterInitialFuncAndGrad s,
      (events.push openingNote).push (.visit .afterInitialFuncAndGrad s)⟩ := rfl
  rwa [hk.elsewhere .afterInitialFuncAndGrad s nofun] at h

/-- A run of a manipulator that writes at most steps goes as its loop goes from every sound opening. -/
theorem solve_goes {p : Problem F} {par : Parameters F} {hooks : Hooks F} {s : State F} {W : Watch F}
    {Q : State F → Stop → State F → Prop} {E : State F → Halt → State F → Prop} {k : Setup F}
    (hk' : (⟨par, p, hooks, s.x.length⟩ : Setup F) = k) (hk : hooks.StepOnly)
    (h : ∀ t y grad, k.Opened s t y grad → wp W (loop k) (Q (k.openedState s t y grad))
      (E (k.openedState s t y grad)) (k.openedState s t y grad)) :
    (p.solve par hooks s).Goes W Q E k s := by
  have hk : k.hooks.StepOnly := by
    rw [← hk']
    exact hk
  have hsolve : p.solve par hooks s =
      ⟨((whole k).run ⟨s, #[]⟩).1, ((whole k).run ⟨s, #[]⟩).2.state, ((whole k).run ⟨s, #[]⟩).2.events⟩ := by
    rw [← hk']
    rfl
  rw [hsolve]
  obtain ⟨first, hfirst, hsees, hopening⟩ :=
    opening_spec (W := Watch.opening) (s := s) hk (fun _ _ h => h.imp_right .inl) #[]
  have hwhole : whole k = (opening k >>= fun go => if go then optimize k else finish k) := rfl
  rw [hwhole, run_bind]
  rcases ho : (opening k).run ⟨s, #[]⟩ with ⟨e | go, u, events⟩
  · rw [ho] at hfirst hopening
    have hevents : events.toList = first := hfirst
    exact .abandoned (by simpa only [hevents] using hsees) nofun
  · rw [ho] at hfirst hopening
    have hevents : events.toList = first := hfirst
    cases go with
    | false =>
      have hu : Abandoned u := .of_abandons (by simpa using hopening)
      have hfinish : wp Watch.opening (finish k) (fun stop t => Abandoned t ∧ stop = t.stop) (fun _ _ => True) u :=
        finish_wp hk (.inr (.inr rfl)) ⟨hu, rfl⟩
      obtain ⟨last, hlast, hsees', hok, -⟩ := wp_run hfinish events
      refine .abandoned (fun e he => ?_) hok
      have he : e ∈ first ++ last := by rwa [← hevents, ← hlast]
      exact (List.mem_append.mp he).elim (hsees e) (hsees' e)
    | true =>
      obtain ⟨t, y, grad, hopened, rfl⟩ : ∃ t y grad, k.Opened s t y grad ∧ u = k.openedState s t y grad := by
        simpa using hopening
      obtain ⟨rest, hrest, hsees', hok, herror⟩ := wp_run (h t y grad hopened) ((events.push openingNote).push
        (.visit .afterInitialFuncAndGrad (k.openedState s t y grad)))
      rw [← optimize_run hk events] at hrest hok herror
      refine .optimized t y grad (first ++ [openingNote]) rest hopened ?_ hsees' ?_ hok herror
      · intro e he
        rcases List.mem_append.mp he with he | he
        · exact hsees e he
        · exact List.mem_singleton.mp he ▸ trivial
      · exact hrest.trans (by simp [hevents])

end ConstrainedOpt
