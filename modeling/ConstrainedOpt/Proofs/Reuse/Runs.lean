import ConstrainedOpt.Proofs.History.Requests
import ConstrainedOpt.Proofs.Reuse.Oblivious
import ConstrainedOpt.Proofs.Run.Loop
import ConstrainedOpt.Scalar.Binary64

/-! # Runs from a used state

A run takes the iterate and the multipliers from the state it is given, and nothing else: two states that agree in
them are driven through the same hook points to the same end. What else they hold is seen at the first hook point
alone, except the value and the norms that a run leaves as it found them until it computes them.
-/
namespace ConstrainedOpt
variable {F : Type} [Scalar F]

omit [Scalar F] in
/-- `a` and `b` are the same, or what was found at the start. -/
def Found (a₀ b₀ a b : F) : Prop := b = a ∨ a = a₀ ∧ b = b₀

omit [Scalar F] in
/-- The states that a run from `s` may have reached as `u` and a run from `t` as the other one: they are the same, but
for the value and the norms of the first iterate if these are still what they were in `s` and `t`. -/
inductive State.Carried (s t u : State F) : State F → Prop
  | over {f normGrad normGradTyp normG normGTyp : F} (hf : Found s.f t.f u.f f)
      (hnormGrad : Found s.normGrad t.normGrad u.normGrad normGrad)
      (hnormGradTyp : Found s.normGradTyp t.normGradTyp u.normGradTyp normGradTyp)
      (hnormG : Found s.normG t.normG u.normG normG) (hnormGTyp : Found s.normGTyp t.normGTyp u.normGTyp normGTyp) :
      Carried s t u { u with f, normGrad, normGradTyp, normG, normGTyp }

omit [Scalar F] in
theorem State.Carried.refl {s t : State F} (u : State F) : s.Carried t u u :=
  .over (.inl rfl) (.inl rfl) (.inl rfl) (.inl rfl) (.inl rfl)

omit [Scalar F] in
/-- Events of a run from `s` and of a run from `t` before their first gradient, or at their end: the same notes, and the
same hook points, which see the states the runs were given, or states with values that are not computed yet. -/
inductive Event.Agrees (s t : State F) : Event F → Event F → Prop
  | note (n : Note F) : Agrees s t (.note n) (.note n)
  | first : Agrees s t (.visit .beginningOfOptimization s) (.visit .beginningOfOptimization t)
  | carried {loc : Location} {u v : State F} (hloc : loc = .beforeInitialFuncAndGrad ∨ loc = .endOfOptimization)
      (h : s.Carried t u v) : Agrees s t (.visit loc u) (.visit loc v)

namespace Running
variable {k : Setup F} {s t u v : State F}

theorem check_twins (hy : t.y = s.y) :
    twins (Event.Agrees s t) (check k)
      (fun _ u v => u = s ∧ v = t ∧ k.parameterError? = none ∧ k.sizesFit s.y = true)
      (fun _ u v => u = s ∧ v = t ∧ ¬ (k.parameterError? = none ∧ k.sizesFit s.y = true)) s t := by
  unfold check
  cases hvalid : k.parameterError? with
  | some e => exact twins_bind (twins_event (.note _) (twins_bind (twins_fail .note ⟨rfl, rfl, nofun⟩)))
  | none =>
    refine twins_getState (by rw [hy]) ?_
    split
    case isTrue h =>
      refine twins_bind (twins_event (.note _) (twins_fail .note ⟨rfl, rfl, fun hfits => ?_⟩))
      simp [hfits] at h
    case isFalse h => exact twins_pure ⟨rfl, rfl, rfl, by simpa using h⟩

theorem diagnose_twins (h : s.Carried t u v) :
    twins (Event.Agrees s t) (diagnose k) (fun _ => s.Carried t) (fun _ => s.Carried t) u v := by
  unfold diagnose
  obtain ⟨hf, hgrad, hgradTyp, hg, hgTyp⟩ := h
  refine twins_getState rfl (twins_bind (twins_lift .note (fun ok _ => ?_) fun _ _ => ?_))
  · split
    · refine twins_bind (twins_event (.note _) (twins_update ?_))
      exact .over hf hgrad hgradTyp hg hgTyp
    · exact twins_pure (.over hf hgrad hgradTyp hg hgTyp)
  · exact .over hf hgrad hgradTyp hg hgTyp

theorem initialDiagnostics_twins (h : s.Carried t u v) :
    twins (Event.Agrees s t) (initialDiagnostics k) (fun _ => s.Carried t) (fun _ => s.Carried t) u v := by
  unfold initialDiagnostics
  split
  · exact twins_pure h
  · refine twins_bind (twins_mono (diagnose_twins h) ?_ fun _ _ _ h => h)
    rintro _ u v ⟨hf, hgrad, hgradTyp, hg, hgTyp⟩
    refine twins_bind (twins_stopped rfl ?_)
    split
    · exact twins_pure (.over hf hgrad hgradTyp hg hgTyp)
    · split
      · exact twins_update (.over hf hgrad hgradTyp hg hgTyp)
      · exact twins_pure (.over hf hgrad hgradTyp hg hgTyp)

/-- The first evaluation gives both runs the same value. -/
theorem initialEvaluation_twins (hk : k.hooks.Observing) (h : s.Carried t u v) :
    twins (Event.Agrees s t) (initialEvaluation k)
      (fun go u v => s.Carried t u v ∧ (go = true → v.f = u.f)) (fun _ => s.Carried t) u v := by
  have hmove : ∀ u v, s.Carried t u v → twins (Event.Agrees s t) (do
      let t ← k.problem.evaluate (← getState).x
      update fun s => { s with f := t.f, g := t.g, h := t.h }
      let s ← getState
      if Scalar.isFinite (t.barrier s.mu) then return true
      log .error ["initial point: f(x) ", .scientific 2 s.f, ", not strictly feasible or not finite"]
      setStop (if 0 < k.inequalities then .interiorPointInstability else .globalizationFailure)
      return false) (fun go u v => s.Carried t u v ∧ (go = true → v.f = u.f)) (fun _ => s.Carried t) u v := by
    rintro u v ⟨hf, hgrad, hgradTyp, hg, hgTyp⟩
    refine twins_getState rfl (twins_bind (twins_lift .note (fun w _ => ?_) fun _ _ => ?_))
    · refine twins_bind (twins_update (twins_getState rfl ?_))
      split
      · exact twins_pure ⟨.over (.inl rfl) hgrad hgradTyp hg hgTyp, fun _ => rfl⟩
      · refine twins_bind (twins_event (.note _) (twins_bind (twins_update (twins_pure ⟨?_, nofun⟩))))
        exact .over (.inl rfl) hgrad hgradTyp hg hgTyp
    · exact .over hf hgrad hgradTyp hg hgTyp
  unfold initialEvaluation
  refine twins_bind (twins_visit .note (.carried (.inl rfl) h) ?_)
  rw [hk, hk]
  exact hmove u v h

/-- The norms of the gradient are the same in both runs once the gradient is known. -/
theorem updateGradient_twins (updateY : Bool) (hf : v.f = u.f) (h : s.Carried t u v) :
    twins (Event.Agrees s t) (updateGradient k updateY)
      (fun o u v => s.Carried t u v ∧ v.f = u.f ∧ (o = .ok () → v.normGrad = u.normGrad ∧ v.normG = u.normG))
      (fun _ => s.Carried t) u v := by
  unfold updateGradient
  obtain ⟨hfound, hgrad, hgradTyp, hg, hgTyp⟩ := h
  refine twins_getState rfl (twins_bind (twins_lift .note (fun r _ => ?_) fun _ _ => ?_))
  · obtain ⟨y, grad, outcome⟩ := r
    refine twins_bind (twins_update ?_)
    cases outcome with
    | error e => exact twins_pure ⟨.over hfound hgrad hgradTyp hg hgTyp, hf, nofun⟩
    | ok =>
      refine twins_bind (twins_update (twins_pure ⟨?_, hf, fun _ => ⟨rfl, rfl⟩⟩))
      exact .over hfound (.inl rfl) hgradTyp (.inl rfl) hgTyp
  · exact .over hfound hgrad hgradTyp hg hgTyp

/-- Once the first gradient is found sound the states of both runs are the same. -/
theorem initialGradient_twins (hf : v.f = u.f) (h : s.Carried t u v) :
    twins (Event.Agrees s t) (initialGradient k) (fun go u v => s.Carried t u v ∧ (go = true → v = u))
      (fun _ => s.Carried t) u v := by
  unfold initialGradient
  obtain ⟨hfound, hgrad, hgradTyp, hg, hgTyp⟩ := h
  refine twins_getState rfl ?_
  extract_lets updateY grade
  have hgrade : ∀ u v, v.f = u.f → s.Carried t u v → twins (Event.Agrees s t) (grade ())
      (fun go u v => s.Carried t u v ∧ (go = true → v = u)) (fun _ => s.Carried t) u v := by
    intro u v hf h
    refine twins_bind (twins_mono (updateGradient_twins updateY hf h) ?_ fun _ _ _ h => h)
    rintro o u v ⟨⟨hfound, hgrad, hgradTyp, hg, hgTyp⟩, hf, hnorms⟩
    split
    · refine twins_bind (twins_stepFailure .note (twins_pure ⟨?_, fun h => absurd h Bool.false_ne_true⟩) fun _ => ?_)
      · exact .over hfound hgrad hgradTyp hg hgTyp
      · exact .over hfound hgrad hgradTyp hg hgTyp
    · obtain ⟨rfl, rfl⟩ := hnorms rfl
      obtain rfl := hf
      exact twins_bind (twins_update (twins_pure ⟨.refl _, fun _ => rfl⟩))
  split
  · refine twins_bind (twins_update (hgrade _ _ hf ?_))
    exact .over hfound hgrad hgradTyp hg hgTyp
  · exact hgrade _ _ hf (.over hfound hgrad hgradTyp hg hgTyp)

/-- Runs from states with the same iterate and multipliers are opened alike. -/
theorem opening_twins (hk : k.hooks.Observing) (hx : t.x = s.x) (hy : t.y = s.y) :
    twins (Event.Agrees s t) (opening k) (fun go u v => s.Carried t u v ∧ (go = true → v = u))
      (fun _ u v => k.parameterError? = none → k.sizesFit s.y = true → s.Carried t u v) s t := by
  have hprepared : s.Carried t (k.prepare s) (k.prepare t) := by
    have h : k.prepare t = { k.prepare s with
        f := t.f, normGrad := t.normGrad, normGradTyp := t.normGradTyp, normG := t.normG, normGTyp := t.normGTyp } := by
      unfold Setup.prepare
      rw [hx, hy]
    rw [h]
    exact .over (.inr ⟨rfl, rfl⟩) (.inr ⟨rfl, rfl⟩) (.inr ⟨rfl, rfl⟩) (.inr ⟨rfl, rfl⟩) (.inr ⟨rfl, rfl⟩)
  unfold opening
  refine twins_bind (twins_event (.note _) (twins_bind (twins_visit .note .first ?_)))
  rw [hk, hk]
  refine twins_bind (twins_mono (check_twins hy) ?_ ?_)
  · rintro _ _ _ ⟨rfl, rfl, -, -⟩
    refine twins_bind (twins_update (twins_bind (twins_mono (initialDiagnostics_twins hprepared) ?_ fun _ _ _ h _ _ => h)))
    rintro _ u v h
    have hstop : v.stop = u.stop := by
      obtain ⟨-, -, -, -, -⟩ := h
      rfl
    refine twins_bind (twins_stopped hstop ?_)
    split
    · exact twins_pure ⟨h, nofun⟩
    · refine twins_bind (twins_mono (initialEvaluation_twins hk h) ?_ fun _ _ _ h _ _ => h)
      rintro go u v ⟨h, hf⟩
      split
      · exact twins_pure ⟨h, nofun⟩
      case isFalse hgo =>
        have hgo : go = true := by simpa using hgo
        exact twins_mono (initialGradient_twins (hf hgo) h) (fun _ _ _ h => h) fun _ _ _ h _ _ => h
  · rintro _ _ _ ⟨rfl, rfl, hfits⟩ hvalid hsizes
    exact absurd ⟨hvalid, hsizes⟩ hfits

omit [Scalar F] in
theorem finish_twins (hk : k.hooks.Observing) (h : s.Carried t u v) :
    twins (Event.Agrees s t) (finish k) (fun _ => s.Carried t) (fun _ => s.Carried t) u v := by
  have hend : twins (Event.Agrees s t) (do
      visit k .endOfOptimization
      return (← getState).stop) (fun _ => s.Carried t) (fun _ => s.Carried t) u v := by
    refine twins_bind (twins_visit .note (.carried (.inr rfl) h) ?_)
    rw [hk, hk]
    obtain ⟨hf, hgrad, hgradTyp, hg, hgTyp⟩ := h
    exact twins_getState rfl (twins_pure (.over hf hgrad hgradTyp hg hgTyp))
  have hline : twins (Event.Agrees s t) (do
      if 1 ≤ k.par.msgLevel then
        event (.note (.line ["Optimization stopped: ", .text (Registry.text u.stop)]))
      visit k .endOfOptimization
      return (← getState).stop) (fun _ => s.Carried t) (fun _ => s.Carried t) u v := by
    split
    · exact twins_bind (twins_event (.note _) hend)
    · exact hend
  have hstop : v.stop = u.stop := by
    obtain ⟨-, -, -, -, -⟩ := h
    rfl
  unfold finish
  refine twins_getState (by rw [hstop]) ?_
  dsimp only
  split <;> exact twins_bind (twins_event (.note _) hline)

/-- The ends of two runs: they answer the same, and what happened is the same from the first gradient on and agrees
before. -/
structure Parallel (k : Setup F) (s t : State F) (r r' : Except Halt Stop × Run F) : Prop where
  answer : r'.1 = r.1
  events : ∃ first first' rest, r.2.events.toList = first ++ rest ∧ r'.2.events.toList = first' ++ rest ∧
    List.Forall₂ (Event.Agrees s t) first first' ∧ (rest ≠ [] → r'.2.state = r.2.state)
  state : k.parameterError? = none → k.sizesFit s.y = true → s.Carried t r.2.state r'.2.state

theorem whole_parallel (hk : k.hooks.Observing) (hx : t.x = s.x) (hy : t.y = s.y) :
    Parallel k s t ((whole k).run ⟨s, #[]⟩) ((whole k).run ⟨t, #[]⟩) := by
  have hwhole : whole k = (opening k >>= fun go => if go then optimize k else finish k) := rfl
  obtain ⟨ds, ds', hds, hds', hA, hanswer, hok, herror⟩ := twins_run (opening_twins hk hx hy) #[] #[]
  rw [hwhole, run_bind, run_bind]
  generalize (opening k).run ⟨s, #[]⟩ = o at hds hanswer hok herror ⊢
  generalize (opening k).run ⟨t, #[]⟩ = o' at hds' hanswer hok herror ⊢
  rcases o with ⟨e | go, u, es⟩ <;> obtain ⟨_, v, es'⟩ := o' <;> obtain rfl := hanswer
  · refine ⟨rfl, ⟨ds, ds', [], ?_, ?_, hA, fun h => absurd rfl h⟩, herror e rfl⟩
    · rw [List.append_nil]
      exact hds
    · rw [List.append_nil]
      exact hds'
  have hfirst : es.toList = ds := hds
  have hfirst' : es'.toList = ds' := hds'
  obtain ⟨hcarried, hsame⟩ : s.Carried t u v ∧ (go = true → v = u) := hok go rfl
  cases go with
  | true =>
    obtain rfl : v = u := hsame rfl
    change Parallel k s t ((optimize k).run ⟨v, es⟩) ((optimize k).run ⟨v, es'⟩)
    rw [oblivious_optimize k v es, oblivious_optimize k v es']
    refine ⟨rfl, ⟨ds, ds', ((optimize k).run ⟨v, #[]⟩).2.events.toList, ?_, ?_, hA, fun _ => rfl⟩, fun _ _ => .refl _⟩
    · rw [Array.toList_append, hfirst]
    · rw [Array.toList_append, hfirst']
  | false =>
    obtain ⟨cs, cs', hcs, hcs', hA', hanswer, hok, herror⟩ := twins_run (finish_twins hk hcarried) es es'
    change Parallel k s t ((finish k).run ⟨u, es⟩) ((finish k).run ⟨v, es'⟩)
    refine ⟨hanswer, ⟨ds ++ cs, ds' ++ cs', [], ?_, ?_, List.rel_append hA hA', fun h => absurd rfl h⟩, fun _ _ => ?_⟩
    · rw [hcs, hfirst, List.append_nil]
    · rw [hcs', hfirst', List.append_nil]
    · cases hr : ((finish k).run ⟨u, es⟩).1 with
      | ok a => exact hok a hr
      | error e => exact herror e hr

end Running

/-! ### Solutions -/

/-- Two solutions tell the same course: the same answer and messages, the same hook points and trial points, and from
the first gradient on the same states at the hook points. -/
structure Solution.Retraces (r r' : Solution F) : Prop where
  result : r'.result = r.result
  notes : r'.notes = r.notes
  locations : r'.visits.map Prod.fst = r.visits.map Prod.fst
  trials : r'.trials = r.trials
  optimizing : r'.optimizing = r.optimizing

section
variable {s t : State F} {es es' : List (Event F)}

omit [Scalar F] in
/-- What events tell is told by events that agree with them. -/
theorem Event.Agrees.filterMap_eq {α : Type} {f : Event F → Option α} (hf : ∀ e e', Event.Agrees s t e e' → f e' = f e)
    (h : List.Forall₂ (Event.Agrees s t) es es') : es'.filterMap f = es.filterMap f := by
  induction h with
  | nil => rfl
  | cons he _ ih => rw [List.filterMap_cons, List.filterMap_cons, hf _ _ he, ih]

omit [Scalar F] in
theorem Event.Agrees.early {e e' : Event F} (h : Event.Agrees s t e e') (w : State F) :
    e ≠ .visit .afterInitialFuncAndGrad w ∧ e' ≠ .visit .afterInitialFuncAndGrad w := by
  cases h with
  | note | first => exact ⟨nofun, nofun⟩
  | carried hloc =>
    rcases hloc with rfl | rfl
    · exact ⟨nofun, nofun⟩
    · exact ⟨nofun, nofun⟩

omit [Scalar F] in
theorem Event.Agrees.not_mem (h : List.Forall₂ (Event.Agrees s t) es es') (w : State F) :
    .visit .afterInitialFuncAndGrad w ∉ es ∧ .visit .afterInitialFuncAndGrad w ∉ es' := by
  induction h with
  | nil => exact ⟨List.not_mem_nil, List.not_mem_nil⟩
  | cons he _ ih =>
    obtain ⟨hleft, hright⟩ := he.early w
    exact ⟨List.not_mem_cons_of_ne_of_not_mem hleft.symm ih.1, List.not_mem_cons_of_ne_of_not_mem hright.symm ih.2⟩

omit [Scalar F] in
/-- Events before the first gradient do not count among the visits from there on. -/
theorem Solution.optimizing_eq {r : Solution F} {first rest : List (Event F)} (hevents : r.events.toList = first ++ rest)
    (hfirst : ∀ w, .visit .afterInitialFuncAndGrad w ∉ first) :
    r.optimizing = (Event.visits rest).dropWhile fun v => v.1 != .afterInitialFuncAndGrad := by
  have hvisits : r.visits = Event.visits first ++ Event.visits rest := by
    rw [← Event.visits_append, ← hevents]
    rfl
  unfold optimizing
  rw [hvisits, List.dropWhile_append_of_pos]
  rintro ⟨loc, w⟩ hw
  refine bne_iff_ne.mpr ?_
  rintro rfl
  exact hfirst w (Event.mem_visits.mp hw)

end

/-- A used state carries nothing into a run but its iterate and its multipliers. Runs from states that agree in these
take the same course, and where parameters and sizes fit they end in states that are the same in all fields, except
for the value and the norms of the first iterate where a run ends before they are computed. -/
theorem Problem.solve_retraces (p : Problem F) (par : Parameters F) {hooks : Hooks F} (hk : hooks.Observing)
    {s t : State F} (hx : t.x = s.x) (hy : t.y = s.y) :
    (p.solve par hooks s).Retraces (p.solve par hooks t) ∧
    ((⟨par, p, hooks, s.x.length⟩ : Setup F).parameterError? = none →
      (⟨par, p, hooks, s.x.length⟩ : Setup F).sizesFit s.y = true →
      s.Carried t (p.solve par hooks s).state (p.solve par hooks t).state) ∧
    ((p.solve par hooks s).optimizing ≠ [] → (p.solve par hooks t).state = (p.solve par hooks s).state) := by
  let k : Setup F := ⟨par, p, hooks, s.x.length⟩
  have hk' : (⟨par, p, hooks, t.x.length⟩ : Setup F) = k := by rw [hx]
  have hs : p.solve par hooks s = ⟨((Running.whole k).run ⟨s, #[]⟩).1, ((Running.whole k).run ⟨s, #[]⟩).2.state,
      ((Running.whole k).run ⟨s, #[]⟩).2.events⟩ := rfl
  have ht : p.solve par hooks t = ⟨((Running.whole k).run ⟨t, #[]⟩).1, ((Running.whole k).run ⟨t, #[]⟩).2.state,
      ((Running.whole k).run ⟨t, #[]⟩).2.events⟩ := by
    rw [← hk']
    rfl
  obtain ⟨hanswer, ⟨first, first', rest, hevents, hevents', hagree, hsame⟩, hstate⟩ :=
    Running.whole_parallel (k := k) hk hx hy
  rw [hs, ht]
  generalize (Running.whole k).run ⟨s, #[]⟩ = r at hanswer hevents hsame hstate
  generalize (Running.whole k).run ⟨t, #[]⟩ = r' at hanswer hevents' hsame hstate
  have hfirst : ∀ w, .visit .afterInitialFuncAndGrad w ∉ first := fun w => (Event.Agrees.not_mem hagree w).1
  have hfirst' : ∀ w, .visit .afterInitialFuncAndGrad w ∉ first' := fun w => (Event.Agrees.not_mem hagree w).2
  have htold : ∀ {α : Type} (f : Event F → Option α), (∀ e e', Event.Agrees s t e e' → f e' = f e) →
      r'.2.events.toList.filterMap f = r.2.events.toList.filterMap f := by
    intro α f hf
    rw [hevents, hevents', List.filterMap_append, List.filterMap_append, Event.Agrees.filterMap_eq hf hagree]
  refine ⟨⟨hanswer, ?_, ?_, ?_, ?_⟩, hstate, fun hgraded => hsame ?_⟩
  · refine htold _ fun e e' he => ?_
    cases he <;> rfl
  · unfold Solution.visits
    rw [List.map_filterMap, List.map_filterMap]
    refine htold _ fun e e' he => ?_
    cases he <;> rfl
  · refine htold _ fun e e' he => ?_
    cases he <;> rfl
  · exact (Solution.optimizing_eq hevents' hfirst').trans (Solution.optimizing_eq hevents hfirst).symm
  · rintro rfl
    have hnone : Solution.optimizing ⟨r.1, r.2.state, r.2.events⟩ = List.dropWhile _ (Event.visits []) :=
      Solution.optimizing_eq hevents hfirst
    exact hgraded hnone

/-- A state at one, left by some other run. -/
def State.used : State Float :=
  { State.new [1] with
    direction := [3, 4], gradChange := [], history := ⟨[[2]], [[5]]⟩, delta := 0, rho := 7, f := 8, normGrad := 9
    iter := 6, rejectedTotal := 5, stop := .userDefined }

theorem Problem.solve_retraces_used :
    let par : Parameters Float := { Parameters.default with hessian := .userDefined }
    let r := Problem.leastSquare.solve par .passive (.new [1])
    let r' := Problem.leastSquare.solve par .passive .used
    (Hooks.passive (F := Float)).Observing ∧ r.Retraces r' ∧ r'.state = r.state ∧
      r'.result.toOption = some .gradientSmall := by
  intro par r r'
  have hk : (Hooks.passive (F := Float)).Observing := fun _ _ => rfl
  have hgraded : r.optimizing.isEmpty = false := by decide +kernel
  obtain ⟨hcourse, -, hstate⟩ := Problem.leastSquare.solve_retraces par hk (s := .new [1]) (t := .used) rfl rfl
  refine ⟨hk, hcourse, hstate fun h => ?_, by decide +kernel⟩
  rw [show r.optimizing = [] from h] at hgraded
  cases hgraded

end ConstrainedOpt
