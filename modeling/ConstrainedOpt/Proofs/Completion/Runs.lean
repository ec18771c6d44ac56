import ConstrainedOpt.Proofs.Completion.Steps
import ConstrainedOpt.Proofs.History.Requests
import ConstrainedOpt.Proofs.Reduction.Runs
import ConstrainedOpt.Proofs.Run.Loop
import ConstrainedOpt.Proofs.Sizes.Checks
import ConstrainedOpt.Scalar.Binary64

/-! # Runs that complete

A run whose parameters and sizes pass the check completes, whatever the functions of its problem answer in their sizes:
it stops for some reason, without a panic and without a failure. A run that does not pass says so and nothing else, and
asks no function.
-/
namespace ConstrainedOpt
open Journaled Checked
variable {F : Type} [Scalar F] {k : Setup F} {s : State F}

namespace Running

/-! ### Iterations -/

section
variable (hp : k.problem.Fills k.n)
include hp

theorem updateMu_completes (hs : k.Fit s) : completes k (updateMu k) (fun _ => k.Fit) s := by
  unfold updateMu
  refine completes_bind (completes_getState ?_)
  split
  · exact completes_pure hs
  split
  · refine completes_bind (completes_update_of (P := k.Fit) { hs with } fun t ht => ?_)
    refine completes_bind (completes_log (by decide) (completes_bind (completes_mono
      (updateGradient_completes hp true ht) ?_)))
    rintro (e | ⟨⟨⟩⟩) u ⟨ho, hu⟩
    · exact completes_stepFailure (ho e rfl) { hu with }
    · exact completes_pure hu
  · exact completes_pure hs

/-- The diagnostics answer, and may stop the run. -/
theorem diagnose_completes (hx : s.x.length = k.n) :
    completes k (diagnose k) (fun _ t => ∃ stop, t = { s with stop }) s := by
  unfold diagnose
  have hrun := Diagnostics.run_settles hp hx k.par.functionChecks k.par.spaceChecks
  refine completes_bind (completes_getState (completes_bind (completes_lift hrun.yields (fun _ => hrun.quiet) ?_)))
  intro ok _
  split
  · exact completes_bind (completes_log (by decide) (completes_setStop ⟨_, rfl⟩))
  · exact completes_pure ⟨s.stop, rfl⟩

theorem assess_completes (hs : k.Fit s) : completes k (assess k) (fun _ => k.Fit) s := by
  unfold assess
  refine completes_bind (completes_mono (updateMu_completes hp hs) fun _ t ht => completes_bind (completes_getState ?_))
  refine completes_bind (completes_update_of (P := k.Fit) { ht with } fun t ht => completes_bind (completes_stopped ?_))
  split
  · exact completes_pure ht
  refine completes_bind (completes_getState ?_)
  split
  · refine completes_mono (diagnose_completes hp ht.x) ?_
    rintro _ _ ⟨stop, rfl⟩
    exact { ht with }
  · exact completes_pure ht

theorem saveOld_completes (hs : k.Fit s) : completes k (saveOld k) (fun _ => k.Fit) s := by
  unfold saveOld
  refine completes_bind (completes_update_of (P := k.Fit) { hs with xOld := hs.x, gradOld := hs.grad } fun t ht => ?_)
  split
  case h_1 c hc =>
    have hJ := (hp.equality c hc).jacobian ht.x
    refine completes_bind (completes_getState (completes_bind ?_))
    refine completes_lift (hJ.applyTransposed (-1) _ 1 _ ht.y ht.gradOld)
      (fun _ => (c.jacobian_silent t.x).applyTransposed _ _ _ _) fun v hv => ?_
    exact completes_update { ht with gradOld := hv }
  case h_2 => exact completes_pure ht

theorem updateHistory_completes (hs : k.Fit s) : completes k (updateHistory k) (fun _ => k.Fit) s := by
  unfold updateHistory
  refine completes_bind (completes_getState (completes_bind ?_))
  refine completes_checked (answers_add (-1) hs.gradOld hs.grad) fun change hchange => ?_
  have hstore : ∀ v : Vec F, v.length = k.n → completes k
      (update fun s => { s with gradChange := v, history := s.history.push s.dx v k.par.storedHistory })
      (fun _ => k.Fit) s := fun v hv =>
    completes_update { hs with gradChange := hv, history := hs.history.push hs.dx hv _ }
  refine completes_bind ?_
  split
  · exact completes_lift (yields_pure hchange) (fun _ => quiet_pure _) hstore
  case h_2 c hc =>
    have hJ := (hp.equality c hc).jacobian hs.xOld
    exact completes_lift (hJ.applyTransposed (-1) _ 1 _ hs.y hchange)
      (fun _ => (c.jacobian_silent s.xOld).applyTransposed _ _ _ _) hstore

omit hp in
theorem printRow_completes {Q : Unit → State F → Prop} (h : Q () s) : completes k (Table.printRow k) Q s := by
  unfold Table.printRow
  split
  · exact completes_bind (completes_getState (completes_event (e := .note (.row _)) (.inl trivial) h))
  · exact completes_pure h

omit hp in
theorem printHeader_completes {Q : Unit → State F → Prop} (h : Q () s) : completes k (Table.printHeader k) Q s := by
  unfold Table.printHeader
  split
  · exact completes_bind (completes_getState (completes_event (e := .note (.row _)) (.inl trivial) h))
  · exact completes_pure h

omit hp in
theorem countIteration_completes (hs : k.Fit s) : completes k (countIteration k) (fun _ => k.Fit) s := by
  unfold countIteration
  refine completes_bind (completes_update_of (P := k.Fit) { hs with } fun t ht => ?_)
  refine completes_bind (completes_update_of (P := k.Fit) ?_ fun u hu => ?_)
  · split
    · exact { ht with }
    · exact ht
  · exact completes_bind (completes_getState (completes_bind (completes_log (by decide) (printRow_completes hu))))

variable (hk : k.hooks.Observing)
include hk

theorem iteration_completes (hs : k.Fit s) : completes k (iteration k) (fun _ => k.Fit) s := by
  have hbody : ∀ t, k.Fit t → completes k (body k) (fun _ => k.Fit) t := by
    intro t ht
    refine completes_bind (completes_visit hk (completes_bind (completes_mono (saveOld_completes hp ht) fun _ u hu => ?_)))
    refine completes_bind (completes_visit hk (completes_bind (completes_update_of (P := k.Fit) { hu with } ?_)))
    exact fun v hv => takeStep_completes hp hk hv
  have htail : ∀ t, k.Fit t → completes k (tail k) (fun _ => k.Fit) t := by
    intro t ht
    refine completes_bind (completes_visit hk (completes_bind (completes_mono (updateHistory_completes hp ht) ?_)))
    refine fun _ u hu => completes_bind (completes_visit hk (completes_bind (completes_mono
      (countIteration_completes hu) fun _ v hv => completes_visit hk hv)))
  unfold iteration
  refine completes_bind (completes_visit hk (completes_bind (completes_mono (assess_completes hp hs) fun _ t ht => ?_)))
  refine completes_bind (completes_stopped ?_)
  split
  · exact completes_pure ht
  refine completes_bind (completes_mono (hbody t ht) fun _ u hu => completes_bind (completes_stopped ?_))
  split
  · exact completes_pure hu
  · exact completes_bind (completes_mono (htail u hu) fun _ v hv => completes_pure hv)

theorem iterations_completes (fuel : Nat) (hs : k.Fit s) : completes k (iterations k fuel) (fun _ => k.Fit) s := by
  induction fuel generalizing s with
  | zero => exact completes_outOfFuel
  | succ fuel ih =>
    refine completes_bind (completes_mono (iteration_completes hp hk hs) fun go t ht => ?_)
    split
    · exact ih ht
    · exact completes_pure ht

omit [Scalar F] hp in
theorem finish_completes : completes k (finish k) (fun _ _ => True) s := by
  have hend : completes k (do
      visit k .endOfOptimization
      return (← getState).stop) (fun _ _ => True) s :=
    completes_bind (completes_visit hk (completes_bind (completes_getState (completes_pure trivial))))
  have hline : completes k (do
      if 1 ≤ k.par.msgLevel then
        event (.note (.line ["Optimization stopped: ", .text (Registry.text s.stop)]))
      visit k .endOfOptimization
      return (← getState).stop) (fun _ _ => True) s := by
    split
    · exact completes_bind (completes_event (e := .note (.line _)) (.inl trivial) hend)
    · exact hend
  unfold finish
  refine completes_bind (completes_getState ?_)
  dsimp only
  split <;> exact completes_bind (completes_log (by decide) hline)

theorem optimize_completes (hs : k.Fit s) : completes k (optimize k) (fun _ _ => True) s := by
  unfold optimize loop
  refine completes_bind (completes_visit hk (completes_bind (printHeader_completes (completes_bind ?_))))
  refine printRow_completes (completes_bind (completes_visit hk (completes_bind (completes_log (by decide) ?_))))
  exact completes_bind (completes_mono (iterations_completes hp hk _ hs) fun _ _ _ => finish_completes hk)

end

/-! ### The opening -/

omit [Scalar F] in
/-- All vectors of the state have their sizes, the multipliers perhaps not yet. -/
def Ready (k : Setup F) (s : State F) : Prop := ∀ y : Vec F, y.length = k.equalities → k.Fit (s.withMultipliers y)

theorem ready_prepare (k : Setup F) (hx : s.x.length = k.n) : Ready k (k.prepare s) := by
  intro y hy
  have hzero : (Vec.zeros k.n : Vec F).length = k.n := Vec.length_zeros _
  exact {
    x := hx, y := hy, g := Vec.length_zeros _, h := Vec.length_zeros _, grad := hzero, dxNormal := hzero
    dxCauchy := hzero, dxTangential := hzero, history := ⟨nofun, nofun⟩, dx := hzero, direction := hzero
    xOld := hzero, gradOld := hzero, gradChange := hzero }

theorem Ready.x (h : Ready k s) : s.x.length = k.n := (h (Vec.zeros _) (Vec.length_zeros _)).x

omit [Scalar F] in
/-- Its reason to stop is no part of what makes a state ready. -/
theorem Ready.stopped (h : Ready k s) (stop : Stop) : Ready k { s with stop } := fun y hy => { h y hy with }

section
variable (hp : k.problem.Fills k.n)
include hp

theorem initialDiagnostics_completes (hs : Ready k s) :
    completes k (initialDiagnostics k) (fun _ => Ready k) s := by
  unfold initialDiagnostics
  split
  · exact completes_pure hs
  refine completes_bind (completes_mono (diagnose_completes hp hs.x) ?_)
  rintro _ _ ⟨stop, rfl⟩
  have ht := hs.stopped stop
  refine completes_bind (completes_stopped ?_)
  split
  · exact completes_pure ht
  split
  · exact completes_setStop (ht.stopped _)
  · exact completes_pure ht

theorem initialEvaluation_completes (hk : k.hooks.Observing) (hs : Ready k s) :
    completes k (initialEvaluation k) (fun _ => Ready k) s := by
  unfold initialEvaluation
  refine completes_bind (completes_visit hk (completes_bind (completes_getState (completes_bind ?_))))
  refine completes_checked (hp.evaluate hs.x) ?_
  rintro t ⟨-, hg, hh⟩
  have hmoved : Ready k { s with f := t.f, g := t.g, h := t.h } := fun y hy => { hs y hy with g := hg, h := hh }
  refine completes_bind (completes_update_of (P := Ready k) hmoved fun u hu => completes_bind (completes_getState ?_))
  split
  · exact completes_pure hu
  · refine completes_bind (completes_event (e := .note (.unqualified u.f)) (.inr ⟨_, rfl⟩) (completes_bind ?_))
    exact completes_setStop (completes_pure (hu.stopped _))

theorem initialGradient_completes (hs : Ready k s) :
    completes k (initialGradient k) (fun go t => go = true → k.Fit t) s := by
  unfold initialGradient
  refine completes_bind (completes_getState ?_)
  extract_lets updateY grade
  have hgrade : ∀ t : State F, k.Fit t → completes k (grade ()) (fun go t => go = true → k.Fit t) t := by
    intro t ht
    refine completes_bind (completes_mono (updateGradient_completes hp updateY ht) ?_)
    rintro (e | ⟨⟨⟩⟩) u ⟨ho, hu⟩
    · exact completes_bind (completes_stepFailure (ho e rfl) (completes_pure fun h => absurd h Bool.false_ne_true))
    · exact completes_bind (completes_update (completes_pure fun _ => { hu with }))
  split
  case isTrue =>
    exact completes_bind (completes_update (hgrade _ (hs _ (Vec.length_zeros _))))
  case isFalse h =>
    have hy : s.y.length = k.equalities := by simpa [updateY] using h
    exact hgrade s (hs s.y hy)

omit hp in
theorem check_completes (hvalid : k.parameterError? = none) (hfits : k.sizesFit s.y = true) :
    completes k (check k) (fun _ t => t = s) s := by
  unfold check
  rw [hvalid]
  refine completes_bind (completes_getState ?_)
  rw [if_neg (by simp [hfits])]
  exact completes_pure rfl

theorem whole_completes (hk : k.hooks.Observing) (hx : s.x.length = k.n) (hvalid : k.parameterError? = none)
    (hfits : k.sizesFit s.y = true) : completes k (whole k) (fun _ _ => True) s := by
  have hopening : completes k (opening k) (fun go t => go = true → k.Fit t) s := by
    unfold opening
    refine completes_bind (completes_log (by decide) (completes_bind (completes_visit hk (completes_bind ?_))))
    refine completes_mono (check_completes hvalid hfits) ?_
    rintro _ _ rfl
    refine completes_bind (completes_update_of (P := Ready k) (ready_prepare k hx) fun t ht => completes_bind ?_)
    refine completes_mono (initialDiagnostics_completes hp ht) fun _ t ht => completes_bind (completes_stopped ?_)
    split
    · exact completes_pure nofun
    refine completes_bind (completes_mono (initialEvaluation_completes hp hk ht) fun go u hu => ?_)
    split
    · exact completes_pure nofun
    · exact initialGradient_completes hp hu
  unfold whole
  refine completes_bind (completes_mono hopening fun go t ht => ?_)
  split
  case isTrue h => exact optimize_completes hp hk (ht h)
  case isFalse => exact finish_completes hk

end

end Running

/-! ### Runs that do not pass the check -/

/-- What the check has against a run from the multipliers `y`: what it records, and the failure it ends the run with. -/
def Setup.refusal? (k : Setup F) (y : Vec F) : Option (Message F × Failure) :=
  match k.parameterError? with
  | some e => some ([e.message], (Failure.plain e.message).context "Invalid parameters")
  | none =>
      if k.sizesFit y then none
      else
        let sizeOf (c : Option (Constraint F)) : Piece F := .size? (c.map Constraint.size)
        some (["Size mismatch: x ", k.n, ", g", sizeOf k.problem.equality, ", h", sizeOf k.problem.inequality,
          ", precond", .size? (k.problem.preconditioner.map Operator.size), ", y ", y.length],
          (Failure.plain StepError.invalidOperator.message).context "Invalid problem")

theorem Setup.refusal_eq_none {y : Vec F} :
    k.refusal? y = none ↔ k.parameterError? = none ∧ k.sizesFit y = true := by
  unfold Setup.refusal?
  cases k.parameterError? with
  | some e => simp
  | none => simp

/-- The check says what it has against a run, and leaves its state. -/
theorem Running.check_refuses {m : Message F} {f : Failure} {past : List (Event F)} (h : k.refusal? s.y = some (m, f)) :
    leads (check k) (fun _ _ _ => False)
      (fun e t q => e = .failure (k.hooks.fail f) ∧ t = s ∧ q = past ++ [.note (.record .error m), .note (.failure f)])
      s past := by
  have hfail : ∀ (m : Message F) (f : Failure) {Q : Unit → State F → List (Event F) → Prop},
      leads (fail k f) Q (fun e t q =>
        e = .failure (k.hooks.fail f) ∧ t = s ∧ q = past ++ [.note (.record .error m), .note (.failure f)])
        s (past ++ [.note (.record .error m)]) := by
    intro m f Q
    refine leads_bind (leads_event (leads_throw ⟨rfl, rfl, ?_⟩))
    simp
  unfold Setup.refusal? at h
  unfold check
  cases hvalid : k.parameterError? with
  | some e =>
    rw [hvalid] at h
    cases h
    exact leads_bind (leads_log (leads_bind (hfail _ _)))
  | none =>
    rw [hvalid] at h
    refine leads_bind (leads_getState ?_)
    dsimp only at h
    split at h
    · cases h
    case isFalse hfits =>
      cases h
      rw [if_pos (by simpa using hfits)]
      exact leads_bind (leads_log (hfail _ _))

omit [Scalar F] in
/-- The problems have the same functions up to what these do: the same sizes are declared. -/
structure Problem.SameSizes (p q : Problem F) : Prop where
  equality : p.equality.map Constraint.size = q.equality.map Constraint.size
  inequality : p.inequality.map Constraint.size = q.inequality.map Constraint.size
  preconditioner : p.preconditioner.map Operator.size = q.preconditioner.map Operator.size

/-- The check asks a problem for nothing but its sizes. -/
theorem Problem.SameSizes.refusal {p q : Problem F} (h : p.SameSizes q) (par : Parameters F) (hooks : Hooks F) (n : Nat)
    (y : Vec F) : (⟨par, p, hooks, n⟩ : Setup F).refusal? y = (⟨par, q, hooks, n⟩ : Setup F).refusal? y := by
  have hrows : ∀ c : Option (Constraint F), c.map Constraint.rows = (c.map Constraint.size).map Prod.fst := by
    rintro (_ | c) <;> rfl
  have hcols : ∀ c : Option (Constraint F), c.all (fun c => c.cols == n) = (c.map Constraint.size).all (·.2 == n) := by
    rintro (_ | c) <;> rfl
  have hsquare : ∀ b : Option (Operator F), b.all (fun b => b.size == (n, n)) = (b.map Operator.size).all (· == (n, n)) := by
    rintro (_ | b) <;> rfl
  have hequalities : p.equalities = q.equalities := by
    unfold Problem.equalities
    rw [hrows, hrows, h.equality]
  have hclass : p.problemClass = q.problemClass := by
    have hclass : ∀ p : Problem F, p.problemClass = match p.equality.map Constraint.size, p.inequality.map Constraint.size with
        | none, none => .unconstrained
        | some _, none => .equalityConstrained
        | none, some _ => .inequalityConstrained
        | some _, some _ => .constrained := by
      intro p
      unfold Problem.problemClass
      cases p.equality <;> cases p.inequality <;> rfl
    rw [hclass, hclass, h.equality, h.inequality]
  have hmissing : p.preconditioner.isNone = q.preconditioner.isNone := by
    rw [← Option.isNone_map, h.preconditioner, Option.isNone_map]
  unfold Setup.refusal? Setup.parameterError? Setup.sizesFit Setup.equalities
  dsimp only
  rw [hcols, hcols, hcols, hcols, hsquare, hsquare, hequalities, hclass, hmissing, h.equality, h.inequality,
    h.preconditioner]

omit [Scalar F] in
/-- What is left of a run from `s` that the check ends with the failure `f`: the state as it was, the visit of the first
hook point, the record `m`, and the failure told once. -/
def Solution.refused (hooks : Hooks F) (s : State F) (m : Message F) (f : Failure) : Solution F where
  result := .error (.failure (hooks.fail f))
  state := s
  events := #[.note (.record .info ["----- Initializing"]),
    .note (.record .trace [.text (Registry.text Location.beginningOfOptimization)]), .visit .beginningOfOptimization s,
    .note (.record .error m), .note (.failure f)]

theorem Problem.solve_of_refusal {p : Problem F} {par : Parameters F} {hooks : Hooks F} (hk : hooks.Observing)
    {s : State F} {m : Message F} {f : Failure}
    (h : (⟨par, p, hooks, s.x.length⟩ : Setup F).refusal? s.y = some (m, f)) :
    p.solve par hooks s = .refused hooks s m f := by
  let k : Setup F := ⟨par, p, hooks, s.x.length⟩
  have hwhole : Running.leads (Running.whole k) (fun _ _ _ => False)
      (fun e t q => e = .failure (hooks.fail f) ∧ t = s ∧ q = (Solution.refused hooks s m f).events.toList) s [] := by
    unfold Running.whole Running.opening
    refine Running.leads_bind (Running.leads_bind (Running.leads_log (Running.leads_bind (Running.leads_visit ?_))))
    rw [hk]
    exact Running.leads_bind (Running.leads_mono (Running.check_refuses h) (fun _ _ _ h => h.elim) fun _ _ _ h => h)
  obtain ⟨hok, herror⟩ := solve_leads hwhole
  generalize p.solve par hooks s = r at hok herror ⊢
  obtain ⟨e | stop, t, events⟩ := r
  · obtain ⟨rfl, ht, hevents⟩ := herror e rfl
    have hevents : events = (Solution.refused hooks s m f).events := Array.toList_inj.mp hevents
    rw [show t = s from ht, hevents]
    rfl
  · exact (hok stop rfl).elim

/-! ### Solutions -/

omit [Scalar F] in
theorem Solution.mem_notes {r : Solution F} {n : Note F} : n ∈ r.notes ↔ .note n ∈ r.events.toList := by
  unfold Solution.notes
  rw [List.mem_filterMap]
  constructor
  · rintro ⟨e, he, h⟩
    cases e <;> cases h
    exact he
  · exact fun h => ⟨_, h, rfl⟩

/-- A run that completes on iterates of `n` components: it has an answer, and all its notes are harmless. A preconditioner
that is not discreet may add notes of its own. -/
structure Solution.Completed (r : Solution F) (p : Problem F) (n : Nat) : Prop where
  answer : ∃ stop, r.result = .ok stop
  harmless : p.Discreet n → ∀ note ∈ r.notes, note.Harmless

/-- On functions that fill their sizes a run that passes the check completes, and one that does not ends there without
asking any function of its problem: every problem of the same sizes is refused with the same words. Faults of an
auxiliary solve would show in the notes. -/
theorem Problem.solve_completes (p : Problem F) (par : Parameters F) {hooks : Hooks F} (hk : hooks.Observing)
    (s₀ : State F) :
    let k : Setup F := ⟨par, p, hooks, s₀.x.length⟩
    (k.parameterError? = none ∧ k.sizesFit s₀.y = true → p.Fills k.n → (p.solve par hooks s₀).Completed p k.n) ∧
    (¬ (k.parameterError? = none ∧ k.sizesFit s₀.y = true) → ∃ m f, k.refusal? s₀.y = some (m, f) ∧
      ∀ q : Problem F, q.SameSizes p → q.solve par hooks s₀ = .refused hooks s₀ m f) ∧ FaultsTold F := by
  intro k
  refine ⟨?_, fun hunfit => ?_, faults_told⟩
  · rintro ⟨hvalid, hfits⟩ hp
    have hcalm : k.Calm [] := fun _ => List.forall_mem_nil _
    have hwhole := Running.whole_completes (s := s₀) hp hk rfl hvalid hfits [] hcalm
    obtain ⟨hok, herror⟩ := solve_leads hwhole
    cases hr : (p.solve par hooks s₀).result with
    | error e =>
      obtain rfl := herror e hr
      exact absurd hr (p.solve_ends hk.stopOnly par s₀)
    | ok stop =>
      refine ⟨⟨stop, hr⟩, fun hdiscreet note hnote => ?_⟩
      exact (hok stop hr).2 hdiscreet _ (Solution.mem_notes.mp hnote)
  · have hrefusal : k.refusal? s₀.y ≠ none := fun h => hunfit (Setup.refusal_eq_none.mp h)
    obtain ⟨⟨m, f⟩, hmf⟩ := Option.ne_none_iff_exists'.mp hrefusal
    refine ⟨m, f, hmf, fun q hq => solve_of_refusal hk ?_⟩
    rw [hq.refusal par hooks]
    exact hmf

/-! ### A half sphere -/

/-- The lowest point of a half sphere over the line `u + v = 1`. Beyond the unit disc its functions are undefined, and on
the circle its derivatives are. -/
def Problem.halfSphere : Problem Float where
  objective := {
    value := fun x => .ok (-Scalar.sqrt (1 - Vec.inner x x))
    gradient := fun x n => do return Vec.scale (1 / Scalar.sqrt (1 - Vec.inner x x)) (← Checked.copy x (Vec.zeros n))
    hessian := fun x dx n => do
      let w := Scalar.sqrt (1 - Vec.inner x x)
      return Vec.scale (1 / w) (← Checked.add (Vec.inner x dx / (w * w)) x (← Checked.copy dx (Vec.zeros n))) }
  equality := some (.unitSum 2)
  inequality := none
  preconditioner := none

theorem Problem.halfSphere_fills : halfSphere.Fills 2 where
  objective := {
    value := fun _ _ => ⟨_, rfl, trivial⟩
    gradient := fun x hx => by
      refine answers_bind (answers_copy hx (Vec.length_zeros 2)) ?_
      rintro _ rfl
      exact ⟨_, rfl, (Vec.length_scale _ _).trans hx⟩
    hessian := fun x dx hx hdx => by
      refine answers_bind (answers_copy hdx (Vec.length_zeros 2)) ?_
      rintro _ rfl
      exact answers_bind (answers_add _ hx hdx) fun v hv => ⟨_, rfl, (Vec.length_scale _ _).trans hv⟩ }
  equality := by
    rintro _ ⟨⟩
    exact {
      rows := rfl
      cols := rfl
      value := fun _ _ => ⟨_, rfl, rfl⟩
      forward := fun _ _ _ _ => ⟨_, rfl, rfl⟩
      adjoint := fun _ _ _ _ => ⟨_, rfl, List.length_replicate⟩
      second := fun _ dx _ _ hdx _ => ⟨_, rfl, (Vec.length_zerosLike dx).trans hdx⟩ }
  inequality := nofun
  preconditioner := nofun

theorem Problem.solve_completes_halfSphere :
    let par : Parameters Float := { Parameters.default with iterMax := 1 }
    let s : State Float := .new [0.5, 0.25]
    let t : State Float := s.withMultipliers [0, 0]
    (Hooks.passive (F := Float)).Observing ∧ halfSphere.Fills 2 ∧
      (halfSphere.solve par .passive s).Completed halfSphere 2 ∧
      (halfSphere.solve par .passive s).result.toOption = some .maxItersExceeded ∧
      ∃ m f, ∀ q : Problem Float, q.SameSizes halfSphere → q.solve par .passive t = .refused .passive t m f := by
  intro par s t
  have hk : (Hooks.passive (F := Float)).Observing := fun _ _ => rfl
  have hcompleted := (halfSphere.solve_completes par hk s).1 ⟨by decide +kernel, by decide +kernel⟩ halfSphere_fills
  obtain ⟨m, f, -, hrefused⟩ := (halfSphere.solve_completes par hk t).2.1 (by decide +kernel)
  exact ⟨hk, halfSphere_fills, hcompleted, by decide +kernel, m, f, hrefused⟩

end ConstrainedOpt
