import ConstrainedOpt.Proofs.Assertion.History
import ConstrainedOpt.Proofs.Reuse.Oblivious
import ConstrainedOpt.Proofs.Run.Opening

/-! # Routes of runs

A run travels from hook point to hook point. `Leg` says which hook point may come after which, how many trial points
are evaluated on the way, and what becomes of the counters of the state; `Ending` says where a run may end, and what
its counters are then. A route is a history all of whose legs are such.
-/
namespace ConstrainedOpt
variable {F : Type}

/-! ### Counters -/

/-- What a state counts. -/
structure Counters where
  iter : Nat
  rejected : Nat
  rejectedTotal : Nat
  krylovIterTotal : Nat
  lineSearchIter : Nat
  lineSearchIterTotal : Nat

def State.counters (s : State F) : Counters where
  iter := s.iter
  rejected := s.rejected
  rejectedTotal := s.rejectedTotal
  krylovIterTotal := s.krylovIterTotal
  lineSearchIter := s.lineSearchIter
  lineSearchIterTotal := s.lineSearchIterTotal

namespace Counters

def zero : Counters := ⟨0, 0, 0, 0, 0, 0⟩

/-- One more iteration. -/
def iterate (c : Counters) : Counters := { c with iter := c.iter + 1 }

/-- A new step, without rejections. -/
def restart (c : Counters) : Counters := { c with rejected := 0 }

/-- One more rejection. -/
def reject (c : Counters) : Counters :=
  { c with rejected := c.rejected + 1, rejectedTotal := c.rejectedTotal + 1 }

/-- A truncated solve of `n` iterations. -/
def solve (c : Counters) (n : Nat) : Counters := { c with krylovIterTotal := c.krylovIterTotal + n }

/-- A line search of `n` evaluations. -/
def search (c : Counters) (n : Nat) : Counters :=
  { c with lineSearchIter := n, lineSearchIterTotal := c.lineSearchIterTotal + n }

end Counters

variable [Scalar F]

/-- The iterations of a truncated solve, none if it fails. -/
def TruncatedCG.iterations (c : Journaled F (Except StepError (TruncatedResult F))) : Nat :=
  match c.answer with
  | .ok (.ok r) => r.iter
  | _ => 0

/-- The state in which an attempt from `s` computes its tangential step, if its quasinormal step is computed. -/
def TrustRegion.normalState? (k : Setup F) (s : State F) : Option (State F) :=
  match (quasinormalStep k).run ⟨s, #[]⟩ with
  | (.ok (.ok stop), r) => some { r.state with quasinormalStop := stop }
  | _ => none

/-- The iterations of the truncated solve of an attempt from `s`. -/
def Setup.krylovIterations (k : Setup F) (s : State F) : Nat :=
  match k.par.algorithm with
  | .trustRegion => ((TrustRegion.normalState? k s).map fun t =>
      TruncatedCG.iterations (TrustRegion.tangentialSolve k t)).getD 0
  | .lineSearch =>
      if k.par.direction = .newtonCg then
        TruncatedCG.iterations (LineSearch.newtonSolve k s (LineSearch.lastDirection k s))
      else 0
  | .userDefined => 0

/-! ### Legs -/

/-- The hook point that follows, if there is only one and nothing is counted on the way to it. -/
def Location.following : Location → Option Location
  | .beforeInitialFuncAndGrad => some .afterInitialFuncAndGrad
  | .afterInitialFuncAndGrad => some .beforeOptimizationLoop
  | .beforeOptimizationLoop | .endOfOptimizationIteration => some .beginningOfOptimizationLoop
  | .beforeSaveOld => some .beforeStep
  | .afterStepBeforeGradient => some .afterGradient
  | .afterGradient => some .beforeQuasi
  | .beforeQuasi => some .afterQuasi
  | _ => none

/-- A line search may begin at the hook point. -/
inductive Searches (k : Setup F) (u : State F) : Location → Prop
  | first : Searches k u .beforeLineSearch
  | again (h : u.rejected < k.par.rejectedMax) : Searches k u .afterRejectedLineSearch

/-- A run may end after the hook point with the counters it shows there. -/
inductive Location.MayEnd : Location → Prop
  | initial : MayEnd .beforeInitialFuncAndGrad
  | head : MayEnd .beginningOfOptimizationLoop
  | step : MayEnd .getStep
  | rejectedStep : MayEnd .afterRejectedTrustRegion
  | search : MayEnd .beforeLineSearch
  | rejectedSearch : MayEnd .afterRejectedLineSearch
  | moved : MayEnd .afterStepBeforeGradient

/-- Where a run may end, and with which counters: `n` trial points after the hook point that saw `u`. -/
inductive Ending (k : Setup F) : (loc : Location) → (u : State F) → (n : Nat) → Counters → Prop
  | diagnosed {u} : Ending k .beginningOfOptimization u 0 .zero
  | uncomputed {u} : Ending k .beforeGetStep u 0 (u.counters.solve (k.krylovIterations u))
  | infeasible {u} (h : k.par.algorithm = .userDefined) : Ending k .getStep u 1 u.counters
  | counted {loc u} (h : loc.MayEnd) : Ending k loc u 0 u.counters

/-- `Leg k loc u n loc' v`: after the hook point `loc`, which sees `u`, the next one may be `loc'`, which sees `v`, with
`n` trial points in between. -/
inductive Leg (k : Setup F) : (loc : Location) → (u : State F) → (n : Nat) → (loc' : Location) → (v : State F) → Prop
  | opened {u v} (h : v.counters = .zero) : Leg k .beginningOfOptimization u 0 .beforeInitialFuncAndGrad v
  | plain {loc u loc' v} (hloc : loc.following = some loc') (h : v.counters = u.counters) : Leg k loc u 0 loc' v
  | begun {u v} (hmax : u.iter < k.par.iterMax) (h : v.counters = u.counters) :
      Leg k .beginningOfOptimizationLoop u 0 .beforeSaveOld v
  | restarted {u v} (h : v.counters = u.counters.restart) : Leg k .beforeStep u 0 .beforeGetStep v
  | computed {u v} (h : v.counters = u.counters.solve (k.krylovIterations u)) : Leg k .beforeGetStep u 0 .getStep v
  | composed {u v} (ha : k.par.algorithm = .trustRegion) (h : v.counters = u.counters) :
      Leg k .getStep u 0 .beforeActualVersusPredicted v
  | accepted {u v} (h : v.counters = u.counters) : Leg k .beforeActualVersusPredicted u 1 .afterStepBeforeGradient v
  | rejected {u v} (h : v.counters = u.counters.reject) :
      Leg k .beforeActualVersusPredicted u 1 .afterRejectedTrustRegion v
  | retried {u v} (hmax : u.rejected < k.par.rejectedMax) (h : v.counters = u.counters) :
      Leg k .afterRejectedTrustRegion u 0 .beforeGetStep v
  | directed {u v} (ha : k.par.algorithm = .lineSearch) (h : v.counters = u.counters) :
      Leg k .getStep u 0 .beforeLineSearch v
  | searched {loc u n v} (hloc : Searches k u loc) (hn : 1 ≤ n) (hmax : n ≤ k.par.lineSearchIterMax)
      (h : v.counters = u.counters.search n) : Leg k loc u n .afterStepBeforeGradient v
  | missed {loc u n v} (hloc : Searches k u loc) (hn : 1 ≤ n) (hmax : n ≤ k.par.lineSearchIterMax)
      (h : v.counters = (u.counters.search n).reject) : Leg k loc u n .afterRejectedLineSearch v
  | supplied {u v} (ha : k.par.algorithm = .userDefined) (h : v.counters = u.counters) :
      Leg k .getStep u 1 .afterStepBeforeGradient v
  | counted {u v} (h : v.counters = u.counters.iterate) : Leg k .afterQuasi u 0 .endOfOptimizationIteration v
  | ended {loc u n v} (h : Ending k loc u n v.counters) : Leg k loc u n .endOfOptimization v

/-- The history `p` of a run from `s₀` has come to the hook point `loc`, which saw `u`, and to `n` trial points since. -/
inductive Route (k : Setup F) (s₀ : State F) : List (Event F) → Location → State F → Nat → Prop
  | start (notes : List (Note F)) :
      Route k s₀ (notes.map .note ++ [.visit .beginningOfOptimization s₀]) .beginningOfOptimization s₀ 0
  | note {p loc u n} (m : Note F) (h : Route k s₀ p loc u n) : Route k s₀ (p ++ [.note m]) loc u n
  | trial {p loc u n} (s : State F) (t : Trial F) (h : Route k s₀ p loc u n) :
      Route k s₀ (p ++ [.trial s t]) loc u (n + 1)
  | visit {p loc u n loc' v} (h : Route k s₀ p loc u n) (leg : Leg k loc u n loc' v) :
      Route k s₀ (p ++ [.visit loc' v]) loc' v 0

/-! ### Pieces on the way -/

omit [Scalar F] in
/-- Sees neither hook points nor trial points. -/
def Watch.none : Watch F := ⟨fun _ _ => False, fun _ _ => False⟩

variable {k : Setup F} {s₀ s t u : State F} {p : List (Event F)} {loc : Location} {n : Nat}

theorem Route.notes (h : Route k s₀ p loc u n) {es : List (Event F)} (hes : ∀ e ∈ es, Watch.none.Sees e) :
    Route k s₀ (p ++ es) loc u n := by
  induction es generalizing p with
  | nil => rwa [List.append_nil]
  | cons e es ih =>
    obtain ⟨he, hrest⟩ := List.forall_mem_cons.mp hes
    cases e with
    | note m =>
      rw [List.append_cons]
      exact ih (h.note m) hrest
    | visit => exact he.elim
    | trial => exact he.elim

/-- Neither the first hook point nor the last one. -/
structure Location.Inner (loc : Location) : Prop where
  first : loc ≠ .beginningOfOptimization
  last : loc ≠ .endOfOptimization

omit [Scalar F] in
/-- A panic in a piece from `s` that completes no iteration. -/
def Interrupted (s : State F) (e : Halt) (t : State F) : Prop := t.iter = s.iter ∧ ∃ q, e = .panic q

omit [Scalar F] in
theorem Running.wp_interrupted {α : Type} {c : Journaled F α} {Q : α → State F → Prop}
    (h : ∀ a, c.answer = .ok a → Q a s) : wp W (liftM c) Q (Interrupted s) s :=
  wp_lift h fun _ _ => ⟨rfl, _, rfl⟩

/-- A run that halts on its route: where a run may end, on a panic, or for want of passes. -/
inductive Stranded (k : Setup F) (s₀ : State F) (e : Halt) (t : State F) (p : List (Event F)) : Prop
  | ended {loc : Location} {u : State F} {n : Nat} (route : Route k s₀ p loc u n) (ending : Ending k loc u n t.counters)
  | panicked {loc : Location} {u : State F} {n : Nat} {q : Panic} (route : Route k s₀ p loc u n)
      (hloc : loc.Inner) (he : e = .panic q) (hiter : t.iter = u.iter)
  | exhausted (he : e = .outOfFuel)

theorem Stranded.of_interrupted {e : Halt} (h : Interrupted s e t) (hs : s.iter = u.iter) (route : Route k s₀ p loc u n)
    (hloc : loc.Inner) : Stranded k s₀ e t p := by
  obtain ⟨hiter, q, he⟩ := h
  exact .panicked route hloc he (hiter.trans hs)

/-- A run that stops on its route, within the bound on its iterations unless that is what stops it. -/
structure Stopped (k : Setup F) (s₀ t : State F) (p : List (Event F)) : Prop where
  stop : t.stop ≠ .notConverged
  max : t.stop = .maxItersExceeded → k.par.iterMax ≤ t.iter
  route : ∃ loc u n, Route k s₀ p loc u n ∧ Ending k loc u n t.counters

namespace Running
variable {α : Type}

/-- A piece without hook points and trial points leaves a route where it is. -/
theorem leads_none {c : Running F α} {Q : α → State F → Prop} {E : Halt → State F → Prop}
    {Q' : α → State F → List (Event F) → Prop} {E' : Halt → State F → List (Event F) → Prop}
    (hp : Route k s₀ p loc u n) (h : wp .none c Q E s) (hQ : ∀ a t q, Q a t → Route k s₀ q loc u n → Q' a t q)
    (hE : ∀ e t q, E e t → Route k s₀ q loc u n → E' e t q) : leads c Q' E' s p := by
  intro events
  obtain ⟨es, hes, hsees, hok, herror⟩ := wp_run h events
  refine ⟨es, hes, ?_⟩
  split
  case h_1 a ha => exact hQ a _ _ (hok a ha) (hp.notes hsees)
  case h_2 e he => exact hE e _ _ (herror e he) (hp.notes hsees)

theorem leads_note {m : Note F} {Q : Unit → State F → List (Event F) → Prop}
    {E : Halt → State F → List (Event F) → Prop} (hp : Route k s₀ p loc u n)
    (h : ∀ q, Route k s₀ q loc u n → Q () s q) : leads (event (.note m)) Q E s p := leads_event (h _ (hp.note m))

theorem leads_fail {f : Failure} {Q : α → State F → List (Event F) → Prop} {E : Halt → State F → List (Event F) → Prop}
    (hp : Route k s₀ p loc u n) (h : ∀ q, Route k s₀ q loc u n → E (.failure (k.hooks.fail f)) s q) :
    leads (fail k f) Q E s p := leads_bind (leads_note hp fun q hq => leads_throw (h q hq))

theorem leads_stepFailure {e : StepError} {context : String} {Q : Unit → State F → List (Event F) → Prop}
    {E : Halt → State F → List (Event F) → Prop} (hp : Route k s₀ p loc u n)
    (hstop : ∀ q, Route k s₀ q loc u n → Q () { s with stop := .globalizationFailure } q)
    (hfail : ∀ f q, Route k s₀ q loc u n → E (.failure f) s q) : leads (stepFailure k e context) Q E s p := by
  unfold stepFailure
  split
  · exact leads_bind (leads_note hp fun q hq => leads_setStop (hstop q hq))
  · exact leads_bind (leads_note hp fun q hq => leads_fail hq (hfail _))

/-- The next hook point of a route. -/
theorem leads_hook (hk : k.hooks.Observing) {loc' : Location} {Q : Unit → State F → List (Event F) → Prop}
    {E : Halt → State F → List (Event F) → Prop} (hp : Route k s₀ p loc u n) (leg : Leg k loc u n loc' s)
    (h : ∀ q, Route k s₀ q loc' s 0 → Q () s q) : leads (visit k loc') Q E s p := by
  apply leads_visit
  rw [hk]
  exact h _ ((hp.note _).visit leg)

/-- One more trial point on the way. -/
theorem leads_tryStep {dx : Vec F} {a : F} {Q : Trial F → State F → List (Event F) → Prop} (hp : Route k s₀ p loc u n)
    (hloc : loc.Inner) (hs : s.iter = u.iter) (h : ∀ v q, Route k s₀ q loc u (n + 1) → Q v s q) :
    leads (tryStep k dx a) Q (Stranded k s₀) s p := by
  unfold tryStep
  refine leads_bind (leads_getState (leads_bind ?_))
  refine leads_none hp (wp_interrupted (Q := fun _ t => t = s) fun _ _ => rfl) ?_
    fun e t q he hq => .of_interrupted he hs hq hloc
  rintro v _ q rfl hq
  exact leads_bind (leads_event (leads_pure (h v _ (hq.trial _ v))))

end Running
end ConstrainedOpt
