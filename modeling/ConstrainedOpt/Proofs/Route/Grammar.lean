import ConstrainedOpt.Proofs.Route.Runs
import ConstrainedOpt.Scalar.Binary64

/-! # The order of the hook points

The hook points of an observed run form a word of a grammar that only depends on the algorithm: an opening, complete
iterations, part of one more, and the last hook point if the run answers. How often a hook point is visited is then
read off the counters of the state.
-/
namespace ConstrainedOpt
variable {F : Type}

/-! ### Words -/

namespace Location

/-- What comes before the first iteration. -/
def opening : List Location :=
  [.beginningOfOptimization, .beforeInitialFuncAndGrad, .afterInitialFuncAndGrad, .beforeOptimizationLoop]

/-- What comes before the step of an iteration. -/
def lead : List Location := [.beginningOfOptimizationLoop, .beforeSaveOld, .beforeStep]

/-- The hook points a run may end after. -/
def ends : List Location :=
  [.beginningOfOptimization, .beforeInitialFuncAndGrad, .beginningOfOptimizationLoop, .beforeGetStep, .getStep,
    .afterRejectedTrustRegion, .beforeLineSearch, .afterRejectedLineSearch, .afterStepBeforeGradient]

/-- What belongs to the steps. -/
def steps : List Location :=
  [.beforeGetStep, .getStep, .beforeActualVersusPredicted, .afterRejectedTrustRegion, .beforeLineSearch,
    .afterRejectedLineSearch]

/-- A step has been rejected. -/
def isRejection : Location → Bool
  | .afterRejectedTrustRegion | .afterRejectedLineSearch => true
  | _ => false

/-- What comes after the step of an iteration. -/
def landing : List Location :=
  [.afterStepBeforeGradient, .afterGradient, .beforeQuasi, .afterQuasi, .endOfOptimizationIteration]

end Location

namespace Algorithm
open Location

/-- A step with `n` rejections. -/
def stepWord : Algorithm → (n : Nat) → List Location
  | .trustRegion, n =>
      (List.replicate n [.beforeGetStep, .getStep, .beforeActualVersusPredicted, .afterRejectedTrustRegion]).flatten ++
        [.beforeGetStep, .getStep, .beforeActualVersusPredicted]
  | .lineSearch, n => [.beforeGetStep, .getStep, .beforeLineSearch] ++ List.replicate n .afterRejectedLineSearch
  | .userDefined, _ => [.beforeGetStep, .getStep]

/-- A complete iteration with `n` rejections. -/
def iterationWord (a : Algorithm) (n : Nat) : List Location := lead ++ a.stepWord n ++ landing

/-- The hook points of a run before its last one: part of the opening, or the opening, complete iterations with the given
numbers of rejections, and part of one more. -/
inductive Word (a : Algorithm) : List Location → Prop
  | opening {w : List Location} (hw : w ≠ []) (h : w <+: Location.opening) : Word a w
  | looping (rejections : List Nat) (n : Nat) {last : List Location} (h : last <+: a.iterationWord n) :
      Word a (Location.opening ++ rejections.flatMap a.iterationWord ++ last)

/-- One more rejection and the next attempt. -/
def again : Algorithm → List Location
  | .trustRegion => [.afterRejectedTrustRegion, .beforeGetStep, .getStep, .beforeActualVersusPredicted]
  | .lineSearch => [.afterRejectedLineSearch]
  | .userDefined => []

theorem stepWord_succ (a : Algorithm) (n : Nat) : a.stepWord (n + 1) = a.stepWord n ++ a.again := by
  cases a with
  | trustRegion => simp [stepWord, again, List.replicate_succ']
  | lineSearch => simp [stepWord, again, List.replicate_succ']
  | userDefined => simp [stepWord, again]

/-- What is left of an iteration after the hook point, if nothing more is rejected. -/
def rest (a : Algorithm) : Location → List Location
  | .beginningOfOptimizationLoop => [.beforeSaveOld, .beforeStep] ++ a.stepWord 0 ++ landing
  | .beforeSaveOld => [.beforeStep] ++ a.stepWord 0 ++ landing
  | .beforeStep | .afterRejectedTrustRegion => a.stepWord 0 ++ landing
  | .beforeGetStep => (a.stepWord 0).drop 1 ++ landing
  | .getStep => (a.stepWord 0).drop 2 ++ landing
  | .afterStepBeforeGradient => landing.drop 1
  | .afterGradient => landing.drop 2
  | .beforeQuasi => landing.drop 3
  | .afterQuasi => landing.drop 4
  | .endOfOptimizationIteration => []
  | _ => landing

/-- An iteration that has come to its hook point `loc`, after the hook points `past` and `n` rejections. -/
def Within (a : Algorithm) (loc : Location) (past : List Location) (n : Nat) : Prop :=
  past ++ loc :: a.rest loc = a.iterationWord n

variable {a : Algorithm} {loc loc' : Location} {past : List Location} {n : Nat}

theorem Within.head : a.Within .beginningOfOptimizationLoop [] 0 := rfl

theorem Within.next (h : a.Within loc past n) (hrest : a.rest loc = loc' :: a.rest loc') :
    a.Within loc' (past ++ [loc]) n := by
  unfold Within
  rw [List.append_assoc, List.singleton_append, ← hrest]
  exact h

/-- A rejection, after which the iteration would have landed. -/
theorem Within.rejected (h : a.Within loc past n) (hloc : a.rest loc = landing)
    (hrest : a.again ++ landing = loc' :: a.rest loc') : a.Within loc' (past ++ [loc]) (n + 1) := by
  have hpast : past ++ [loc] = lead ++ a.stepWord n := by
    unfold Within iterationWord at h
    rw [hloc, ← List.singleton_append, ← List.append_assoc] at h
    exact List.append_cancel_right h
  calc past ++ [loc] ++ loc' :: a.rest loc'
      = lead ++ a.stepWord n ++ (a.again ++ landing) := by rw [hpast, hrest]
    _ = a.iterationWord (n + 1) := by simp only [iterationWord, stepWord_succ, List.append_assoc]

theorem Within.mem (h : a.Within loc past n) : loc ∈ a.iterationWord n := by
  rw [← h]
  simp

theorem Within.isPrefix (h : a.Within loc past n) : past ++ [loc] <+: a.iterationWord n := by
  refine ⟨a.rest loc, ?_⟩
  rw [← h, List.append_assoc, List.singleton_append]

theorem eq_trustRegion_of_mem (h : .beforeActualVersusPredicted ∈ a.iterationWord n) : a = .trustRegion := by
  cases a with
  | trustRegion => rfl
  | lineSearch => simp [iterationWord, stepWord, lead, landing] at h
  | userDefined => simp [iterationWord, stepWord, lead, landing] at h

theorem eq_lineSearch_of_mem (h : .beforeLineSearch ∈ a.iterationWord n ∨ .afterRejectedLineSearch ∈ a.iterationWord n) :
    a = .lineSearch := by
  cases a with
  | trustRegion => simp [iterationWord, stepWord, lead, landing] at h
  | lineSearch => rfl
  | userDefined => simp [iterationWord, stepWord, lead, landing] at h

/-- Where a run stands that has come to the hook point `loc` with `iter` complete iterations, and its word. -/
inductive Stands (a : Algorithm) : (loc : Location) → (iter : Nat) → List Location → Prop
  | first {iter : Nat} : Stands a .beginningOfOptimization iter [.beginningOfOptimization]
  | initial : Stands a .beforeInitialFuncAndGrad 0 [.beginningOfOptimization, .beforeInitialFuncAndGrad]
  | evaluated : Stands a .afterInitialFuncAndGrad 0
      [.beginningOfOptimization, .beforeInitialFuncAndGrad, .afterInitialFuncAndGrad]
  | ready : Stands a .beforeOptimizationLoop 0 Location.opening
  | within {loc : Location} {past : List Location} {n : Nat} (rejections : List Nat) (h : a.Within loc past n)
      (hloc : loc ≠ .endOfOptimizationIteration) :
      Stands a loc rejections.length (Location.opening ++ rejections.flatMap a.iterationWord ++ (past ++ [loc]))
  | between (rejections : List Nat) : Stands a .endOfOptimizationIteration rejections.length
      (Location.opening ++ rejections.flatMap a.iterationWord)
  | answered {loc : Location} {iter : Nat} {w : List Location} (h : Stands a loc iter w) (hloc : loc ∈ Location.ends) :
      Stands a .endOfOptimization iter (w ++ [.endOfOptimization])

theorem mem_steps_of_mem_stepWord (h : loc ∈ a.stepWord n) : loc ∈ Location.steps := by
  cases a <;> simp [stepWord, Location.steps] at h ⊢ <;> grind

theorem not_mem_iterationWord (h : loc ∈ .endOfOptimization :: Location.opening) : loc ∉ a.iterationWord n := by
  have hdisjoint : ∀ x ∈ .endOfOptimization :: Location.opening, x ∉ lead ∧ x ∉ steps ∧ x ∉ landing := by decide
  obtain ⟨hlead, hstep, hland⟩ := hdisjoint loc h
  unfold iterationWord
  rw [List.mem_append, List.mem_append]
  rintro ((hmem | hmem) | hmem)
  · exact hlead hmem
  · exact hstep (mem_steps_of_mem_stepWord hmem)
  · exact hland hmem

/-- A complete iteration visits what is not part of its step once. -/
theorem count_iterationWord (h : loc ∈ .beginningOfOptimizationLoop :: landing.drop 1) :
    (a.iterationWord n).count loc = 1 := by
  have hdisjoint : ∀ x ∈ .beginningOfOptimizationLoop :: landing.drop 1,
      x ∉ steps ∧ lead.count x + landing.count x = 1 := by decide
  obtain ⟨hstep, hcount⟩ := hdisjoint loc h
  have hzero : (a.stepWord n).count loc = 0 :=
    List.count_eq_zero_of_not_mem fun hmem => hstep (mem_steps_of_mem_stepWord hmem)
  unfold iterationWord
  rw [List.count_append, List.count_append, hzero]
  exact hcount

theorem count_iterationWords (h : loc ∈ .beginningOfOptimizationLoop :: landing.drop 1) (rejections : List Nat) :
    (rejections.flatMap a.iterationWord).count loc = rejections.length := by
  induction rejections with
  | nil => rfl
  | cons n rejections ih => rw [List.flatMap_cons, List.count_append, count_iterationWord h, ih, List.length_cons,
      Nat.add_comm]

theorem count_opening : ∀ x ∈ .beginningOfOptimizationLoop :: landing.drop 1, Location.opening.count x = 0 := by decide

theorem count_rest (h : loc ∈ Location.ends) :
    (a.rest loc).count .beginningOfOptimizationLoop = 0 ∧ ∀ x ∈ landing.drop 1, (a.rest loc).count x = 1 := by
  revert loc
  cases a <;> decide

/-- The words of the grammar begin with the first hook point, and the last one is not among them. -/
theorem Word.ends {w : List Location} (h : a.Word w) :
    w.head? = some .beginningOfOptimization ∧ .endOfOptimization ∉ w := by
  cases h with
  | opening hw h =>
    refine ⟨?_, fun hmem => ?_⟩
    · cases w with
      | nil => exact absurd rfl hw
      | cons loc w => exact congrArg some (List.cons_prefix_cons.mp h).1
    · exact absurd (h.subset hmem) (by decide)
  | looping rejections n h =>
    refine ⟨rfl, fun hmem => ?_⟩
    rw [List.mem_append, List.mem_append, List.mem_flatMap] at hmem
    rcases hmem with (hmem | ⟨m, -, hmem⟩) | hmem
    · exact absurd hmem (by decide)
    · exact not_mem_iterationWord List.mem_cons_self hmem
    · exact not_mem_iterationWord List.mem_cons_self (h.subset hmem)

namespace Stands
variable {iter : Nat} {w : List Location}

theorem eq_within (h : Stands a loc iter w) (hloc : loc ∉ Location.opening) (hlast : loc ≠ .endOfOptimizationIteration)
    (hend : loc ≠ .endOfOptimization) :
    ∃ (rejections : List Nat) (past : List Location) (n : Nat), a.Within loc past n ∧ iter = rejections.length ∧
      w = Location.opening ++ rejections.flatMap a.iterationWord ++ (past ++ [loc]) := by
  cases h with
  | within rejections h => exact ⟨rejections, _, _, h, rfl, rfl⟩
  | between => exact absurd rfl hlast
  | answered => exact absurd rfl hend
  | _ => exact absurd (by decide) hloc

/-- Inside an iteration a run goes on to what is left of it. -/
theorem next (h : Stands a loc iter w) (hloc : loc ∉ Location.opening) (hlast : loc ≠ .endOfOptimizationIteration)
    (hend : loc ≠ .endOfOptimization) (hrest : a.rest loc = loc' :: a.rest loc')
    (hloc' : loc' ≠ .endOfOptimizationIteration) : Stands a loc' iter (w ++ [loc']) := by
  obtain ⟨rejections, past, n, hwithin, rfl, rfl⟩ := h.eq_within hloc hlast hend
  rw [List.append_assoc]
  exact .within rejections (hwithin.next hrest) hloc'

theorem rejected (h : Stands a loc iter w) (hloc : loc ∉ Location.opening) (hlast : loc ≠ .endOfOptimizationIteration)
    (hend : loc ≠ .endOfOptimization) (hland : a.rest loc = landing)
    (hrest : ∀ n, loc ∈ a.iterationWord n → a.again ++ landing = loc' :: a.rest loc')
    (hloc' : loc' ≠ .endOfOptimizationIteration) : Stands a loc' iter (w ++ [loc']) := by
  obtain ⟨rejections, past, n, hwithin, rfl, rfl⟩ := h.eq_within hloc hlast hend
  rw [List.append_assoc]
  exact .within rejections (hwithin.rejected hland (hrest n hwithin.mem)) hloc'

/-- The last hook point of an iteration completes it. -/
theorem complete (h : Stands a .afterQuasi iter w) :
    Stands a .endOfOptimizationIteration (iter + 1) (w ++ [.endOfOptimizationIteration]) := by
  obtain ⟨rejections, past, n, hwithin, rfl, rfl⟩ := h.eq_within (by decide) nofun nofun
  have hword : past ++ [.afterQuasi] ++ [.endOfOptimizationIteration] = a.iterationWord n := by
    rw [← hwithin]
    simp [rest, landing]
  have hall : Location.opening ++ rejections.flatMap a.iterationWord ++ (past ++ [.afterQuasi]) ++
      [.endOfOptimizationIteration] = Location.opening ++ (rejections ++ [n]).flatMap a.iterationWord := by
    simp only [List.append_assoc, List.flatMap_append, List.flatMap_singleton, ← hword]
  have hlength : rejections.length + 1 = (rejections ++ [n]).length := by simp
  rw [hall, hlength]
  exact .between _

theorem eq_first (h : Stands a .beginningOfOptimization iter w) : w = [.beginningOfOptimization] := by
  cases h with
  | first => rfl
  | within _ h => exact absurd h.mem (not_mem_iterationWord (by decide))

theorem open_evaluated (h : Stands a .beforeInitialFuncAndGrad iter w) :
    Stands a .afterInitialFuncAndGrad iter (w ++ [.afterInitialFuncAndGrad]) := by
  cases h with
  | initial => exact .evaluated
  | within _ h => exact absurd h.mem (not_mem_iterationWord (by decide))

theorem open_ready (h : Stands a .afterInitialFuncAndGrad iter w) :
    Stands a .beforeOptimizationLoop iter (w ++ [.beforeOptimizationLoop]) := by
  cases h with
  | evaluated => exact .ready
  | within _ h => exact absurd h.mem (not_mem_iterationWord (by decide))

/-- An iteration begins after the opening, or after the last one. -/
theorem begin (h : Stands a loc iter w) (hloc : loc = .beforeOptimizationLoop ∨ loc = .endOfOptimizationIteration) :
    Stands a .beginningOfOptimizationLoop iter (w ++ [.beginningOfOptimizationLoop]) := by
  cases h with
  | ready => exact .within [] .head nofun
  | between rejections => exact .within rejections .head nofun
  | within _ h hlast =>
    obtain rfl := hloc.resolve_right hlast
    exact absurd h.mem (not_mem_iterationWord (by decide))
  | _ => simp at hloc

theorem eq_answered (h : Stands a .endOfOptimization iter w) :
    ∃ loc past, Stands a loc iter past ∧ loc ∈ Location.ends ∧ w = past ++ [.endOfOptimization] := by
  cases h with
  | within _ h => exact absurd h.mem (not_mem_iterationWord (by decide))
  | answered h hloc => exact ⟨_, _, h, hloc, rfl⟩

theorem word (h : Stands a loc iter w) (hloc : loc ≠ .endOfOptimization) : a.Word w := by
  cases h with
  | first => exact .opening nofun (by decide)
  | initial => exact .opening nofun (by decide)
  | evaluated => exact .opening nofun (by decide)
  | ready => exact .opening nofun (by decide)
  | within rejections h => exact .looping rejections _ h.isPrefix
  | between rejections =>
    rw [← List.append_nil (Location.opening ++ _)]
    exact .looping rejections 0 (List.nil_prefix)
  | answered => exact absurd rfl hloc

/-- Where a run may end in its loop, it has begun one iteration more than it has completed. -/
theorem count (h : Stands a loc iter w) (hloc : loc ∈ Location.ends) (hloop : .beginningOfOptimizationLoop ∈ w) :
    w.count .beginningOfOptimizationLoop = iter + 1 ∧ ∀ x ∈ landing.drop 1, w.count x = iter := by
  cases h with
  | within rejections h =>
    rename_i past n _
    have hlast : ∀ x, (past ++ [loc]).count x + (a.rest loc).count x = (a.iterationWord n).count x := by
      intro x
      rw [← h, ← List.count_append, List.append_assoc, List.singleton_append]
    have hrest := count_rest (a := a) hloc
    refine ⟨?_, fun x hx => ?_⟩
    · have hl := hlast .beginningOfOptimizationLoop
      rw [count_iterationWord List.mem_cons_self, hrest.1] at hl
      rw [List.count_append, List.count_append, count_opening _ List.mem_cons_self, count_iterationWords List.mem_cons_self]
      omega
    · have hx' := List.mem_cons_of_mem .beginningOfOptimizationLoop hx
      have hl := hlast x
      rw [count_iterationWord hx', hrest.2 x hx] at hl
      rw [List.count_append, List.count_append, count_opening _ hx', count_iterationWords hx']
      omega
  | first => exact absurd hloop (by decide)
  | initial => exact absurd hloop (by decide)
  | _ => exact absurd hloc (by decide)

/-- Between two iterations a run has visited as often as it has completed one what comes after each step. -/
theorem count_between (h : Stands a .endOfOptimizationIteration iter w) : ∀ x ∈ landing.drop 1, w.count x = iter := by
  intro x hx
  have hx := List.mem_cons_of_mem .beginningOfOptimizationLoop hx
  cases h with
  | within _ _ hloc => exact absurd rfl hloc
  | between rejections => rw [List.count_append, count_opening _ hx, count_iterationWords hx, Nat.zero_add]

/-- Before the hook point after the pair of an iteration is stored there are as many sound gradients of accepted points as
pairs, and one more. -/
theorem count_stored {before : List Location} (h : Stands a .afterQuasi iter (before ++ [.afterQuasi])) :
    before.count .afterGradient = before.count .afterQuasi + 1 := by
  have hgradient := h.complete.count_between .afterGradient (by decide)
  have hquasi := h.complete.count_between .afterQuasi (by decide)
  have hnone : ([.afterQuasi] ++ [.endOfOptimizationIteration] : List Location).count .afterGradient = 0 := by decide
  have hone : ([.afterQuasi] ++ [.endOfOptimizationIteration] : List Location).count .afterQuasi = 1 := by decide
  rw [List.append_assoc, List.count_append] at hgradient hquasi
  omega

end Stands
end Algorithm

/-! ### Words of routes -/

variable [Scalar F] {k : Setup F} {s₀ u v : State F} {p : List (Event F)} {loc loc' : Location} {n : Nat}

namespace Event

omit [Scalar F] in
/-- The hook points visited. -/
def locations (es : List (Event F)) : List Location := (visits es).map Prod.fst

omit [Scalar F] in
theorem visits_start (notes : List (Note F)) (loc : Location) (s : State F) :
    visits (notes.map .note ++ [.visit loc s]) = [(loc, s)] := by
  induction notes with
  | nil => rfl
  | cons m notes ih => exact ih

omit [Scalar F] in
@[simp] theorem locations_start (notes : List (Note F)) (loc : Location) (s : State F) :
    locations (notes.map .note ++ [.visit loc s]) = [loc] := by
  unfold locations
  rw [visits_start]
  rfl

omit [Scalar F] in
@[simp] theorem locations_note (p : List (Event F)) (m : Note F) : locations (p ++ [.note m]) = locations p := by
  simp [locations]

omit [Scalar F] in
@[simp] theorem locations_trial (p : List (Event F)) (s : State F) (t : Trial F) :
    locations (p ++ [.trial s t]) = locations p := by
  simp [locations]

omit [Scalar F] in
@[simp] theorem locations_visit (p : List (Event F)) (loc : Location) (s : State F) :
    locations (p ++ [.visit loc s]) = locations p ++ [loc] := by
  simp [locations]

end Event

theorem Ending.mem_ends {c : Counters} (h : Ending k loc u n c) : loc ∈ Location.ends := by
  cases h with
  | counted h => cases h <;> decide
  | _ => decide

/-- The end of a run completes no iteration and rejects no step. -/
theorem Ending.counts {c : Counters} (h : Ending k loc u n c) :
    loc = .beginningOfOptimization ∧ c = .zero ∨
      loc ≠ .beginningOfOptimization ∧ c.iter = u.iter ∧ c.rejectedTotal = u.rejectedTotal := by
  cases h with
  | diagnosed => exact .inl ⟨rfl, rfl⟩
  | uncomputed => exact .inr ⟨nofun, rfl, rfl⟩
  | infeasible => exact .inr ⟨nofun, rfl, rfl⟩
  | counted h => exact .inr ⟨by cases h <;> nofun, rfl, rfl⟩

/-- A leg takes a run from where it stands to where it stands next. -/
theorem Leg.stands (leg : Leg k loc u n loc' v) {w : List Location} (h : k.par.algorithm.Stands loc u.iter w) :
    k.par.algorithm.Stands loc' v.iter (w ++ [loc']) := by
  have hsame : ∀ c : Counters, v.counters = c → c.iter = u.iter → v.iter = u.iter := by
    rintro _ rfl hc
    exact hc
  cases leg with
  | opened hv =>
    have hiter : v.iter = 0 := congrArg Counters.iter hv
    rw [hiter]
    exact h.eq_first ▸ .initial
  | plain hloc hv =>
    rw [hsame _ hv rfl]
    cases loc <;> simp only [Location.following, Option.some.injEq, reduceCtorEq] at hloc <;> subst hloc
    case beforeInitialFuncAndGrad => exact h.open_evaluated
    case afterInitialFuncAndGrad => exact h.open_ready
    case beforeOptimizationLoop => exact h.begin (.inl rfl)
    case endOfOptimizationIteration => exact h.begin (.inr rfl)
    all_goals exact h.next (by decide) nofun nofun rfl nofun
  | begun _ hv =>
    rw [hsame _ hv rfl]
    exact h.next (by decide) nofun nofun rfl nofun
  | restarted hv =>
    rw [hsame _ hv rfl]
    exact h.next (by decide) nofun nofun (by cases k.par.algorithm <;> rfl) nofun
  | computed hv =>
    rw [hsame _ hv rfl]
    exact h.next (by decide) nofun nofun (by cases k.par.algorithm <;> rfl) nofun
  | composed ha hv =>
    rw [hsame _ hv rfl]
    exact h.next (by decide) nofun nofun (by rw [ha]; rfl) nofun
  | accepted hv =>
    rw [hsame _ hv rfl]
    exact h.next (by decide) nofun nofun rfl nofun
  | rejected hv =>
    rw [hsame _ hv rfl]
    refine h.rejected (by decide) nofun nofun rfl (fun n hmem => ?_) nofun
    rw [Algorithm.eq_trustRegion_of_mem hmem]
    rfl
  | retried _ hv =>
    rw [hsame _ hv rfl]
    exact h.next (by decide) nofun nofun (by cases k.par.algorithm <;> rfl) nofun
  | directed ha hv =>
    rw [hsame _ hv rfl]
    exact h.next (by decide) nofun nofun (by rw [ha]; rfl) nofun
  | searched hloc _ _ hv =>
    rw [hsame _ hv rfl]
    cases hloc with
    | first => exact h.next (by decide) nofun nofun rfl nofun
    | again => exact h.next (by decide) nofun nofun rfl nofun
  | missed hloc _ _ hv =>
    rw [hsame _ hv rfl]
    cases hloc with
    | first =>
      refine h.rejected (by decide) nofun nofun rfl (fun n hmem => ?_) nofun
      rw [Algorithm.eq_lineSearch_of_mem (.inl hmem)]
      rfl
    | again =>
      refine h.rejected (by decide) nofun nofun rfl (fun n hmem => ?_) nofun
      rw [Algorithm.eq_lineSearch_of_mem (.inr hmem)]
      rfl
  | supplied ha hv =>
    rw [hsame _ hv rfl]
    exact h.next (by decide) nofun nofun (by rw [ha]; rfl) nofun
  | counted hv =>
    have hiter : v.iter = u.iter + 1 := congrArg Counters.iter hv
    rw [hiter]
    exact h.complete
  | ended hending =>
    rcases hending.counts with ⟨rfl, -⟩ | ⟨-, hiter, -⟩
    · rw [h.eq_first]
      exact .answered .first (by decide)
    · rw [show v.iter = u.iter from hiter]
      exact .answered h hending.mem_ends

theorem Route.stands (h : Route k s₀ p loc u n) : k.par.algorithm.Stands loc u.iter (Event.locations p) := by
  induction h with
  | start notes =>
    rw [Event.locations_start]
    exact .first
  | note m _ ih => rwa [Event.locations_note]
  | trial s t _ ih => rwa [Event.locations_trial]
  | visit _ leg ih =>
    rw [Event.locations_visit]
    exact leg.stands ih

/-- When the pair of an iteration has been stored, as many points have been accepted with a sound gradient as pairs have
been stored. -/
theorem Route.count_stored (h : Route k s₀ p loc u n) {before after : List Location}
    (hp : Event.locations p = before ++ .afterQuasi :: after) :
    before.count .afterGradient = before.count .afterQuasi + 1 := by
  induction h generalizing after with
  | start notes =>
    rw [Event.locations_start] at hp
    cases before with
    | nil => cases hp
    | cons _ before => exact absurd (List.cons.inj hp).2 (by simp)
  | note m _ ih => exact ih (Event.locations_note _ _ ▸ hp)
  | trial s t _ ih => exact ih (Event.locations_trial _ _ _ ▸ hp)
  | visit hroute leg ih =>
    rw [Event.locations_visit] at hp
    rcases List.eq_nil_or_concat after with rfl | ⟨after, last, rfl⟩
    · have hstands := leg.stands hroute.stands
      obtain ⟨-, hlast⟩ := List.append_inj' hp rfl
      rw [hp] at hstands
      obtain rfl := List.singleton_inj.mp hlast
      exact hstands.count_stored
    · rw [List.concat_eq_append, ← List.cons_append, ← List.append_assoc] at hp
      exact ih (List.append_inj' hp rfl).1

/-- A leg that rejects a step counts it. -/
theorem Leg.rejectedTotal (leg : Leg k loc u n loc' v) :
    (if loc' = .beginningOfOptimization then 0 else v.rejectedTotal) =
      (if loc = .beginningOfOptimization then 0 else u.rejectedTotal) + if loc'.isRejection then 1 else 0 := by
  have hsame : ∀ c : Counters, v.counters = c → v.rejectedTotal = c.rejectedTotal := by
    rintro _ rfl
    rfl
  cases leg with
  | plain hloc hv =>
    rw [hsame _ hv]
    cases loc <;> simp only [Location.following, Option.some.injEq, reduceCtorEq] at hloc <;> subst hloc <;> rfl
  | searched hloc _ _ hv =>
    rw [hsame _ hv]
    cases hloc <;> rfl
  | missed hloc _ _ hv =>
    rw [hsame _ hv]
    cases hloc <;> rfl
  | ended hending =>
    rcases hending.counts with ⟨rfl, hzero⟩ | ⟨hloc, -, htotal⟩
    · exact congrArg Counters.rejectedTotal hzero
    · rw [if_neg hloc]
      exact htotal
  | opened hv | begun _ hv | restarted hv | computed hv | composed _ hv | accepted hv | rejected hv | retried _ hv
  | directed _ hv | supplied _ hv | counted hv =>
    rw [hsame _ hv]
    rfl

theorem Route.rejectedTotal (h : Route k s₀ p loc u n) :
    (Event.locations p).countP Location.isRejection =
      if loc = .beginningOfOptimization then 0 else u.rejectedTotal := by
  induction h with
  | start notes =>
    rw [Event.locations_start]
    rfl
  | note m _ ih => rwa [Event.locations_note]
  | trial s t _ ih => rwa [Event.locations_trial]
  | visit _ leg ih => rw [Event.locations_visit, List.countP_append, ih, leg.rejectedTotal, List.countP_singleton]

/-! ### Runs -/

omit [Scalar F] in
/-- The hook points visited. -/
def Solution.locations (r : Solution F) : List Location := r.visits.map Prod.fst

omit [Scalar F] in
/-- The hook points of a run follow the order of the algorithm. They begin with the first one. The last one comes last,
and once, if the run answers; otherwise it does not come. How often the others are visited in the loop of a run that
answers is what the state counts. -/
structure Solution.Follows (a : Algorithm) (r : Solution F) : Prop where
  first : r.locations.head? = some .beginningOfOptimization
  answered : ∀ stop, r.result = .ok stop →
    ∃ w, a.Word w ∧ .endOfOptimization ∉ w ∧ r.locations = w ++ [.endOfOptimization]
  halted : ∀ e, r.result = .error e → a.Word r.locations ∧ .endOfOptimization ∉ r.locations
  counted : ∀ stop, r.result = .ok stop → .beginningOfOptimizationLoop ∈ r.locations →
    r.locations.count .beginningOfOptimizationLoop = r.state.iter + 1 ∧
      (∀ loc ∈ Location.landing.drop 1, r.locations.count loc = r.state.iter) ∧
      r.locations.countP Location.isRejection = r.state.rejectedTotal

theorem Solution.Travels.exists_route {r : Solution F} (h : r.Travels k s₀) :
    ∃ loc u n, Route k s₀ r.events.toList loc u n := by
  cases h with
  | answered _ h => exact ⟨_, _, _, h.route⟩
  | halted _ _ route => exact ⟨_, _, _, route⟩
  | refused _ h => exact ⟨_, _, _, h.route⟩
  | panicked _ route => exact ⟨_, _, _, route⟩

/-- An observed run follows the order of its algorithm. -/
theorem Problem.solve_follows (p : Problem F) (par : Parameters F) {hooks : Hooks F} (hk : hooks.Observing)
    (s₀ : State F) : (p.solve par hooks s₀).Follows par.algorithm := by
  have hlocations : (p.solve par hooks s₀).locations = Event.locations (p.solve par hooks s₀).events.toList := rfl
  have hhalted : ∀ {e loc u n}, (p.solve par hooks s₀).result = .error e →
      Route ⟨par, p, hooks, s₀.x.length⟩ s₀ (p.solve par hooks s₀).events.toList loc u n → loc ≠ .endOfOptimization →
      (p.solve par hooks s₀).Follows par.algorithm := by
    intro e loc u n hresult hroute hloc
    have hw := hroute.stands.word hloc
    exact ⟨hw.ends.1, fun _ h => by simp [hresult] at h, fun _ _ => ⟨hw, hw.ends.2⟩, fun _ h => by simp [hresult] at h⟩
  cases p.solve_travels par hk s₀ with
  | answered hresult h =>
    obtain ⟨loc, w, hstands, hloc, hanswer⟩ := h.route.stands.eq_answered
    have hw : par.algorithm.Word w := hstands.word (fun hend => absurd (hend ▸ hloc) (by decide))
    have htotal := h.route.rejectedTotal
    rw [hanswer] at hlocations htotal
    obtain ⟨hfirst, hlast⟩ := hw.ends
    refine ⟨?_, fun _ _ => ⟨w, hw, hlast, hlocations⟩, fun _ h => by simp [hresult] at h, fun _ _ hloop => ?_⟩
    · rw [hlocations, List.head?_append, hfirst]
      rfl
    · rw [hlocations] at hloop ⊢
      have hloop : .beginningOfOptimizationLoop ∈ w := by simpa using hloop
      obtain ⟨hhead, hlanding⟩ := hstands.count hloc hloop
      refine ⟨?_, fun x hx => ?_, htotal⟩
      · rw [List.count_append, hhead]
        rfl
      · have hx' : List.count x [.endOfOptimization] = 0 := by
          revert x
          decide
        rw [List.count_append, hlanding x hx, hx']
        rfl
  | halted hresult _ route ending =>
    exact hhalted hresult route fun hend => absurd (hend ▸ ending.mem_ends) (by decide)
  | refused hresult h => exact hhalted hresult h.route nofun
  | panicked hresult route hloc => exact hhalted hresult route hloc.last

theorem Problem.solve_follows_leastSquare :
    let par : Parameters Float := { Parameters.default with hessian := .userDefined }
    let r := Problem.leastSquare.solve par .passive (.new [1])
    (Hooks.passive (F := Float)).Observing ∧ r.Follows .trustRegion ∧ r.result.toOption = some .gradientSmall ∧
      r.locations.count .beginningOfOptimizationLoop = 2 := by
  intro par r
  have hk : (Hooks.passive (F := Float)).Observing := fun _ _ => rfl
  exact ⟨hk, Problem.leastSquare.solve_follows par hk (.new [1]), by decide +kernel, by decide +kernel⟩

end ConstrainedOpt
