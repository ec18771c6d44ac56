import ConstrainedOpt.Proofs.Route.Grammar
import ConstrainedOpt.Proofs.Step.Effort

/-! # The budgets of runs

Whatever values its functions answer, an observed run ends, and it keeps within the bounds on its iterations, on the
rejections of each of them and on the evaluations of each line search. The totals of the state are sums over the run.
-/
namespace ConstrainedOpt
variable {F : Type} [Scalar F] {k : Setup F} {s₀ u v : State F} {p : List (Event F)} {loc loc' : Location} {n : Nat}

/-! ### Iterations -/

/-- The iterations that have begun and are not counted yet. -/
def Location.due : Location → Nat
  | .beginningOfOptimization | .beforeInitialFuncAndGrad | .afterInitialFuncAndGrad | .beforeOptimizationLoop
  | .beginningOfOptimizationLoop | .endOfOptimizationIteration | .endOfOptimization => 0
  | _ => 1

/-- A leg completes no more iterations than it may. -/
theorem Leg.iter_le (leg : Leg k loc u n loc' v)
    (h : loc ≠ .beginningOfOptimization → u.iter + loc.due ≤ k.par.iterMax) : v.iter + loc'.due ≤ k.par.iterMax := by
  have hsame : ∀ c : Counters, v.counters = c → v.iter = c.iter := by
    rintro _ rfl
    rfl
  cases leg with
  | opened hv =>
    rw [hsame _ hv]
    exact Nat.zero_le _
  | plain hloc hv =>
    rw [hsame _ hv]
    cases loc <;> simp only [Location.following, Option.some.injEq, reduceCtorEq] at hloc <;> subst hloc <;> exact h (by decide)
  | begun hmax hv =>
    rw [hsame _ hv]
    exact hmax
  | searched hloc _ _ hv =>
    rw [hsame _ hv]
    cases hloc <;> exact h (by decide)
  | missed hloc _ _ hv =>
    rw [hsame _ hv]
    cases hloc <;> exact h (by decide)
  | ended hending =>
    rcases hending.counts with ⟨rfl, hzero⟩ | ⟨hloc, hiter, -⟩
    · rw [hsame _ hzero]
      exact Nat.zero_le _
    · rw [show v.iter = u.iter from hiter]
      exact (Nat.le_add_right _ _).trans (h hloc)
  | restarted hv | computed hv | composed _ hv | accepted hv | rejected hv | retried _ hv | directed _ hv | supplied _ hv
  | counted hv =>
    rw [hsame _ hv]
    exact h (by decide)

theorem Route.iter_le (h : Route k s₀ p loc u n) :
    (loc ≠ .beginningOfOptimization → u.iter + loc.due ≤ k.par.iterMax) ∧
      ∀ v ∈ (Event.visits p).tail, v.2.iter ≤ k.par.iterMax := by
  induction h with
  | start notes =>
    rw [Event.visits_start]
    exact ⟨fun h => absurd rfl h, fun v hv => absurd hv List.not_mem_nil⟩
  | note m _ ih => rwa [Event.visits_append, Event.visits_note, List.append_nil]
  | trial s t _ ih => rwa [Event.visits_append, Event.visits_trial, List.append_nil]
  | @visit p loc u n loc' v _ leg ih =>
    have hnext := leg.iter_le ih.1
    have hv : v.iter ≤ k.par.iterMax := (Nat.le_add_right _ _).trans hnext
    refine ⟨fun _ => hnext, fun w hw => ?_⟩
    rw [Event.visits_append, Event.visits_visit, List.tail_append] at hw
    split at hw
    · exact absurd hw List.not_mem_nil
    · rcases List.mem_append.mp hw with hw | hw
      · exact ih.2 w hw
      · rw [List.mem_singleton.mp hw]
        exact hv

/-! ### Rejections -/

namespace Location

/-- Where a step is being tried that is not rejected yet. -/
def tries : List Location := [.beforeGetStep, .getStep, .beforeActualVersusPredicted, .beforeLineSearch]

theorem mem_steps_of_mem_tries : ∀ loc ∈ tries, loc ∈ steps := by decide

theorem isRejection_eq_false : ∀ loc ∈ lead ++ tries, loc.isRejection = false := by decide

/-- The rejections since an iteration began. -/
def rejections (w : List Location) : Nat := (w.reverse.takeWhile (· != .beginningOfOptimizationLoop)).countP isRejection

theorem rejections_concat (w : List Location) (loc : Location) :
    rejections (w ++ [loc]) =
      if loc = .beginningOfOptimizationLoop then 0 else rejections w + if loc.isRejection then 1 else 0 := by
  unfold rejections
  rw [List.reverse_append, List.reverse_singleton, List.singleton_append, List.takeWhile_cons]
  by_cases hloc : loc = .beginningOfOptimizationLoop
  · simp [hloc]
  · simp [hloc, List.countP_cons]

theorem countP_le_rejections {w part : List Location} (h : .beginningOfOptimizationLoop ∉ part) :
    part.countP isRejection ≤ rejections (w ++ part) := by
  unfold rejections
  rw [List.reverse_append, List.takeWhile_append_of_pos, List.countP_append, List.countP_reverse]
  · exact Nat.le_add_right _ _
  · intro loc hloc
    refine bne_iff_ne.mpr ?_
    rintro rfl
    exact h (List.mem_reverse.mp hloc)

end Location

/-- The rejections `c` of the current iteration at the hook point that sees `u`: they are bounded, and while the step is
tried they are what the state counts, with room for one more where one may follow. -/
structure Rejects (k : Setup F) (loc : Location) (u : State F) (c : Nat) : Prop where
  bound : c ≤ max 1 k.par.rejectedMax
  counted : loc ∈ Location.steps → c = u.rejected
  room : loc ∈ Location.tries → u.rejected < max 1 k.par.rejectedMax
  before : loc ∈ Location.lead → c = 0

omit [Scalar F] in
theorem Rejects.outside {c : Nat} (h : Rejects k loc u c) (hloc' : loc' ∉ Location.lead ++ Location.steps) :
    Rejects k loc' v c where
  bound := h.bound
  counted hmem := absurd (List.mem_append_right _ hmem) hloc'
  room hmem := absurd (List.mem_append_right _ (Location.mem_steps_of_mem_tries _ hmem)) hloc'
  before hmem := absurd (List.mem_append_left _ hmem) hloc'

omit [Scalar F] in
/-- The state still counts what it counted, within the step. -/
theorem Rejects.within {c : Nat} (h : Rejects k loc u c) (hloc : loc ∈ Location.steps) (hloc' : loc' ∉ Location.lead)
    (hsame : v.rejected = u.rejected) (hroom : u.rejected < max 1 k.par.rejectedMax) : Rejects k loc' v c where
  bound := h.bound
  counted _ := (h.counted hloc).trans hsame.symm
  room _ := hsame ▸ hroom
  before hmem := absurd hmem hloc'

omit [Scalar F] in
/-- One more rejection is counted where there was room for it. -/
theorem Rejects.reject {c : Nat} (h : Rejects k loc u c) (hloc : loc ∈ Location.steps)
    (hroom : u.rejected < max 1 k.par.rejectedMax) (hcount : v.rejected = u.rejected + 1)
    (hloc' : loc'.isRejection = true) : Rejects k loc' v (c + 1) where
  bound := by
    have hc := h.counted hloc
    omega
  counted _ := by rw [h.counted hloc, hcount]
  room hmem := by simp [Location.isRejection_eq_false _ (List.mem_append_right _ hmem)] at hloc'
  before hmem := by simp [Location.isRejection_eq_false _ (List.mem_append_left _ hmem)] at hloc'

theorem Leg.rejects (leg : Leg k loc u n loc' v) {c : Nat} (h : Rejects k loc u c) :
    Rejects k loc' v (if loc' = .beginningOfOptimizationLoop then 0 else c + if loc'.isRejection then 1 else 0) := by
  have hsame : ∀ c : Counters, v.counters = c → v.rejected = c.rejected := by
    rintro _ rfl
    rfl
  cases leg with
  | opened => exact h.outside (by decide)
  | plain hloc hv =>
    cases loc <;> simp only [Location.following, Option.some.injEq, reduceCtorEq] at hloc <;> subst hloc
    case beforeOptimizationLoop => exact ⟨Nat.zero_le _, by simp [Location.steps], by simp [Location.tries], fun _ => rfl⟩
    case endOfOptimizationIteration => exact ⟨Nat.zero_le _, by simp [Location.steps], by simp [Location.tries], fun _ => rfl⟩
    case beforeSaveOld => exact ⟨h.bound, by simp [Location.steps], by simp [Location.tries], fun _ => h.before (by decide)⟩
    all_goals exact h.outside (by decide)
  | begun => exact ⟨h.bound, by simp [Location.steps], by simp [Location.tries], fun _ => h.before (by decide)⟩
  | restarted hv =>
    have hzero : v.rejected = 0 := hsame _ hv
    have hc : c = 0 := h.before (by decide)
    exact ⟨h.bound, fun _ => hc.trans hzero.symm, fun _ => hzero ▸ lt_max_of_lt_left Nat.one_pos, by simp [Location.lead]⟩
  | computed hv => exact h.within (by decide) (by decide) (hsame _ hv) (h.room (by decide))
  | composed _ hv => exact h.within (by decide) (by decide) (hsame _ hv) (h.room (by decide))
  | directed _ hv => exact h.within (by decide) (by decide) (hsame _ hv) (h.room (by decide))
  | rejected hv => exact h.reject (by decide) (h.room (by decide)) (hsame _ hv) rfl
  | retried hmax hv => exact h.within (by decide) (by decide) (hsame _ hv) (lt_max_of_lt_right hmax)
  | missed hloc _ _ hv =>
    cases hloc with
    | first => exact h.reject (by decide) (h.room (by decide)) (hsame _ hv) rfl
    | again hmax => exact h.reject (by decide) (lt_max_of_lt_right hmax) (hsame _ hv) rfl
  | accepted | searched | supplied | counted | ended => exact h.outside (by decide)

theorem Route.rejects (h : Route k s₀ p loc u n) :
    Rejects k loc u (Location.rejections (Event.locations p)) ∧
      ∀ w, w <+: Event.locations p → Location.rejections w ≤ max 1 k.par.rejectedMax := by
  induction h with
  | start notes =>
    rw [Event.locations_start]
    refine ⟨⟨Nat.zero_le _, nofun, nofun, fun _ => rfl⟩, fun w hw => ?_⟩
    have hw : w <+: [] ++ [Location.beginningOfOptimization] := hw
    rcases List.prefix_concat_iff.mp hw with rfl | hw
    · exact Nat.zero_le _
    · rw [List.prefix_nil.mp hw]
      exact Nat.zero_le _
  | note m _ ih => rwa [Event.locations_note]
  | trial s t _ ih => rwa [Event.locations_trial]
  | visit _ leg ih =>
    obtain ⟨hrejects, hprefix⟩ := ih
    have hnext := leg.rejects hrejects
    rw [← Location.rejections_concat] at hnext
    rw [Event.locations_visit]
    refine ⟨hnext, fun w hw => ?_⟩
    rcases List.prefix_concat_iff.mp hw with rfl | hw
    · exact hnext.bound
    · exact hprefix w hw

/-! ### Searches -/

namespace Event

omit [Scalar F] in
def isVisit : Event F → Bool
  | .visit .. => true
  | _ => false

omit [Scalar F] in
def isTrial : Event F → Bool
  | .trial .. => true
  | _ => false

end Event

/-- A route has come to its last hook point, with as many trial points since as it says. -/
theorem Route.last (h : Route k s₀ p loc u n) :
    ∃ before since, p = before ++ .visit loc u :: since ∧ (∀ e ∈ since, e.isVisit = false) ∧
      since.countP Event.isTrial = n := by
  induction h with
  | start notes => exact ⟨_, [], rfl, List.forall_mem_nil _, rfl⟩
  | note m _ ih =>
    obtain ⟨before, since, rfl, hsince, hn⟩ := ih
    refine ⟨before, since ++ [.note m], by simp, ?_, ?_⟩
    · rw [List.forall_mem_append]
      exact ⟨hsince, by simp [Event.isVisit]⟩
    · rw [List.countP_append, hn]
      rfl
  | trial s t _ ih =>
    obtain ⟨before, since, rfl, hsince, hn⟩ := ih
    refine ⟨before, since ++ [.trial s t], by simp, ?_, ?_⟩
    · rw [List.forall_mem_append]
      exact ⟨hsince, by simp [Event.isVisit]⟩
    · rw [List.countP_append, hn]
      rfl
  | visit _ leg ih => exact ⟨_, [], rfl, List.forall_mem_nil _, rfl⟩

omit [Scalar F] in
/-- The last visit of a history is the same however it is found. -/
theorem Event.last_visit_unique {before since before' since' : List (Event F)} {loc loc' : Location} {u v : State F}
    (h : before ++ .visit loc u :: since = before' ++ .visit loc' v :: since') (hsince : ∀ e ∈ since, e.isVisit = false)
    (hsince' : ∀ e ∈ since', e.isVisit = false) : loc' = loc ∧ v = u ∧ since' = since := by
  rcases List.append_eq_append_iff.mp h with ⟨between, -, htail⟩ | ⟨between, -, htail⟩
  · cases between with
    | nil =>
      cases htail
      exact ⟨rfl, rfl, rfl⟩
    | cons e between =>
      have hmem : .visit loc' v ∈ since := (List.cons.inj htail).2 ▸ by simp
      exact absurd (hsince _ hmem) (by simp [Event.isVisit])
  · cases between with
    | nil =>
      cases htail
      exact ⟨rfl, rfl, rfl⟩
    | cons e between =>
      have hmem : .visit loc u ∈ since' := (List.cons.inj htail).2 ▸ by simp
      exact absurd (hsince' _ hmem) (by simp [Event.isVisit])

/-- Two visits in a row are joined by a leg, with the trial points between them. -/
theorem Route.leg_between (h : Route k s₀ p loc u n) {pre mid post : List (Event F)} {loc₁ loc₂ : Location}
    {u₁ u₂ : State F} (hp : p = pre ++ .visit loc₁ u₁ :: mid ++ .visit loc₂ u₂ :: post)
    (hmid : ∀ e ∈ mid, e.isVisit = false) : Leg k loc₁ u₁ (mid.countP Event.isTrial) loc₂ u₂ := by
  -- the last event is the second visit, or comes after it
  have hlast : ∀ {p post : List (Event F)} {e : Event F},
      p ++ [e] = pre ++ .visit loc₁ u₁ :: mid ++ .visit loc₂ u₂ :: post →
      (p = pre ++ .visit loc₁ u₁ :: mid ∧ e = .visit loc₂ u₂) ∨
        ∃ post, p = pre ++ .visit loc₁ u₁ :: mid ++ .visit loc₂ u₂ :: post := by
    intro p post e hp
    rcases List.eq_nil_or_concat post with rfl | ⟨post, f, rfl⟩
    · obtain ⟨hp, he⟩ := List.append_inj' hp rfl
      exact .inl ⟨hp, List.singleton_inj.mp he⟩
    · rw [List.concat_eq_append, ← List.cons_append, ← List.append_assoc] at hp
      exact .inr ⟨post, (List.append_inj' hp rfl).1⟩
  induction h generalizing post with
  | start notes =>
    have hnone : Event.visit loc₁ u₁ ∉ notes.map Event.note := by simp
    rcases hlast hp with ⟨hnotes, -⟩ | ⟨post, hnotes⟩
    · exact absurd (hnotes ▸ by simp) hnone
    · exact absurd (hnotes ▸ by simp) hnone
  | note m _ ih =>
    obtain ⟨post, hp⟩ := (hlast hp).resolve_left fun h => nomatch h.2
    exact ih hp
  | trial s t _ ih =>
    obtain ⟨post, hp⟩ := (hlast hp).resolve_left fun h => nomatch h.2
    exact ih hp
  | visit hroute leg ih =>
    rcases hlast hp with ⟨hpast, hvisit⟩ | ⟨post, hp⟩
    · cases hvisit
      obtain ⟨before, since, hbefore, hsince, rfl⟩ := hroute.last
      obtain ⟨rfl, rfl, rfl⟩ := Event.last_visit_unique (hbefore.symm.trans hpast) hsince hmid
      exact leg
    · exact ih hp

/-! ### Totals -/

/-- The iterations of the truncated solves of all attempts. -/
def Setup.krylovSum (k : Setup F) (visits : List (Location × State F)) : Nat :=
  (visits.map fun v => if v.1 = .beforeGetStep then k.krylovIterations v.2 else 0).sum

theorem Ending.krylovIterTotal {c : Counters} (h : Ending k loc u n c) :
    c.krylovIterTotal = (if loc = .beginningOfOptimization then 0 else u.krylovIterTotal) +
      if loc = .beforeGetStep then k.krylovIterations u else 0 := by
  cases h with
  | counted h => cases h <;> rfl
  | _ => rfl

/-- The truncated solve of an attempt is counted when the attempt has its step. -/
theorem Leg.krylovIterTotal (leg : Leg k loc u n loc' v) :
    (if loc' = .beginningOfOptimization then 0 else v.krylovIterTotal) =
      (if loc = .beginningOfOptimization then 0 else u.krylovIterTotal) +
        if loc = .beforeGetStep then k.krylovIterations u else 0 := by
  have hsame : ∀ c : Counters, v.counters = c → v.krylovIterTotal = c.krylovIterTotal := by
    rintro _ rfl
    rfl
  cases leg with
  | plain hloc hv =>
    rw [hsame _ hv]
    cases loc <;> simp only [Location.following, Option.some.injEq, reduceCtorEq] at hloc <;> subst hloc <;> rfl
  | searched hloc _ _ hv =>
    rw [hsame _ hv]
    cases hloc <;> rfl
  | missed hloc _ _ hv =>
    rw [hsame _ hv]
    cases hloc <;> rfl
  | ended hending => exact hending.krylovIterTotal
  | opened hv | begun _ hv | restarted hv | computed hv | composed _ hv | accepted hv | rejected hv | retried _ hv
  | directed _ hv | supplied _ hv | counted hv =>
    rw [hsame _ hv]
    rfl

theorem Route.krylovIterTotal (h : Route k s₀ p loc u n) :
    k.krylovSum (Event.visits p) = (if loc = .beginningOfOptimization then 0 else u.krylovIterTotal) +
      if loc = .beforeGetStep then k.krylovIterations u else 0 := by
  induction h with
  | start notes =>
    rw [Event.visits_start]
    rfl
  | note m _ ih => rwa [Event.visits_append, Event.visits_note, List.append_nil]
  | trial s t _ ih => rwa [Event.visits_append, Event.visits_trial, List.append_nil]
  | visit _ leg ih =>
    have hsum : ∀ vs (loc : Location) (v : State F), k.krylovSum (vs ++ [(loc, v)]) =
        k.krylovSum vs + if loc = .beforeGetStep then k.krylovIterations v else 0 := by
      intro vs loc v
      simp [Setup.krylovSum]
    rw [Event.visits_append, Event.visits_visit, hsum, ih, leg.krylovIterTotal]

theorem Route.algorithm (h : Route k s₀ p loc u n) :
    (loc = .beforeActualVersusPredicted → k.par.algorithm = .trustRegion) ∧
      (Searches k u loc → k.par.algorithm = .lineSearch) := by
  refine ⟨?_, fun hsearch => ?_⟩
  · rintro rfl
    obtain ⟨-, past, m, hwithin, -⟩ := h.stands.eq_within (by decide) nofun nofun
    exact Algorithm.eq_trustRegion_of_mem hwithin.mem
  · cases hsearch with
    | first =>
      obtain ⟨-, past, m, hwithin, -⟩ := h.stands.eq_within (by decide) nofun nofun
      exact Algorithm.eq_lineSearch_of_mem (.inl hwithin.mem)
    | again =>
      obtain ⟨-, past, m, hwithin, -⟩ := h.stands.eq_within (by decide) nofun nofun
      exact Algorithm.eq_lineSearch_of_mem (.inr hwithin.mem)

theorem Ending.lineSearchIterTotal {c : Counters} (h : Ending k loc u n c) :
    c.lineSearchIterTotal = (if loc = .beginningOfOptimization then 0 else u.lineSearchIterTotal) +
      if k.par.algorithm = .lineSearch then n else 0 := by
  cases h with
  | infeasible ha =>
    rw [ha]
    rfl
  | counted h =>
    rw [ite_self]
    cases h <;> rfl
  | _ =>
    rw [ite_self]
    rfl

/-- The trial points of a line search are counted when it ends. -/
theorem Leg.lineSearchIterTotal (leg : Leg k loc u n loc' v) (htrust : loc = .beforeActualVersusPredicted →
    k.par.algorithm = .trustRegion) (hsearch : Searches k u loc → k.par.algorithm = .lineSearch) :
    (if loc' = .beginningOfOptimization then 0 else v.lineSearchIterTotal) =
      (if loc = .beginningOfOptimization then 0 else u.lineSearchIterTotal) +
        if k.par.algorithm = .lineSearch then n else 0 := by
  have hsame : ∀ c : Counters, v.counters = c → v.lineSearchIterTotal = c.lineSearchIterTotal := by
    rintro _ rfl
    rfl
  cases leg with
  | plain hloc hv =>
    rw [hsame _ hv, ite_self]
    cases loc <;> simp only [Location.following, Option.some.injEq, reduceCtorEq] at hloc <;> subst hloc <;> rfl
  | searched hloc _ _ hv =>
    rw [hsame _ hv, if_pos (hsearch hloc)]
    cases hloc <;> rfl
  | missed hloc _ _ hv =>
    rw [hsame _ hv, if_pos (hsearch hloc)]
    cases hloc <;> rfl
  | accepted hv | rejected hv =>
    rw [hsame _ hv, htrust rfl]
    rfl
  | supplied ha hv =>
    rw [hsame _ hv, ha]
    rfl
  | ended hending => exact hending.lineSearchIterTotal
  | opened hv | begun _ hv | restarted hv | computed hv | composed _ hv | retried _ hv | directed _ hv | counted hv =>
    rw [hsame _ hv, ite_self]
    rfl

theorem Route.lineSearchIterTotal (h : Route k s₀ p loc u n) :
    (if k.par.algorithm = .lineSearch then p.countP Event.isTrial else 0) =
      (if loc = .beginningOfOptimization then 0 else u.lineSearchIterTotal) +
        if k.par.algorithm = .lineSearch then n else 0 := by
  induction h with
  | start notes =>
    have hnone : (notes.map Event.note ++ [Event.visit .beginningOfOptimization s₀]).countP Event.isTrial = 0 := by
      simp [Event.isTrial]
    rw [hnone]
    simp
  | note m _ ih =>
    rw [List.countP_append]
    exact ih
  | trial s t _ ih =>
    by_cases ha : k.par.algorithm = .lineSearch
    · simp only [if_pos ha] at ih ⊢
      rw [List.countP_append, ih, Nat.add_assoc]
      rfl
    · simpa only [if_neg ha] using ih
  | visit hroute leg ih =>
    rw [List.countP_append, leg.lineSearchIterTotal hroute.algorithm.1 hroute.algorithm.2, ← ih]
    simp [Event.isTrial]

/-! ### Runs -/

/-- The state counts the rejections, the iterations of the truncated solves and the evaluations of the line searches of
the whole run. -/
structure Solution.Totalled (k : Setup F) (r : Solution F) : Prop where
  rejected : r.state.rejectedTotal = r.locations.countP Location.isRejection
  krylovIter : r.state.krylovIterTotal = k.krylovSum r.visits
  lineSearchIter : r.state.lineSearchIterTotal =
    if k.par.algorithm = .lineSearch then r.events.toList.countP Event.isTrial else 0

/-- A run keeps within its budgets. It ends. From its second hook point on it has not completed more iterations than it
may, and when it stops for their number it has completed just as many. An iteration has no more rejections than it may,
and a line search no more evaluations, which the state counts. Unless it is refused, the state stays within the bound on
the iterations, and counts the work of the whole run if it does not panic. -/
structure Solution.Budgeted (k : Setup F) (s₀ : State F) (r : Solution F) : Prop where
  ends : r.result ≠ .error .outOfFuel
  iter : ∀ v ∈ r.visits.tail, v.2.iter ≤ k.par.iterMax
  exceeded : r.result = .ok .maxItersExceeded → r.state.iter = k.par.iterMax
  rejections : ∀ pre iteration post, r.locations = pre ++ iteration ++ post → .beginningOfOptimizationLoop ∉ iteration →
    iteration.countP Location.isRejection ≤ max 1 k.par.rejectedMax
  searches : ∀ pre loc u search loc' v post, r.events.toList = pre ++ .visit loc u :: search ++ .visit loc' v :: post →
    (∀ e ∈ search, e.isVisit = false) → loc = .beforeLineSearch ∨ loc = .afterRejectedLineSearch →
    loc' ≠ .endOfOptimization → 1 ≤ v.lineSearchIter ∧ v.lineSearchIter ≤ k.par.lineSearchIterMax ∧
      search.countP Event.isTrial = v.lineSearchIter
  final : k.parameterError? = none → k.sizesFit s₀.y = true →
    r.state.iter ≤ k.par.iterMax ∧ ((∀ q, r.result ≠ .error (.panic q)) → r.Totalled k)

/-- Between a hook point where a line search begins and the next one are as many trial points as the state counts. -/
theorem Leg.searches (leg : Leg k loc u n loc' v) (hloc : loc = .beforeLineSearch ∨ loc = .afterRejectedLineSearch)
    (hloc' : loc' ≠ .endOfOptimization) :
    1 ≤ v.lineSearchIter ∧ v.lineSearchIter ≤ k.par.lineSearchIterMax ∧ n = v.lineSearchIter := by
  have hspent : ∀ c : Counters, v.counters = c → v.lineSearchIter = c.lineSearchIter := by
    rintro _ rfl
    rfl
  rcases hloc with rfl | rfl
  · cases leg with
    | searched _ hmin hmax hv => exact hspent _ hv ▸ ⟨hmin, hmax, rfl⟩
    | missed _ hmin hmax hv => exact hspent _ hv ▸ ⟨hmin, hmax, rfl⟩
    | ended => exact absurd rfl hloc'
    | plain hnext => cases hnext
  · cases leg with
    | searched _ hmin hmax hv => exact hspent _ hv ▸ ⟨hmin, hmax, rfl⟩
    | missed _ hmin hmax hv => exact hspent _ hv ▸ ⟨hmin, hmax, rfl⟩
    | ended => exact absurd rfl hloc'
    | plain hnext => cases hnext

/-- A route keeps within its budgets, wherever it ends. -/
theorem Route.budgeted {r : Solution F} (h : Route k s₀ r.events.toList loc u n) (hends : r.result ≠ .error .outOfFuel)
    (hexceeded : r.result = .ok .maxItersExceeded → r.state.iter = k.par.iterMax)
    (hfinal : k.parameterError? = none → k.sizesFit s₀.y = true →
      r.state.iter ≤ k.par.iterMax ∧ ((∀ q, r.result ≠ .error (.panic q)) → r.Totalled k)) : r.Budgeted k s₀ where
  ends := hends
  iter := h.iter_le.2
  exceeded := hexceeded
  rejections pre iteration post hlocations hhead :=
    (Location.countP_le_rejections hhead).trans (h.rejects.2 (pre ++ iteration) ⟨post, hlocations.symm⟩)
  searches _ _ _ _ _ _ _ hevents hsearch hloc hloc' := (h.leg_between hevents hsearch).searches hloc hloc'
  final := hfinal

theorem Ending.rejectedTotal {c : Counters} (h : Ending k loc u n c) :
    c.rejectedTotal = if loc = .beginningOfOptimization then 0 else u.rejectedTotal := by
  rcases h.counts with ⟨rfl, rfl⟩ | ⟨hloc, -, htotal⟩
  · rfl
  · rw [if_neg hloc, htotal]

theorem Ending.totalled {r : Solution F} (h : Ending k loc u n r.state.counters)
    (hroute : Route k s₀ r.events.toList loc u n) : r.Totalled k where
  rejected := h.rejectedTotal.trans hroute.rejectedTotal.symm
  krylovIter := h.krylovIterTotal.trans hroute.krylovIterTotal.symm
  lineSearchIter := h.lineSearchIterTotal.trans hroute.lineSearchIterTotal.symm

theorem Ending.iter_le {c : Counters} (h : Ending k loc u n c) (hroute : Route k s₀ p loc u n) : c.iter ≤ k.par.iterMax := by
  rcases h.counts with ⟨-, rfl⟩ | ⟨hloc, hiter, -⟩
  · exact Nat.zero_le _
  · rw [hiter]
    exact (Nat.le_add_right _ _).trans (hroute.iter_le.1 hloc)

/-- A run that answers has counted its work. -/
theorem Route.totalled {r : Solution F} (h : Route k s₀ r.events.toList .endOfOptimization r.state 0) : r.Totalled k where
  rejected := h.rejectedTotal.symm
  krylovIter := h.krylovIterTotal.symm
  lineSearchIter := by
    have htotal := h.lineSearchIterTotal
    rw [ite_self] at htotal
    exact htotal.symm

/-- Every observed run keeps within its budgets, and so does every truncated solve. -/
theorem Problem.solve_budgeted (p : Problem F) (par : Parameters F) {hooks : Hooks F} (hk : hooks.Observing)
    (s₀ : State F) :
    (p.solve par hooks s₀).Budgeted ⟨par, p, hooks, s₀.x.length⟩ s₀ ∧
    ∀ (m : TruncatedCG.Model F) (offset step : Vec F) (work : Nat) (r : TruncatedResult F),
      (TruncatedCG.solve m offset step work).answer = .ok (.ok r) →
      r.iter ≤ m.par.iterMax ∧ r.failedSafeguard ≤ min r.iter (m.par.failedSafeguardMax + 1) ∧
        (r.stop = .tooManyFailedSafeguard ↔ r.failedSafeguard = m.par.failedSafeguardMax + 1) := by
  refine ⟨?_, fun m offset step work r hr => ?_⟩
  · cases p.solve_travels par hk s₀ with
    | answered hresult h =>
      have hiter := (Nat.le_add_right _ _).trans (h.route.iter_le.1 nofun)
      refine h.route.budgeted (by simp [hresult]) (fun hmax => ?_) fun _ _ => ⟨hiter, fun _ => h.route.totalled⟩
      have hstop : (p.solve par hooks s₀).state.stop = .maxItersExceeded :=
        h.answer.symm.trans (Except.ok.inj (hresult.symm.trans hmax))
      exact hiter.antisymm (h.max hstop)
    | halted hresult he route ending =>
      refine route.budgeted (by simpa [hresult] using he) (by simp [hresult]) fun _ _ => ?_
      exact ⟨ending.iter_le route, fun _ => ending.totalled route⟩
    | refused hresult h =>
      refine h.route.budgeted (by simp [hresult]) (by simp [hresult]) fun hvalid hfits => ?_
      exact absurd ⟨hvalid, hfits⟩ h.unfit
    | panicked hresult route hloc hiter =>
      refine route.budgeted (by simp [hresult]) (by simp [hresult]) fun _ _ => ⟨?_, fun h => absurd hresult (h _)⟩
      rw [hiter]
      exact (Nat.le_add_right _ _).trans (route.iter_le.1 hloc.first)
  · obtain ⟨hiter, hspent⟩ := (TruncatedCG.solve_spends m offset step work).answer hr r rfl
    exact ⟨hiter, hspent.bound, hspent.exact⟩

/-- A line search of one evaluation at a time, which rejects its first length. -/
def Parameters.searching : Parameters Float :=
  { Parameters.default with algorithm := .lineSearch, lengthRule := .backTracking, lineSearchIterMax := 1 }

theorem Problem.solve_budgeted_searching :
    let r := Problem.leastSquare.solve .searching .passive (.new [1])
    (Hooks.passive (F := Float)).Observing ∧ r.Budgeted ⟨.searching, .leastSquare, .passive, 1⟩ (.new [1]) ∧
      r.result.toOption = some .gradientSmall ∧ r.state.rejectedTotal = 1 ∧ r.state.lineSearchIterTotal = 2 := by
  intro r
  have hk : (Hooks.passive (F := Float)).Observing := fun _ _ => rfl
  exact ⟨hk, (Problem.leastSquare.solve_budgeted .searching hk (.new [1])).1, by decide +kernel, by decide +kernel,
    by decide +kernel⟩

/-- The bound on the iterations does not hold at the first hook point, which shows what another run has counted. -/
theorem Problem.solve_recounts :
    ¬ ∀ (p : Problem Float) (par : Parameters Float) (hooks : Hooks Float) (s₀ : State Float), hooks.Observing →
      (⟨par, p, hooks, s₀.x.length⟩ : Setup Float).parameterError? = none →
      ∀ v ∈ (p.solve par hooks s₀).visits, v.2.iter ≤ par.iterMax := by
  intro h
  let used := (Problem.leastSquare.solve .searching .passive (.new [1])).state
  have hk : (Hooks.passive (F := Float)).Observing := fun _ _ => rfl
  have hall := h .leastSquare { Parameters.searching with iterMax := 0 } .passive used hk (by decide +kernel)
  have hfirst : (Problem.leastSquare.solve { Parameters.searching with iterMax := 0 } .passive used).visits.all
      (fun v => decide (v.2.iter ≤ 0)) = false := by decide +kernel
  rw [List.all_eq_true.mpr fun v hv => decide_eq_true (hall v hv)] at hfirst
  cases hfirst

end ConstrainedOpt
