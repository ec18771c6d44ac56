import ConstrainedOpt.Proofs.Route.Legs
import ConstrainedOpt.Proofs.Run.Step

/-! # Routes of steps

Whatever driver takes a step, it travels by the legs of its algorithm until a trial point is accepted, and stops the
run where it finds none.
-/
namespace ConstrainedOpt
variable {F : Type} [Scalar F] {k : Setup F} {W : Watch F} {s₀ s u : State F} {p : List (Event F)} {loc : Location}
  {n : Nat}
open Running

omit [Scalar F] in
theorem Searches.mayEnd (h : Searches k u loc) : loc.MayEnd := by
  cases h with
  | first => exact .search
  | again => exact .rejectedSearch

/-- Where a step ends: at an accepted point whose gradient is sound, or with the run. -/
inductive StepArrives (k : Setup F) (s₀ t : State F) (p : List (Event F)) : Prop
  | landed (hrunning : t.stop = .notConverged) (route : Route k s₀ p .afterGradient t 0)
  | stopped (h : Stopped k s₀ t p)

omit [Scalar F] in
theorem State.SameButGradient.counters {s t : State F} (h : s.SameButGradient t) : t.counters = s.counters := by
  rw [h]
  rfl

theorem Running.leads_accept (hk : k.hooks.Observing) (hs : s.stop = .notConverged) (hp : Route k s₀ p loc u n)
    (leg : ∀ v, v.counters = s.counters → Leg k loc u n .afterStepBeforeGradient v) (t : Trial F) :
    leads (accept k t) (fun _ => StepArrives k s₀) (Stranded k s₀) s p := by
  unfold accept
  refine leads_bind (leads_update (leads_bind (leads_hook hk hp (leg _ rfl) fun q hq => leads_bind ?_)))
  refine leads_none hq (updateGradient_spec true) ?_ ?_
  · intro o v q hv hq
    split
    · have hending : Ending k .afterStepBeforeGradient (s.moveTo t) 0 v.counters := by
        rw [hv.counters]
        exact .counted .moved
      refine leads_stepFailure hq (fun q hq => .stopped ⟨nofun, nofun, _, _, _, hq, hending⟩) ?_
      exact fun _ q hq => .ended hq hending
    · obtain ⟨y, grad, -, rfl⟩ := hv
      exact leads_hook hk hq (.plain rfl rfl) fun q hq => .landed hs hq
  · rintro _ v q rfl hq
    exact .ended hq (.counted .moved)

/-! ### Trust-region steps -/

namespace TrustRegion

theorem tangentialStep_counts :
    wp W (tangentialStep k)
      (fun _ t => t.counters = s.counters.solve (TruncatedCG.iterations (tangentialSolve k s)) ∧ t.stop = s.stop)
      (Interrupted s) s := by
  unfold tangentialStep
  refine wp_bind (wp_getState (wp_bind (wp_interrupted fun r hr => ?_)))
  unfold TruncatedCG.iterations
  rw [hr]
  split
  · exact wp_pure ⟨rfl, rfl⟩
  · exact wp_bind (wp_update (wp_pure ⟨rfl, rfl⟩))

theorem normalState?_eq {stop : QuasinormalStop} {t : State F}
    (hanswer : ((quasinormalStep k).run ⟨s, #[]⟩).1 = .ok (.ok stop))
    (hstate : ((quasinormalStep k).run ⟨s, #[]⟩).2.state = t) :
    normalState? k s = some { t with quasinormalStop := stop } := by
  unfold normalState?
  generalize (quasinormalStep k).run ⟨s, #[]⟩ = r at hanswer hstate
  obtain ⟨o, r⟩ := r
  obtain rfl : o = .ok (.ok stop) := hanswer
  obtain rfl : r.state = t := hstate
  rfl

theorem normalState?_eq_none (h : ∀ stop, ((quasinormalStep k).run ⟨s, #[]⟩).1 ≠ .ok (.ok stop)) :
    normalState? k s = none := by
  unfold normalState?
  split
  case h_1 stop r hr => exact absurd (congrArg Prod.fst hr) (h stop)
  case h_2 => rfl

/-- A composite step counts the iterations of its truncated solve, also when it stops the run. -/
theorem compositeStep_counts (ha : k.par.algorithm = .trustRegion) :
    wp W (compositeStep k)
      (fun o t => t.counters = s.counters.solve (k.krylovIterations s) ∧
        t.stop = if o.isSome then s.stop else .globalizationFailure)
      (fun e t => t.counters = s.counters.solve (k.krylovIterations s) ∨ Interrupted s e t) s := by
  have hspent : k.krylovIterations s =
      ((normalState? k s).map fun t => TruncatedCG.iterations (tangentialSolve k t)).getD 0 := by
    unfold Setup.krylovIterations
    rw [ha]
  rw [hspent]
  unfold compositeStep
  refine wp_bind (wp_mono ((oblivious_quasinormalStep k).wp_exact (quasinormalStep_spec k s)) ?_ ?_)
  · rintro q t ⟨⟨step, cauchy, rfl, -⟩, hanswer, hstate⟩
    split
    case h_1 e =>
      rw [normalState?_eq_none fun stop h => by simp [hanswer] at h]
      exact wp_bind (wp_stepFailure (wp_pure ⟨rfl, rfl⟩) fun _ => .inl rfl)
    case h_2 stop =>
      rw [normalState?_eq hanswer hstate]
      refine wp_bind (wp_update (wp_bind (wp_mono tangentialStep_counts ?_ fun e _ he => .inr he)))
      rintro q t ⟨hcounters, hstop⟩
      split
      · exact wp_bind (wp_stepFailure (wp_pure ⟨hcounters, rfl⟩) fun _ => .inl hcounters)
      · split
        · exact wp_bind (wp_getState (wp_bind (wp_log (wp_bind (wp_setStop (wp_pure ⟨hcounters, rfl⟩))))))
        · refine wp_bind (wp_getState (wp_bind (wp_lift (fun dx _ => ?_) fun _ _ => .inl hcounters)))
          exact wp_bind (wp_update (wp_pure ⟨hcounters, hstop⟩))
  · rintro e t ⟨rfl, hanswer⟩
    refine .inl ?_
    rw [normalState?_eq_none fun stop h => by simp [hanswer] at h]
    rfl

/-- Where an attempt ends: with the step, or where another attempt begins. -/
def AttemptArrives (k : Setup F) (s₀ : State F) (a : Attempt) (t : State F) (p : List (Event F)) : Prop :=
  match a with
  | .finished => StepArrives k s₀ t p
  | .rejected => t.stop = .notConverged ∧ t.rejected < k.par.rejectedMax ∧ Route k s₀ p .afterRejectedTrustRegion t 0

theorem predictedReduction_counts :
    wp W (predictedReduction k) (fun _ t => t.counters = s.counters ∧ t.stop = s.stop)
      (Interrupted s) s := by
  unfold predictedReduction
  refine wp_bind (wp_getState (wp_bind (wp_interrupted fun q _ => ?_)))
  dsimp only
  split
  · exact wp_bind (wp_update (wp_bind (wp_log (wp_bind (wp_getState (wp_pure ⟨rfl, rfl⟩))))))
  · exact wp_bind (wp_getState (wp_pure ⟨rfl, rfl⟩))

theorem leads_reject (hk : k.hooks.Observing) (hs : s.stop = .notConverged)
    (hp : Route k s₀ p .beforeActualVersusPredicted u 1) (hu : s.counters = u.counters) (ratio : F) :
    leads (reject k ratio) (AttemptArrives k s₀) (Stranded k s₀) s p := by
  have hvisit : ∀ t q, t.stop = .notConverged → t.counters = u.counters.reject →
      Route k s₀ q .beforeActualVersusPredicted u 1 → leads (do
        visit k .afterRejectedTrustRegion
        let s ← getState
        if k.par.rejectedMax ≤ s.rejected then
          log .warn [s.iter, ": ", s.rejected, " steps rejected in a row"]
          setStop .globalizationFailure
          return .finished
        return if s.stop = .notConverged then .rejected else .finished) (AttemptArrives k s₀) (Stranded k s₀) t q := by
    intro t q hrunning ht hq
    refine leads_bind (leads_hook hk hq (.rejected ht) fun q hq => leads_bind (leads_getState ?_))
    split
    · refine leads_bind (leads_note hq fun q hq => leads_bind (leads_setStop (leads_pure ?_)))
      exact .stopped ⟨nofun, nofun, _, _, _, hq, .counted .rejectedStep⟩
    case isFalse hroom =>
      exact leads_pure ⟨hrunning, Nat.lt_of_not_le hroom, hq⟩
  have hrejected : ∀ v : State F, v.counters = s.counters.reject → v.counters = u.counters.reject :=
    fun v hv => hu ▸ hv
  unfold reject
  refine leads_bind (leads_update (leads_bind (leads_getState (leads_bind (leads_note hp fun q hq => ?_)))))
  split
  · exact leads_bind (leads_note hq fun q hq => hvisit _ q hs (hrejected _ rfl) hq)
  · exact hvisit _ q hs (hrejected _ rfl) hq

theorem leads_judge (hk : k.hooks.Observing) (hs : s.stop = .notConverged)
    (hp : Route k s₀ p .beforeActualVersusPredicted s 0) (stop : TruncatedStop) :
    leads (judge k stop) (AttemptArrives k s₀) (Stranded k s₀) s p := by
  have hmerit : ∀ (c : Checked F) (t : State F), wp .none (liftM c : Running F F) (fun _ v => v = t)
      (Interrupted t) t := fun _ _ => wp_interrupted fun _ _ => rfl
  have hstranded : ∀ n (v : State F), v.iter = s.iter → ∀ e t q, Interrupted v e t →
      Route k s₀ q .beforeActualVersusPredicted s n → Stranded k s₀ e t q := fun n v hv e t q he hq =>
    .of_interrupted he hv hq ⟨nofun, nofun⟩
  have haccept : ∀ t q v, t.stop = .notConverged → t.counters = s.counters →
      Route k s₀ q .beforeActualVersusPredicted s 1 → leads (do
        accept k v
        return Attempt.finished) (AttemptArrives k s₀) (Stranded k s₀) t q := by
    intro t q v ht hcounters hq
    refine leads_bind (leads_mono (leads_accept hk ht hq (fun w hw => .accepted (hw.trans hcounters)) v) ?_
      fun _ _ _ h => h)
    exact fun _ _ _ h => leads_pure h
  have hreject : ∀ t q ratio, t.stop = .notConverged → t.counters = s.counters →
      Route k s₀ q .beforeActualVersusPredicted s 1 →
      leads (reject k ratio) (AttemptArrives k s₀) (Stranded k s₀) t q :=
    fun t q ratio ht hcounters hq => leads_reject hk ht hq hcounters ratio
  unfold judge
  refine leads_bind (leads_none hp predictedReduction_counts ?_ (hstranded 0 s rfl))
  rintro pred t q ⟨hcounters, hstop⟩ hq
  have hrunning : t.stop = .notConverged := hstop.trans hs
  have hiter : t.iter = s.iter := congrArg Counters.iter hcounters
  refine leads_bind (leads_getState (leads_bind (leads_tryStep hq ⟨nofun, nofun⟩ hiter fun v q hq => ?_)))
  refine leads_bind (leads_none hq (hmerit _ _) ?_ (hstranded 1 _ hiter))
  rintro here _ q rfl hq
  refine leads_bind (leads_none hq (hmerit _ _) ?_ (hstranded 1 _ hiter))
  rintro there _ q rfl hq
  refine leads_bind (leads_update ?_)
  split
  · split
    · exact leads_bind (leads_update (haccept _ q v hrunning hcounters hq))
    · exact haccept _ q v hrunning hcounters hq
  · exact hreject _ q _ hrunning hcounters hq

/-- An attempt computes a composite step and judges it, unless a stop is met on the way. -/
theorem leads_attempt (hk : k.hooks.Observing) (ha : k.par.algorithm = .trustRegion) (hs : s.stop = .notConverged)
    (hp : Route k s₀ p loc u n) (leg : Leg k loc u n .beforeGetStep s) :
    leads (attempt k) (AttemptArrives k s₀) (Stranded k s₀) s p := by
  unfold attempt
  refine leads_bind (leads_hook hk hp leg fun q hq => ?_)
  refine leads_bind (leads_none hq (compositeStep_counts ha) ?_ fun e t q he hq =>
    he.elim (fun hcounters => .ended hq (hcounters ▸ .uncomputed)) fun he => .of_interrupted he rfl hq ⟨nofun, nofun⟩)
  rintro (_ | stop) t q ⟨hcounters, hstop⟩ hq
  · exact leads_pure (.stopped ⟨by simp [hstop], by simp [hstop], _, _, _, hq, hcounters ▸ .uncomputed⟩)
  · have hrunning : t.stop = .notConverged := hstop.trans hs
    have hjudge : ∀ v q, v.stop = .notConverged → v.counters = t.counters → Route k s₀ q .getStep t 0 → leads (do
        visit k .beforeActualVersusPredicted
        judge k stop) (AttemptArrives k s₀) (Stranded k s₀) v q := fun v q hv hcounters hq =>
      leads_bind (leads_hook hk hq (.composed ha hcounters) fun q hq => leads_judge hk hv hq stop)
    refine leads_bind (leads_hook hk hq (.computed hcounters) fun q hq => ?_)
    refine leads_bind (leads_update (leads_bind (leads_getState ?_)))
    split
    · refine leads_bind (leads_note hq fun q hq => leads_bind (leads_setStop (leads_pure ?_)))
      exact .stopped ⟨nofun, nofun, _, _, _, hq, .counted .step⟩
    · exact hjudge _ q hrunning rfl hq

theorem leads_attempts (hk : k.hooks.Observing) (ha : k.par.algorithm = .trustRegion) (fuel : Nat)
    (hs : s.stop = .notConverged) (hp : Route k s₀ p loc u n) (leg : Leg k loc u n .beforeGetStep s) :
    leads (attempts k fuel) (fun _ => StepArrives k s₀) (Stranded k s₀) s p := by
  induction fuel generalizing s p loc u n with
  | zero => exact leads_throw (.exhausted rfl)
  | succ fuel ih =>
    refine leads_bind (leads_mono (leads_attempt hk ha hs hp leg) ?_ fun _ _ _ h => h)
    rintro (_ | _) t q ht
    · exact leads_pure ht
    · obtain ⟨hrunning, hroom, hq⟩ := ht
      exact ih hrunning hq (.retried hroom rfl)

end TrustRegion

/-! ### Line-search steps -/

namespace LineSearch

theorem newtonDirection_counts (last : Vec F) :
    wp W (newtonDirection k last)
      (fun _ t => t.counters = s.counters.solve (TruncatedCG.iterations (newtonSolve k s last)) ∧
        (t.stop = s.stop ∨ t.stop = .globalizationFailure))
      (Interrupted s) s := by
  unfold newtonDirection
  refine wp_bind (wp_getState (wp_bind (wp_interrupted fun r hr => ?_)))
  unfold TruncatedCG.iterations
  rw [hr]
  split
  · exact wp_bind (wp_update (wp_pure ⟨rfl, .inl rfl⟩))
  · refine wp_bind (wp_update ?_)
    split
    · exact wp_bind (wp_getState (wp_bind (wp_log (wp_bind (wp_setStop (wp_pure ⟨rfl, .inr rfl⟩))))))
    · exact wp_pure ⟨rfl, .inl rfl⟩

/-- A direction counts the iterations of its truncated solve, if it takes one. -/
theorem updateDirection_counts (ha : k.par.algorithm = .lineSearch) :
    wp W (updateDirection k)
      (fun _ t => t.counters = s.counters.solve (k.krylovIterations s) ∧
        (t.stop = s.stop ∨ t.stop = .globalizationFailure))
      (Interrupted s) s := by
  have hdirection : wp W (direction k (lastDirection k s))
      (fun _ t => t.counters = s.counters.solve (k.krylovIterations s) ∧
        (t.stop = s.stop ∨ t.stop = .globalizationFailure))
      (Interrupted s) s := by
    have hconj : ∀ last, wp W (do
        let β ← conjugateWeight k s last
        return .ok (← Checked.add (-1) s.grad (Vec.scale β last)) : Running F (Except StepError (Vec F)))
        (fun _ t => t.counters = s.counters.solve 0 ∧ (t.stop = s.stop ∨ t.stop = .globalizationFailure))
        (Interrupted s) s := fun last =>
      wp_bind (wp_interrupted fun _ _ => wp_bind (wp_interrupted fun _ _ => wp_pure ⟨rfl, .inl rfl⟩))
    unfold direction Setup.krylovIterations
    rw [ha]
    refine wp_bind (wp_getState ?_)
    dsimp only
    cases k.par.direction with
    | steepestDescent => exact wp_bind (wp_interrupted fun _ _ => wp_pure ⟨rfl, .inl rfl⟩)
    | fletcherReeves => exact hconj _
    | polakRibiere => exact hconj _
    | hestenesStiefel => exact hconj _
    | bfgs => exact wp_bind (wp_interrupted fun _ _ => wp_pure ⟨rfl, .inl rfl⟩)
    | newtonCg => exact newtonDirection_counts _
  unfold updateDirection
  refine wp_bind (wp_getState (wp_bind (wp_mono hdirection ?_ fun _ _ h => h)))
  rintro (e | d) t ht
  · exact wp_pure ht
  · exact wp_bind (wp_update (wp_pure ht))

theorem descend_counts :
    wp W descend (fun _ t => t.counters = s.counters ∧ t.stop = s.stop) (Interrupted s) s := by
  unfold descend
  refine wp_bind (wp_getState (wp_bind (wp_interrupted fun slope _ => ?_)))
  split
  · exact wp_pure ⟨rfl, rfl⟩
  · exact wp_bind (wp_log (wp_bind (wp_update (wp_pure ⟨rfl, rfl⟩))))

/-! The lengths a search tries are counted by the trial points on the route. -/

theorem leads_probe (hp : Route k s₀ p loc u n) (hloc : loc.Inner) (hs : s.iter = u.iter) (a : F) :
    leads (probe k a) (fun _ t q => t = s ∧ Route k s₀ q loc u (n + 1)) (Stranded k s₀) s p := by
  unfold probe
  exact leads_bind (leads_getState (leads_bind (leads_tryStep hp hloc hs fun _ q hq => leads_pure ⟨rfl, hq⟩)))

theorem leads_narrowTimes (hp : Route k s₀ p loc u n) (hloc : loc.Inner) (hs : s.iter = u.iter) (m : Nat) (br : Bracket F) :
    leads (br.narrowTimes k m) (fun _ t q => t = s ∧ Route k s₀ q loc u (n + m)) (Stranded k s₀) s p := by
  induction m generalizing p n br with
  | zero => exact leads_pure ⟨rfl, hp⟩
  | succ m ih =>
    have hnarrow : leads (br.narrow k) (fun _ t q => t = s ∧ Route k s₀ q loc u (n + 1)) (Stranded k s₀) s p := by
      unfold Bracket.narrow
      split
      · exact leads_bind (leads_mono (leads_probe hp hloc hs _) (fun _ _ _ h => leads_pure h) fun _ _ _ h => h)
      · exact leads_bind (leads_mono (leads_probe hp hloc hs _) (fun _ _ _ h => leads_pure h) fun _ _ _ h => h)
    refine leads_bind (leads_mono hnarrow ?_ fun _ _ _ h => h)
    rintro br _ q ⟨rfl, hq⟩
    rw [Nat.add_comm m 1, ← Nat.add_assoc]
    exact ih hq br

theorem leads_goldenSection (hp : Route k s₀ p loc u 0) (hloc : loc.Inner) (hs : s.iter = u.iter) {m : Nat} (hm : 0 < m) (a : F) :
    leads (goldenSection k m a) (fun r t q => t = s ∧ 1 ≤ r.2 ∧ r.2 ≤ m ∧ Route k s₀ q loc u r.2) (Stranded k s₀) s p := by
  unfold goldenSection
  refine leads_bind (leads_mono (leads_probe hp hloc hs _) ?_ fun _ _ _ h => h)
  rintro left _ q ⟨rfl, hq⟩
  split
  · exact leads_pure ⟨rfl, Nat.le_refl 1, hm, hq⟩
  case isFalse hmore =>
    refine leads_bind (leads_mono (leads_probe hq hloc hs _) ?_ fun _ _ _ h => h)
    rintro right _ q ⟨rfl, hq⟩
    refine leads_bind (leads_mono (leads_narrowTimes hq hloc hs _ _) ?_ fun _ _ _ h => h)
    rintro br _ q ⟨rfl, hq⟩
    have hcount : 0 + 1 + 1 + (m - 2) = m := by omega
    exact leads_pure ⟨rfl, hm, Nat.le_refl m, hcount ▸ hq⟩

theorem leads_backTrack (hloc : loc.Inner) (hs : s.iter = u.iter) (limit slope : F) (budget : Nat)
    (hp : Route k s₀ p loc u n) (a : F) :
    leads (backTrack k limit slope budget n a)
      (fun r t q => t = s ∧ n < r.2 ∧ r.2 ≤ n + (budget + 1) ∧ Route k s₀ q loc u r.2) (Stranded k s₀) s p := by
  induction budget generalizing p n a with
  | zero =>
    refine leads_bind (leads_mono (leads_probe hp hloc hs a) ?_ fun _ _ _ h => h)
    rintro t _ q ⟨rfl, hq⟩
    exact leads_pure ⟨rfl, Nat.lt_succ_self n, Nat.le_refl _, hq⟩
  | succ budget ih =>
    refine leads_bind (leads_mono (leads_probe hp hloc hs a) ?_ fun _ _ _ h => h)
    rintro t _ q ⟨rfl, hq⟩
    split
    · exact leads_pure ⟨rfl, Nat.lt_succ_self n, by dsimp only; omega, hq⟩
    · refine leads_mono (ih hq _) ?_ fun _ _ _ h => h
      rintro r _ q ⟨rfl, hmin, hmax, hq⟩
      exact ⟨rfl, by omega, by omega, hq⟩

/-- A search tries as many points as it says, at least one and at most its bound. -/
theorem leads_search (hmax : 0 < k.par.lineSearchIterMax) (hp : Route k s₀ p loc u 0) (hloc : loc.Inner)
    (hs : s.iter = u.iter) (a limit slope : F) :
    leads (search k a limit slope)
      (fun r t q => t = s ∧ 1 ≤ r.2 ∧ r.2 ≤ k.par.lineSearchIterMax ∧ Route k s₀ q loc u r.2) (Stranded k s₀) s p := by
  have hone : leads (do return (← probe k a, 1))
      (fun r t q => t = s ∧ 1 ≤ r.2 ∧ r.2 ≤ k.par.lineSearchIterMax ∧ Route k s₀ q loc u r.2) (Stranded k s₀) s p := by
    refine leads_bind (leads_mono (leads_probe hp hloc hs a) ?_ fun _ _ _ h => h)
    rintro t _ q ⟨rfl, hq⟩
    exact leads_pure ⟨rfl, Nat.le_refl 1, hmax, hq⟩
  unfold search
  split
  · exact leads_goldenSection hp hloc hs hmax a
  · refine leads_mono (leads_backTrack hloc hs limit slope _ hp a) ?_ fun _ _ _ h => h
    rintro r _ q ⟨rfl, hmin, hbound, hq⟩
    exact ⟨rfl, by omega, by omega, hq⟩
  · exact hone
  · exact hone

/-- Where a search ends: with the step, or where another search begins. -/
def AttemptArrives (k : Setup F) (s₀ : State F) (more : Bool) (t : State F) (p : List (Event F)) : Prop :=
  if more then
    t.stop = .notConverged ∧ t.rejected < k.par.rejectedMax ∧ Route k s₀ p .afterRejectedLineSearch t 0
  else StepArrives k s₀ t p

theorem leads_reject (hk : k.hooks.Observing) (hs : s.stop = .notConverged) (hp : Route k s₀ p loc u n)
    (leg : ∀ v, v.counters = s.counters.reject → Leg k loc u n .afterRejectedLineSearch v) (r : Reference F) (a : F)
    (t : Probe F) : leads (reject k r a t) (AttemptArrives k s₀) (Stranded k s₀) s p := by
  unfold reject
  refine leads_bind (leads_update (leads_bind (leads_getState (leads_bind (leads_note hp fun q hq => ?_)))))
  refine leads_bind (leads_hook hk hq (leg _ rfl) fun q hq => leads_bind (leads_getState ?_))
  split
  · refine leads_bind (leads_note hq fun q hq => leads_bind (leads_setStop (leads_pure ?_)))
    exact .stopped ⟨nofun, nofun, _, _, _, hq, .counted .rejectedSearch⟩
  case isFalse hroom =>
    refine leads_pure ?_
    unfold AttemptArrives
    rw [if_pos (decide_eq_true hs)]
    exact ⟨hs, Nat.lt_of_not_le hroom, hq⟩

/-- One search, which begins where the last hook point saw the counters of the state. -/
theorem leads_attempt (hk : k.hooks.Observing) (hmax : 0 < k.par.lineSearchIterMax) (hs : s.stop = .notConverged)
    (hcounters : s.counters = u.counters) (hp : Route k s₀ p loc u 0) (hsearch : Searches k u loc) (r : Reference F) :
    leads (attempt k r) (AttemptArrives k s₀) (Stranded k s₀) s p := by
  have hloc : loc.Inner := by
    constructor <;> (rintro rfl; cases hsearch)
  unfold attempt
  refine leads_bind (leads_getState (leads_bind (leads_none hp safeLength_spec ?_ ?_)))
  · rintro a _ q ⟨rfl, -⟩ hq
    split
    · refine leads_bind (leads_getState (leads_bind (leads_note hq fun q hq => leads_bind (leads_setStop (leads_pure ?_)))))
      exact .stopped ⟨nofun, nofun, _, _, _, hq, hcounters ▸ .counted hsearch.mayEnd⟩
    · refine leads_bind (leads_mono (leads_search hmax hq hloc (congrArg Counters.iter hcounters) a r.limit r.slope) ?_ fun _ _ _ h => h)
      rintro ⟨t, evals⟩ s q ⟨rfl, hmin, hbound, hq⟩
      have hsearched : s.counters.search evals = u.counters.search evals := congrArg (Counters.search · evals) hcounters
      have haccept : ∀ v q, v.stop = .notConverged → v.counters = s.counters.search evals → Route k s₀ q loc u evals →
          leads (accept k t.trial) (fun _ => StepArrives k s₀) (Stranded k s₀) v q := by
        intro v q hv hcounters hq
        refine leads_accept hk hv hq (fun w hw => ?_) t.trial
        exact .searched hsearch hmin hbound (hw.trans (hcounters.trans hsearched))
      have hreject : ∀ v q, v.stop = .notConverged → v.counters = s.counters.search evals → Route k s₀ q loc u evals →
          leads (reject k r a t) (AttemptArrives k s₀) (Stranded k s₀) v q := by
        intro v q hv hcounters hq
        refine leads_reject hk hv hq (fun w hw => .missed hsearch hmin hbound ?_) r a t
        rw [hw, hcounters, hsearched]
      refine leads_bind (leads_update ?_)
      dsimp only
      split
      · refine leads_bind (leads_bind (leads_update ?_))
        exact leads_mono (haccept _ q hs rfl hq) (fun _ _ _ h => leads_pure h) fun _ _ _ h => h
      · exact hreject _ q hs rfl hq
  · rintro e _ q rfl hq
    exact .ended hq (hcounters ▸ .counted hsearch.mayEnd)

theorem leads_attempts (hk : k.hooks.Observing) (hmax : 0 < k.par.lineSearchIterMax) (r : Reference F) (fuel : Nat)
    (hs : s.stop = .notConverged) (hcounters : s.counters = u.counters) (hp : Route k s₀ p loc u 0)
    (hsearch : Searches k u loc) :
    leads (attempts k r fuel) (fun _ => StepArrives k s₀) (Stranded k s₀) s p := by
  induction fuel generalizing s u p loc with
  | zero => exact leads_throw (.exhausted rfl)
  | succ fuel ih =>
    refine leads_bind (leads_mono (leads_attempt hk hmax hs hcounters hp hsearch r) ?_ fun _ _ _ h => h)
    rintro (_ | _) t q ht
    · exact leads_pure ht
    · obtain ⟨hrunning, hroom, hq⟩ := ht
      exact ih hrunning rfl hq (.again hroom)

theorem leads_step (hk : k.hooks.Observing) (ha : k.par.algorithm = .lineSearch) (hmax : 0 < k.par.lineSearchIterMax)
    (hs : s.stop = .notConverged) (hp : Route k s₀ p loc u n) (leg : Leg k loc u n .beforeGetStep s) :
    leads (step k) (fun _ => StepArrives k s₀) (Stranded k s₀) s p := by
  unfold step
  refine leads_bind (leads_hook hk hp leg fun q hq => ?_)
  refine leads_bind (leads_none hq (updateDirection_counts ha) ?_ fun e t q he hq =>
    .of_interrupted he rfl hq ⟨nofun, nofun⟩)
  have hsearch : ∀ slope v t q, v.stop = .notConverged → v.counters = t.counters → Route k s₀ q .getStep t 0 → leads (do
      visit k .beforeLineSearch
      attempts k (reference (← getState) slope) (k.par.rejectedMax + patience)) (fun _ => StepArrives k s₀)
      (Stranded k s₀) v q := fun slope v t q hv hcounters hq =>
    leads_bind (leads_hook hk hq (.directed ha hcounters) fun q hq => leads_bind (leads_getState
      (leads_attempts hk hmax _ _ hv rfl hq .first)))
  rintro o t q ⟨hcounters, hstop⟩ hq
  split
  case h_1 e =>
    have hending : Ending k .beforeGetStep s 0 t.counters := hcounters ▸ .uncomputed
    refine leads_bind (leads_stepFailure hq (fun q hq => leads_pure (.stopped ⟨nofun, nofun, _, _, _, hq, hending⟩)) ?_)
    exact fun _ q hq => .ended hq hending
  case h_2 =>
    refine leads_bind (leads_stopped ?_)
    rcases hstop with hstop | hstop
    · rw [if_neg (by simp [hstop, hs])]
      have hrunning : t.stop = .notConverged := hstop.trans hs
      refine leads_bind (leads_hook hk hq (.computed hcounters) fun q hq => ?_)
      refine leads_bind (leads_none hq descend_counts ?_ fun e v q he hq => .of_interrupted he rfl hq ⟨nofun, nofun⟩)
      rintro slope v q ⟨hsame, hstop⟩ hq
      refine leads_bind (leads_getState (leads_bind (leads_none hq (wp_interrupted (Q := fun _ w => w = v)
        fun _ _ => rfl) ?_ fun e w q he hq =>
          .of_interrupted he (congrArg Counters.iter hsame) hq ⟨nofun, nofun⟩)))
      rintro o _ q rfl hq
      split
      · exact leads_bind (leads_update (hsearch slope _ t q (hstop.trans hrunning) hsame hq))
      · exact hsearch slope _ t q (hstop.trans hrunning) hsame hq
    · rw [if_pos (by simp [hstop])]
      exact leads_pure (.stopped ⟨by simp [hstop], by simp [hstop], _, _, _, hq, hcounters ▸ .uncomputed⟩)

end LineSearch

/-! ### Supplied steps -/

theorem UserStep.leads_step (hk : k.hooks.Observing) (ha : k.par.algorithm = .userDefined) (hs : s.stop = .notConverged)
    (hp : Route k s₀ p loc u n) (leg : Leg k loc u n .beforeGetStep s) :
    leads (UserStep.step k) (fun _ => StepArrives k s₀) (Stranded k s₀) s p := by
  have hcomputed : ∀ v : State F, v.counters = s.counters → v.counters = s.counters.solve (k.krylovIterations s) := by
    intro v hv
    unfold Setup.krylovIterations
    rw [ha]
    exact hv
  have haccept : ∀ w v q t, Route k s₀ q .getStep w 1 → v.stop = .notConverged → v.counters = w.counters →
      leads (accept k t) (fun _ => StepArrives k s₀) (Stranded k s₀) v q := fun w v q t hq hv hcounters =>
    leads_accept hk hv hq (fun x hx => .supplied ha (hx.trans hcounters)) t
  unfold UserStep.step
  refine leads_bind (leads_hook hk hp leg fun q hq => leads_bind (leads_update ?_))
  refine leads_bind (leads_hook hk hq (.computed (hcomputed _ rfl)) fun q hq => leads_bind (leads_getState ?_))
  split
  · refine leads_bind (leads_note hq fun q hq => leads_bind (leads_fail hq fun q hq => ?_))
    exact .ended hq (.counted .step)
  · refine leads_bind (leads_update (leads_bind (leads_tryStep hq ⟨nofun, nofun⟩ rfl fun t q hq => ?_)))
    split
    · refine leads_bind (leads_note hq fun q hq => leads_setStop ?_)
      exact .stopped ⟨nofun, nofun, _, _, _, hq, .infeasible ha⟩
    · exact haccept _ _ q t hq hs rfl

/-- A step of any driver, which begins at the next hook point. -/
theorem leads_takeStep (hk : k.hooks.Observing) (hmax : 0 < k.par.lineSearchIterMax) (hs : s.stop = .notConverged)
    (hp : Route k s₀ p loc u n) (leg : Leg k loc u n .beforeGetStep s) :
    leads (takeStep k) (fun _ => StepArrives k s₀) (Stranded k s₀) s p := by
  unfold takeStep
  split
  case h_1 ha => exact TrustRegion.leads_attempts hk ha _ hs hp leg
  case h_2 ha => exact LineSearch.leads_step hk ha hmax hs hp leg
  case h_3 ha => exact UserStep.leads_step hk ha hs hp leg

end ConstrainedOpt
