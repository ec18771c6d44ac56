import ConstrainedOpt.Proofs.History.Faults

/-! # The course of a step

What any step driver does to the state and to the history of a run until it accepts a trial point: it works on
its own fields, looks at trial points, visits the hook points of a step, and stops the run only with a message
that tells what failed. `StepCourse` is what an invariant has to withstand to survive all that; a step then ends
in the invariant, or in what accepting a trial point makes of it. Only the trust region changes its radius and the
penalty, and only it has a hook point for its rejections, so `SearchCourse` is enough for the other drivers.
-/
namespace ConstrainedOpt
variable {F : Type}

namespace Running
variable [Scalar F]

structure SearchCourse (k : Setup F) (I J H : State F → List (Event F) → Prop) : Prop extends Enduring I where
  /-- The manipulator leaves the count of rejections alone. -/
  rejected : ∀ loc s, (k.hooks.manipulate loc s).rejected = s.rejected
  tried : ∀ s p u t, I s p → I s (p ++ [.trial u t])
  seen : ∀ loc s p, loc.OnStep → loc ≠ .afterRejectedTrustRegion → I s p →
    I (k.hooks.manipulate loc s) (p ++ [.visit loc s])
  searched : ∀ s t p, t.kept = s.kept → t.stop = s.stop → t.delta = s.delta → t.rho = s.rho → I s p → I t p
  accepted : ∀ t s p, I s p → leads (accept k t) (fun _ => J) (fun e u q => H u q ∧ Told e q) s p
  done : ∀ s p, I s p → J s p
  halted : ∀ s p, I s p → H s p

structure StepCourse (k : Setup F) (I J H : State F → List (Event F) → Prop) : Prop extends SearchCourse k I J H where
  visited : ∀ loc s p, loc.OnStep → I s p → I (k.hooks.manipulate loc s) (p ++ [.visit loc s])
  worked : ∀ s t p, t.kept = s.kept → t.stop = s.stop → I s p → I t p
  seen := fun loc s p hloc _ => visited loc s p hloc
  searched := fun s t p hkept hstop _ _ => worked s t p hkept hstop

/-- The invariant with a number of rejections. -/
def Trying (I : State F → List (Event F) → Prop) (r : Nat) (s : State F) (p : List (Event F)) : Prop :=
  I s p ∧ s.rejected = r

variable {k : Setup F} {I J H : State F → List (Event F) → Prop} {r : Nat} {α : Type}

/-- Where an attempt of a step leads that has seen `r` rejections: it is over, or there is one more of them and
room for another attempt. -/
def AttemptLeads (k : Setup F) (I J : State F → List (Event F) → Prop) (r : Nat) (again : Bool) (t : State F)
    (p : List (Event F)) : Prop :=
  if again then Trying I (r + 1) t p ∧ r + 1 < k.par.rejectedMax else J t p

namespace SearchCourse

theorem trying (fr : SearchCourse k I J H) : Enduring (Trying I r) where
  noted s p n h := ⟨fr.noted s p n h.1, h.2⟩
  faulted s p level m stop hm hstop h := ⟨fr.faulted s p level m stop hm hstop h.1, h.2⟩

theorem keeps_own (fr : SearchCourse k I J H) {f : State F → State F}
    (hf : ∀ s, (f s).kept = s.kept ∧ (f s).stop = s.stop ∧ (f s).rejected = s.rejected ∧ (f s).delta = s.delta ∧
      (f s).rho = s.rho) :
    Keeps (Trying I r) (update f) := by
  refine .update fun s p h => ?_
  obtain ⟨hkept, hstop, hrejected, hdelta, hrho⟩ := hf s
  exact ⟨fr.searched s _ p hkept hstop hdelta hrho h.1, hrejected.trans h.2⟩

theorem keeps_visit (fr : SearchCourse k I J H) (loc : Location) (hloc : loc.OnStep)
    (hne : loc ≠ .afterRejectedTrustRegion) : Keeps (Trying I r) (visit k loc) := by
  intro s p h
  apply leads_visit
  exact ⟨fr.seen loc s _ hloc hne (fr.noted s p _ h.1), (fr.rejected loc s).trans h.2⟩

theorem keeps_tryStep (fr : SearchCourse k I J H) (dx : Vec F) (a : F) : Keeps (Trying I r) (tryStep k dx a) := by
  unfold tryStep
  refine Keeps.getState.bind fun s => (fr.trying.keeps_lift _).bind fun t => ?_
  have htrial : Keeps (Trying I r) (event (.trial s t)) := .event fun u p h => ⟨fr.tried u p s t h.1, h.2⟩
  exact htrial.bind fun _ => .pure t

/-! ### Composite steps -/

theorem keeps_quasinormalStep (fr : SearchCourse k I J H) : Keeps (Trying I r) (TrustRegion.quasinormalStep k) := by
  unfold TrustRegion.quasinormalStep
  refine Keeps.getState.bind fun s => ?_
  split
  · exact Keeps.bind (fr.keeps_own (by exact fun _ => ⟨rfl, rfl, rfl, rfl, rfl⟩)) fun _ => .pure _
  · refine (fr.trying.keeps_lift _).bind fun safeguard => ?_
    split
    · exact .pure _
    · refine (fr.trying.keeps_lift _).bind fun q => ?_
      exact Keeps.bind (fr.keeps_own (by exact fun _ => ⟨rfl, rfl, rfl, rfl, rfl⟩)) fun _ => .pure _

theorem keeps_tangentialStep (fr : SearchCourse k I J H) : Keeps (Trying I r) (TrustRegion.tangentialStep k) := by
  unfold TrustRegion.tangentialStep
  refine Keeps.getState.bind fun s => (fr.trying.keeps_lift _).bind fun q => ?_
  split
  · exact .pure _
  · exact Keeps.bind (fr.keeps_own (by exact fun _ => ⟨rfl, rfl, rfl, rfl, rfl⟩)) fun _ => .pure _

theorem keeps_compositeStep (fr : SearchCourse k I J H) : Keeps (Trying I r) (TrustRegion.compositeStep k) := by
  unfold TrustRegion.compositeStep
  refine fr.keeps_quasinormalStep.bind fun q => ?_
  split
  case h_1 e => exact (fr.trying.keeps_stepFailure k (.quasinormal e)).bind fun _ => .pure _
  case h_2 stop =>
    refine Keeps.bind (fr.keeps_own (by exact fun _ => ⟨rfl, rfl, rfl, rfl, rfl⟩)) fun _ => fr.keeps_tangentialStep.bind fun q => ?_
    split
    case h_1 e => exact (fr.trying.keeps_stepFailure k (.tangential e)).bind fun _ => .pure _
    case h_2 stop =>
      split
      · refine Keeps.getState.bind fun s => ?_
        exact fun t p h => fr.trying.leads_fault (.truncated s.iter stop) (.inl rfl) h (Keeps.pure none)
      · refine Keeps.getState.bind fun s => (fr.trying.keeps_lift _).bind fun dx => ?_
        exact Keeps.bind (fr.keeps_own (by exact fun _ => ⟨rfl, rfl, rfl, rfl, rfl⟩)) fun _ => .pure _

/-- A piece that keeps the invariant, as a part of a step. -/
theorem leads_keeps (fr : SearchCourse k I J H) {c : Running F α} (hc : Keeps (Trying I r) c) {s : State F}
    {p : List (Event F)} (h : Trying I r s p) {Q : α → State F → List (Event F) → Prop}
    (hQ : ∀ a t q, Trying I r t q → Q a t q) : leads c Q (fun e t q => H t q ∧ Told e q) s p :=
  leads_mono (hc s p h) hQ fun _ t q h => ⟨fr.halted t q h.1.1, h.2⟩

/-! ### Line-search steps -/

theorem keeps_newtonDirection (fr : SearchCourse k I J H) (last : Vec F) :
    Keeps (Trying I r) (LineSearch.newtonDirection k last) := by
  unfold LineSearch.newtonDirection
  refine Keeps.getState.bind fun s => (fr.trying.keeps_lift _).bind fun q => ?_
  split
  · exact Keeps.bind (fr.keeps_own (by exact fun _ => ⟨rfl, rfl, rfl, rfl, rfl⟩)) fun _ => .pure _
  case h_2 res =>
    refine Keeps.bind (fr.keeps_own (by exact fun _ => ⟨rfl, rfl, rfl, rfl, rfl⟩)) fun _ => ?_
    split
    · refine Keeps.getState.bind fun s t p h => ?_
      exact fr.trying.leads_fault (.newton s.iter res.stop) (.inl rfl) h (Keeps.pure _)
    · exact .pure _

theorem keeps_updateDirection (fr : SearchCourse k I J H) : Keeps (Trying I r) (LineSearch.updateDirection k) := by
  have hdirection : ∀ last, Keeps (Trying I r) (LineSearch.direction k last) := by
    intro last
    unfold LineSearch.direction
    refine Keeps.getState.bind fun s => ?_
    split
    · exact (fr.trying.keeps_lift _).bind fun _ => .pure _
    · exact (fr.trying.keeps_lift _).bind fun _ => (fr.trying.keeps_lift _).bind fun _ => .pure _
    · exact (fr.trying.keeps_lift _).bind fun _ => (fr.trying.keeps_lift _).bind fun _ => .pure _
    · exact (fr.trying.keeps_lift _).bind fun _ => (fr.trying.keeps_lift _).bind fun _ => .pure _
    · exact (fr.trying.keeps_lift _).bind fun _ => .pure _
    · exact fr.keeps_newtonDirection last
  unfold LineSearch.updateDirection
  refine Keeps.getState.bind fun s => (hdirection _).bind fun q => ?_
  split
  · exact .pure _
  · exact Keeps.bind (fr.keeps_own (by exact fun _ => ⟨rfl, rfl, rfl, rfl, rfl⟩)) fun _ => .pure _

theorem keeps_descend (fr : SearchCourse k I J H) : Keeps (Trying I r) LineSearch.descend := by
  unfold LineSearch.descend
  refine Keeps.getState.bind fun s => (fr.trying.keeps_lift _).bind fun slope => ?_
  split
  · exact .pure _
  · refine (fr.trying.keeps_log _ _).bind fun _ => ?_
    exact Keeps.bind (fr.keeps_own (by exact fun _ => ⟨rfl, rfl, rfl, rfl, rfl⟩)) fun _ => .pure _

theorem keeps_safeLength (fr : SearchCourse k I J H) (a : F) : Keeps (Trying I r) (LineSearch.safeLength k a) := by
  unfold LineSearch.safeLength
  split
  · exact .pure _
  · refine Keeps.getState.bind fun s => (fr.trying.keeps_lift _).bind fun q => ?_
    split
    · exact fr.trying.keeps_fail k _
    · exact (fr.trying.keeps_lift _).bind fun _ => .pure _

theorem keeps_probe (fr : SearchCourse k I J H) (a : F) : Keeps (Trying I r) (LineSearch.probe k a) := by
  unfold LineSearch.probe
  exact Keeps.getState.bind fun s => (fr.keeps_tryStep _ _).bind fun t => .pure _

theorem keeps_narrowTimes (fr : SearchCourse k I J H) (n : Nat) (br : LineSearch.Bracket F) :
    Keeps (Trying I r) (br.narrowTimes k n) := by
  induction n generalizing br with
  | zero => exact .pure br
  | succ n ih =>
    have hnarrow : Keeps (Trying I r) (br.narrow k) := by
      unfold LineSearch.Bracket.narrow
      split
      · exact (fr.keeps_probe _).bind fun _ => .pure _
      · exact (fr.keeps_probe _).bind fun _ => .pure _
    exact hnarrow.bind ih

theorem keeps_backTrack (fr : SearchCourse k I J H) (limit slope : F) (budget evals : Nat) (a : F) :
    Keeps (Trying I r) (LineSearch.backTrack k limit slope budget evals a) := by
  induction budget generalizing evals a with
  | zero => exact (fr.keeps_probe a).bind fun _ => .pure _
  | succ budget ih =>
    refine (fr.keeps_probe a).bind fun t => ?_
    split
    · exact .pure _
    · exact ih _ _

theorem keeps_search (fr : SearchCourse k I J H) (a limit slope : F) :
    Keeps (Trying I r) (LineSearch.search k a limit slope) := by
  unfold LineSearch.search
  split
  · unfold LineSearch.goldenSection
    refine (fr.keeps_probe _).bind fun left => ?_
    split
    · exact .pure _
    · exact (fr.keeps_probe _).bind fun right => (fr.keeps_narrowTimes _ _).bind fun br => .pure _
  · exact fr.keeps_backTrack _ _ _ _ _
  · exact (fr.keeps_probe _).bind fun _ => .pure _
  · exact (fr.keeps_probe _).bind fun _ => .pure _

theorem lineSearch_reject (fr : SearchCourse k I J H) (ref : LineSearch.Reference F) (a : F) (t : LineSearch.Probe F)
    {s : State F} {p : List (Event F)} (h : Trying I r s p) :
    leads (LineSearch.reject k ref a t) (AttemptLeads k I J r) (fun e t q => H t q ∧ Told e q) s p := by
  unfold LineSearch.reject
  refine leads_bind (leads_update (leads_bind (leads_getState (leads_bind ?_))))
  refine fr.leads_keeps (r := r + 1) (fr.trying.keeps_log _ _) ?_ fun _ t q ht => ?_
  · exact ⟨fr.searched s _ p rfl rfl rfl rfl h.1, congrArg (· + 1) h.2⟩
  refine leads_bind (fr.leads_keeps (fr.keeps_visit .afterRejectedLineSearch trivial nofun) ht fun _ t q ht => ?_)
  refine leads_bind (leads_getState ?_)
  split
  case isTrue =>
    refine fr.trying.leads_fault (.searches _ _) (.inl rfl) ht fun t q ht => leads_pure ?_
    exact fr.done t q ht.1
  case isFalse hroom =>
    refine leads_pure ?_
    by_cases hstop : t.stop = .notConverged
    · simp only [hstop, decide_true]
      exact ⟨ht, by rw [← ht.2]; omega⟩
    · simp only [hstop, decide_false]
      exact fr.done t q ht.1

theorem lineSearch_attempt (fr : SearchCourse k I J H) (ref : LineSearch.Reference F) {s : State F}
    {p : List (Event F)} (h : Trying I r s p) :
    leads (LineSearch.attempt k ref) (AttemptLeads k I J r) (fun e t q => H t q ∧ Told e q) s p := by
  unfold LineSearch.attempt
  refine leads_bind (leads_getState (leads_bind (fr.leads_keeps (fr.keeps_safeLength _) h fun a t q ht => ?_)))
  split
  · refine leads_bind (leads_getState (fr.trying.leads_fault (.vanished _) (.inr rfl) ht fun t q ht => leads_pure ?_))
    exact fr.done t q ht.1
  · refine leads_bind (fr.leads_keeps (fr.keeps_search _ _ _) ht fun o t q ht => ?_)
    obtain ⟨probe, evals⟩ := o
    dsimp only
    refine leads_bind (fr.leads_keeps (fr.keeps_own (by exact fun _ => ⟨rfl, rfl, rfl, rfl, rfl⟩)) ht fun _ t q ht => ?_)
    split
    · refine leads_bind (leads_bind (fr.leads_keeps (fr.keeps_own (by exact fun _ => ⟨rfl, rfl, rfl, rfl, rfl⟩)) ht
        fun _ t q ht => ?_))
      exact leads_mono (fr.accepted probe.trial t q ht.1) (fun _ _ _ h => leads_pure h) fun _ _ _ h => h
    · exact fr.lineSearch_reject ref a probe ht

theorem lineSearch_attempts (fr : SearchCourse k I J H) (ref : LineSearch.Reference F) {fuel : Nat} (hfuel : 0 < fuel)
    (hroom : k.par.rejectedMax ≤ fuel + r) {s : State F} {p : List (Event F)} (h : Trying I r s p) :
    leads (LineSearch.attempts k ref fuel) (fun _ => J) (fun e t q => H t q ∧ Told e q) s p := by
  induction fuel generalizing r s p with
  | zero => omega
  | succ fuel ih =>
    refine leads_bind (leads_mono (fr.lineSearch_attempt ref h) ?_ fun _ _ _ h => h)
    intro again t q ht
    cases again with
    | false => exact leads_pure ht
    | true =>
      obtain ⟨ht, hmore⟩ := ht
      exact ih (by omega) (by omega) ht

theorem lineSearch_step (fr : SearchCourse k I J H) {s : State F} {p : List (Event F)} (h : I s p) :
    leads (LineSearch.step k) (fun _ => J) (fun e t q => H t q ∧ Told e q) s p := by
  have hsearch : ∀ slope t q, Trying I s.rejected t q → leads (do
      visit k .beforeLineSearch
      LineSearch.attempts k (LineSearch.reference (← getState) slope) (k.par.rejectedMax + patience))
      (fun _ => J) (fun e t q => H t q ∧ Told e q) t q := by
    intro slope t q ht
    refine leads_bind (fr.leads_keeps (fr.keeps_visit .beforeLineSearch trivial nofun) ht fun _ t q ht => ?_)
    refine leads_bind (leads_getState ?_)
    exact fr.lineSearch_attempts _ (Nat.add_pos_right _ (by decide)) (by omega) ht
  have hs : Trying I s.rejected s p := ⟨h, rfl⟩
  unfold LineSearch.step
  refine leads_bind (fr.leads_keeps (fr.keeps_visit .beforeGetStep trivial nofun) hs fun _ t q ht => ?_)
  refine leads_bind (fr.leads_keeps fr.keeps_updateDirection ht fun o t q ht => ?_)
  split
  case h_1 e =>
    refine leads_bind (fr.leads_keeps (fr.trying.keeps_stepFailure k (.direction e)) ht fun _ t q ht => leads_pure ?_)
    exact fr.done t q ht.1
  · refine leads_bind (leads_stopped ?_)
    split
    · exact leads_pure (fr.done t q ht.1)
    · refine leads_bind (fr.leads_keeps (fr.keeps_visit .getStep trivial nofun) ht fun _ t q ht => ?_)
      refine leads_bind (fr.leads_keeps fr.keeps_descend ht fun slope t q ht => ?_)
      refine leads_bind (leads_getState (leads_bind (fr.leads_keeps (fr.trying.keeps_lift _) ht fun o t q ht => ?_)))
      split
      · exact leads_bind (fr.leads_keeps (fr.keeps_own (by exact fun _ => ⟨rfl, rfl, rfl, rfl, rfl⟩)) ht
          fun _ t q ht => hsearch slope t q ht)
      · exact hsearch slope t q ht

/-! ### Steps of the manipulator -/

theorem userStep_step (fr : SearchCourse k I J H) {s : State F} {p : List (Event F)} (h : I s p) :
    leads (UserStep.step k) (fun _ => J) (fun e t q => H t q ∧ Told e q) s p := by
  have hs : Trying I s.rejected s p := ⟨h, rfl⟩
  have htry : ∀ (u t : State F) (q : List (Event F)), Trying I s.rejected t q → leads (do
      update fun s => { s with normDx := Vec.norm s.dx }
      let v ← tryStep k u.dx 1
      if !Scalar.isFinite (v.barrier u.mu) then
        log .warn ["user-defined step left the strictly feasible region"]
        setStop .interiorPointInstability
      else accept k v) (fun _ => J) (fun e t q => H t q ∧ Told e q) t q := by
    intro u t q ht
    refine leads_bind (fr.leads_keeps (fr.keeps_own (by exact fun _ => ⟨rfl, rfl, rfl, rfl, rfl⟩)) ht fun _ t q ht => ?_)
    refine leads_bind (fr.leads_keeps (fr.keeps_tryStep _ _) ht fun v t q ht => ?_)
    split
    · exact fr.leads_keeps (fr.trying.keeps_fault .userStep (.inr rfl)) ht fun _ t q ht => fr.done t q ht.1
    · exact fr.accepted v t q ht.1
  unfold UserStep.step
  refine leads_bind (fr.leads_keeps (fr.keeps_visit .beforeGetStep trivial nofun) hs fun _ t q ht => ?_)
  refine leads_bind (fr.leads_keeps (fr.keeps_own (by exact fun _ => ⟨rfl, rfl, rfl, rfl, rfl⟩)) ht fun _ t q ht => ?_)
  refine leads_bind (fr.leads_keeps (fr.keeps_visit .getStep trivial nofun) ht fun _ t q ht => ?_)
  refine leads_bind (leads_getState ?_)
  split
  · refine leads_bind (fr.leads_keeps (fr.trying.keeps_log _ _) ht fun _ u q hu => ?_)
    exact leads_bind (fr.leads_keeps (fr.trying.keeps_fail k _) hu fun _ u q hu => htry t u q hu)
  · exact htry t t q ht

end SearchCourse

namespace StepCourse

theorem keeps_work (fr : StepCourse k I J H) {f : State F → State F}
    (hf : ∀ s, (f s).kept = s.kept ∧ (f s).stop = s.stop ∧ (f s).rejected = s.rejected) :
    Keeps (Trying I r) (update f) := by
  refine .update fun s p h => ?_
  obtain ⟨hkept, hstop, hrejected⟩ := hf s
  exact ⟨fr.worked s _ p hkept hstop h.1, hrejected.trans h.2⟩

/-! ### Trust-region steps -/

theorem keeps_rejection (fr : StepCourse k I J H) : Keeps (Trying I r) (visit k .afterRejectedTrustRegion) := by
  intro s p h
  apply leads_visit
  exact ⟨fr.visited _ s _ trivial (fr.noted s p _ h.1), (fr.rejected _ s).trans h.2⟩

theorem keeps_predictedReduction (fr : StepCourse k I J H) :
    Keeps (Trying I r) (TrustRegion.predictedReduction k) := by
  unfold TrustRegion.predictedReduction
  refine Keeps.getState.bind fun s => (fr.trying.keeps_lift _).bind fun q => ?_
  dsimp only
  split
  · refine Keeps.bind (fr.keeps_work (by exact fun _ => ⟨rfl, rfl, rfl⟩)) fun _ => (fr.trying.keeps_log _ _).bind fun _ => ?_
    exact Keeps.getState.bind fun _ => .pure _
  · exact Keeps.getState.bind fun _ => .pure _

theorem trustRegion_reject (fr : StepCourse k I J H) (ratio : F) {s : State F} {p : List (Event F)}
    (h : Trying I r s p) :
    leads (TrustRegion.reject k ratio) (fun a => AttemptLeads k I J r (a matches .rejected))
      (fun e t q => H t q ∧ Told e q) s p := by
  have hvisit : ∀ t q, Trying I (r + 1) t q → leads (do
      visit k .afterRejectedTrustRegion
      let s ← getState
      if k.par.rejectedMax ≤ s.rejected then
        log .warn [s.iter, ": ", s.rejected, " steps rejected in a row"]
        setStop .globalizationFailure
        return .finished
      return if s.stop = .notConverged then .rejected else .finished)
      (fun a => AttemptLeads k I J r (a matches TrustRegion.Attempt.rejected))
      (fun e t q => H t q ∧ Told e q) t q := by
    intro t q ht
    refine leads_bind (fr.leads_keeps (fr.keeps_rejection) ht fun _ t q ht => ?_)
    refine leads_bind (leads_getState ?_)
    split
    case isTrue =>
      refine fr.trying.leads_fault (.steps _ _) (.inl rfl) ht fun t q ht => leads_pure ?_
      exact fr.done t q ht.1
    case isFalse hroom =>
      refine leads_pure ?_
      by_cases hstop : t.stop = .notConverged
      · simp only [hstop, if_true]
        exact ⟨ht, by rw [← ht.2]; omega⟩
      · simp only [hstop, if_false]
        exact fr.done t q ht.1
  unfold TrustRegion.reject
  refine leads_bind (leads_update (leads_bind (leads_getState (leads_bind ?_))))
  refine fr.leads_keeps (r := r + 1) (fr.trying.keeps_log _ _) ?_ fun _ t q ht => ?_
  · exact ⟨fr.worked s _ p rfl rfl h.1, congrArg (· + 1) h.2⟩
  split
  · exact leads_bind (fr.leads_keeps (fr.trying.keeps_event _) ht fun _ t q ht => hvisit t q ht)
  · exact hvisit t q ht

theorem trustRegion_judge (fr : StepCourse k I J H) (stop : TruncatedStop) {s : State F} {p : List (Event F)}
    (h : Trying I r s p) :
    leads (TrustRegion.judge k stop) (fun a => AttemptLeads k I J r (a matches .rejected))
      (fun e t q => H t q ∧ Told e q) s p := by
  unfold TrustRegion.judge
  refine leads_bind (fr.leads_keeps fr.keeps_predictedReduction h fun pred t q ht => ?_)
  refine leads_bind (leads_getState (leads_bind (fr.leads_keeps (fr.keeps_tryStep _ _) ht fun v t q ht => ?_)))
  refine leads_bind (fr.leads_keeps (fr.trying.keeps_lift _) ht fun here t q ht => ?_)
  refine leads_bind (fr.leads_keeps (fr.trying.keeps_lift _) ht fun there t q ht => ?_)
  dsimp only
  refine leads_bind (fr.leads_keeps (fr.keeps_work (by exact fun _ => ⟨rfl, rfl, rfl⟩)) ht fun _ t q ht => ?_)
  have haccept : ∀ t q, Trying I r t q → leads (do accept k v; return TrustRegion.Attempt.finished)
      (fun a => AttemptLeads k I J r (a matches .rejected)) (fun e t q => H t q ∧ Told e q) t q := by
    intro t q ht
    exact leads_bind (leads_mono (fr.accepted v t q ht.1) (fun _ _ _ h => leads_pure h) fun _ _ _ h => h)
  split
  · split
    · exact leads_bind (fr.leads_keeps (fr.keeps_work (by exact fun _ => ⟨rfl, rfl, rfl⟩)) ht
        fun _ t q ht => haccept t q ht)
    · exact haccept t q ht
  · exact fr.trustRegion_reject _ ht

theorem trustRegion_attempt (fr : StepCourse k I J H) {s : State F} {p : List (Event F)} (h : Trying I r s p) :
    leads (TrustRegion.attempt k) (fun a => AttemptLeads k I J r (a matches .rejected))
      (fun e t q => H t q ∧ Told e q) s p := by
  unfold TrustRegion.attempt
  refine leads_bind (fr.leads_keeps (fr.keeps_visit .beforeGetStep trivial nofun) h fun _ t q ht => ?_)
  refine leads_bind (fr.leads_keeps fr.keeps_compositeStep ht fun o t q ht => ?_)
  split
  · exact leads_pure (fr.done t q ht.1)
  · refine leads_bind (fr.leads_keeps (fr.keeps_visit .getStep trivial nofun) ht fun _ t q ht => ?_)
    refine leads_bind (fr.leads_keeps (fr.keeps_work (by exact fun _ => ⟨rfl, rfl, rfl⟩)) ht fun _ t q ht => ?_)
    refine leads_bind (leads_getState ?_)
    split
    · refine fr.trying.leads_fault (.vanished _) (.inr rfl) ht fun t q ht => leads_pure ?_
      exact fr.done t q ht.1
    · exact leads_bind (fr.leads_keeps (fr.keeps_visit .beforeActualVersusPredicted trivial nofun) ht fun _ t q ht => fr.trustRegion_judge _ ht)

/-- Attempts end before their bound is reached: each one that asks for another has counted a rejection. -/
theorem trustRegion_attempts (fr : StepCourse k I J H) {fuel : Nat} (hfuel : 0 < fuel)
    (hroom : k.par.rejectedMax ≤ fuel + r) {s : State F} {p : List (Event F)} (h : Trying I r s p) :
    leads (TrustRegion.attempts k fuel) (fun _ => J) (fun e t q => H t q ∧ Told e q) s p := by
  induction fuel generalizing r s p with
  | zero => omega
  | succ fuel ih =>
    refine leads_bind (leads_mono (fr.trustRegion_attempt h) ?_ fun _ _ _ h => h)
    intro a t q ht
    cases a with
    | finished => exact leads_pure ht
    | rejected =>
      obtain ⟨ht, hmore⟩ := ht
      exact ih (by omega) (by omega) ht

theorem trustRegion_step (fr : StepCourse k I J H) {s : State F} {p : List (Event F)} (h : I s p) :
    leads (TrustRegion.step k) (fun _ => J) (fun e t q => H t q ∧ Told e q) s p :=
  fr.trustRegion_attempts (Nat.add_pos_right _ (by decide)) (by omega) ⟨h, rfl⟩

/-! ### Steps of any driver -/

/-- Whatever driver takes a step, it ends in what accepting a trial point makes of the invariant, and never for
want of passes. -/
theorem takeStep_leads (fr : StepCourse k I J H) {s : State F} {p : List (Event F)} (h : I s p) :
    leads (takeStep k) (fun _ => J) (fun e t q => H t q ∧ Told e q) s p := by
  unfold takeStep
  split
  · exact fr.trustRegion_step h
  · exact fr.lineSearch_step h
  · exact fr.userStep_step h

end StepCourse
end Running
end ConstrainedOpt
