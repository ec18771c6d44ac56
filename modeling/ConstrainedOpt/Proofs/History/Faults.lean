import ConstrainedOpt.Proofs.Assertion.History
import ConstrainedOpt.Proofs.Run.Effects

/-! # Faults

The parts of a run that can fail say what failed before they stop it, so the history of a run tells the stops
that were requested from those that were met. An invariant that endures notes and told faults survives every
part of a run that only computes, among them a new gradient.
-/
namespace ConstrainedOpt
variable {F : Type}

/-- What the parts of a run say when they fail and stop it. -/
inductive Fault : Message F → Prop
  | diagnostics : Fault ["diagnostics found a non-finite value"]
  | initialPoint (f : F) :
      Fault ["initial point: f(x) ", .scientific 2 f, ", not strictly feasible or not finite"]
  | initialGradient (e : StepError) : Fault ["Initial gradient", ": ", e.message]
  | barrierUpdate (e : StepError) : Fault ["Barrier update", ": ", e.message]
  | gradientUpdate (e : StepError) : Fault ["Gradient update", ": ", e.message]
  | quasinormal (e : StepError) : Fault ["Quasinormal step", ": ", e.message]
  | tangential (e : StepError) : Fault ["Tangential step", ": ", e.message]
  | direction (e : StepError) : Fault ["Search direction", ": ", e.message]
  | truncated (iter : Nat) (stop : TruncatedStop) :
      Fault [iter, ": tangential step stopped by ", Registry.text stop]
  | newton (iter : Nat) (stop : TruncatedStop) :
      Fault [iter, ": Newton direction stopped by ", Registry.text stop]
  | vanished (iter : Nat) : Fault [iter, ": step vanished at the boundary of the inequality constraint"]
  | steps (iter n : Nat) : Fault [iter, ": ", n, " steps rejected in a row"]
  | searches (iter n : Nat) : Fault [iter, ": ", n, " line searches rejected in a row"]
  | userStep : Fault ["user-defined step left the strictly feasible region"]

/-- A part of the run tells that it failed. -/
def Event.IsFault : Event F → Prop
  | .note (.record _ m) => Fault m
  | .note (.failure _) => True
  | _ => False

namespace Running

/-- An invariant that notes leave alone, and a stop that is told. -/
structure Enduring (I : State F → List (Event F) → Prop) : Prop where
  noted : ∀ s p n, I s p → I s (p ++ [.note n])
  faulted : ∀ s p level m stop, Fault m → (stop = .globalizationFailure ∨ stop = .interiorPointInstability) →
    I s p → I { s with stop } (p ++ [.note (.record level m)])

namespace Enduring
variable {I : State F → List (Event F) → Prop} {α : Type}

theorem notes (h : Enduring I) {s : State F} {p : List (Event F)} (ns : List (Note F)) (hs : I s p) :
    I s (p ++ ns.map Event.note) := by
  induction ns generalizing p with
  | nil => simpa using hs
  | cons n ns ih =>
    have hn := ih (h.noted s p n hs)
    simpa using hn

theorem keeps_log (h : Enduring I) (level : Level) (m : Message F) : Keeps I (log level m) :=
  .event fun s p hs => h.noted s p _ hs

theorem keeps_event (h : Enduring I) (n : Note F) : Keeps I (event (.note n)) :=
  .event fun s p hs => h.noted s p n hs

theorem keeps_lift (h : Enduring I) (c : Journaled F α) : Keeps I (liftM c : Running F α) := by
  intro s p hs
  refine leads_lift ?_ ?_
  · intro a ns _
    exact h.notes ns hs
  · intro q ns _
    exact ⟨h.notes ns hs, trivial⟩

theorem keeps_fail (h : Enduring I) (k : Setup F) (f : Failure) : Keeps I (fail k f : Running F α) := by
  intro s p hs
  refine leads_bind (leads_event (leads_throw ?_))
  exact ⟨h.noted s p _ hs, p, f, rfl⟩

/-- A part that fails says so and stops the run; `rest` is what it does then. -/
theorem leads_fault (h : Enduring I) {level : Level} {m : Message F} {stop : Stop} (hm : Fault m)
    (hstop : stop = .globalizationFailure ∨ stop = .interiorPointInstability) {s : State F} {p : List (Event F)}
    (hs : I s p) {rest : Running F α} {Q : α → State F → List (Event F) → Prop}
    {E : Halt → State F → List (Event F) → Prop} (hrest : ∀ t q, I t q → leads rest Q E t q) :
    leads (do
      log level m
      setStop stop
      rest) Q E s p := by
  refine leads_bind (leads_log (leads_bind (leads_setStop ?_)))
  exact hrest _ _ (h.faulted s p level m stop hm hstop hs)

theorem keeps_fault (h : Enduring I) {level : Level} {m : Message F} {stop : Stop} (hm : Fault m)
    (hstop : stop = .globalizationFailure ∨ stop = .interiorPointInstability) :
    Keeps I (do
      log level m
      setStop stop) := by
  intro s p hs
  refine leads_bind (leads_log (leads_setStop ?_))
  exact h.faulted s p level m stop hm hstop hs

theorem keeps_stepFailure (h : Enduring I) (k : Setup F) {e : StepError} {context : String}
    (hm : Fault (F := F) [context, ": ", e.message]) : Keeps I (stepFailure k e context) := by
  unfold stepFailure
  split
  · exact h.keeps_fault hm (.inl rfl)
  · exact (h.keeps_log _ _).bind fun _ => h.keeps_fail k _

variable [Scalar F]

theorem keeps_updateGradient (h : Enduring I) (k : Setup F) (updateY : Bool)
    (hgraded : ∀ s t p, s.SameButGradient t → I s p → I t p) : Keeps I (updateGradient k updateY) := by
  unfold updateGradient
  refine Keeps.getState.bind fun s => (h.keeps_lift _).bind fun q => ?_
  obtain ⟨y, grad, outcome⟩ := q
  refine Keeps.bind (.update ?_) fun _ => ?_
  · intro s p hs
    exact hgraded s _ p rfl hs
  cases outcome with
  | error e => exact .pure _
  | ok =>
    refine Keeps.bind (.update ?_) fun _ => .pure _
    intro s p hs
    exact hgraded s _ p rfl hs

/-- Accepting a trial point, once the manipulator has been shown it. -/
theorem leads_accept (h : Enduring I) {k : Setup F} (hgraded : ∀ s t p, s.SameButGradient t → I s p → I t p)
    (hafter : ∀ s p, I s p → I (k.hooks.manipulate .afterGradient s) (p ++ [.visit .afterGradient s]))
    {s : State F} {t : Trial F} {p : List (Event F)}
    (hmoved : ∀ n, I (k.hooks.manipulate .afterStepBeforeGradient (s.moveTo t))
      (p ++ [.note n] ++ [.visit .afterStepBeforeGradient (s.moveTo t)])) :
    leads (accept k t) (fun _ => I) (fun e u q => I u q ∧ Told e q) s p := by
  unfold accept
  refine leads_bind (leads_update (leads_bind (leads_visit ?_)))
  refine (h.keeps_updateGradient k true hgraded).bind (fun o => ?_) _ _ (hmoved _)
  split
  case h_1 e => exact h.keeps_stepFailure k (.gradientUpdate e)
  case h_2 =>
    intro u q hu
    exact leads_visit (hafter u _ (h.noted u q _ hu))

end Enduring
end Running
end ConstrainedOpt
