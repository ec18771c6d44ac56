import ConstrainedOpt.Proofs.Run.Kept
import ConstrainedOpt.Proofs.Assertion.History
import ConstrainedOpt.Proofs.Sizes.Journals

/-! # Pieces of a run that complete

A piece completes in `Q` when it ends with an answer in `Q`, short of exhausting the number of passes a loop is given. On
the way it notes no failure and no error, except that the initial point does not qualify; where the preconditioner of
the problem is discreet, that is, since its journal is part of the notes.
-/
namespace ConstrainedOpt
variable {F α β : Type}

def Event.Harmless : Event F → Prop
  | .note n => n.Harmless
  | _ => True

/-- What has happened is harmless, unless the preconditioner is to blame. -/
def Setup.Calm (k : Setup F) (past : List (Event F)) : Prop :=
  k.problem.Discreet k.n → ∀ e ∈ past, e.Harmless

namespace Running

def completes (k : Setup F) (c : Running F α) (Q : α → State F → Prop) (s : State F) : Prop :=
  ∀ past, k.Calm past → leads c (fun a t p => Q a t ∧ k.Calm p) (fun e _ _ => e = .outOfFuel) s past

variable {k : Setup F} {Q : α → State F → Prop} {s : State F}

theorem completes_mono {P : α → State F → Prop} {c : Running F α} (h : completes k c P s)
    (hQ : ∀ a t, P a t → Q a t) : completes k c Q s :=
  fun past hpast => leads_mono (h past hpast) (fun a t _ hP => ⟨hQ a t hP.1, hP.2⟩) fun _ _ _ he => he

theorem completes_pure {a : α} (h : Q a s) : completes k (pure a) Q s := fun _ hpast => leads_pure ⟨h, hpast⟩

theorem completes_bind {c : Running F α} {f : α → Running F β} {Q : β → State F → Prop}
    (h : completes k c (fun a t => completes k (f a) Q t) s) : completes k (c >>= f) Q s :=
  fun past hpast => leads_bind (leads_mono (h past hpast) (fun _ _ p hP => hP.1 p hP.2) fun _ _ _ he => he)

theorem completes_getState {Q : State F → State F → Prop} (h : Q s s) : completes k getState Q s :=
  fun _ hpast => leads_getState ⟨h, hpast⟩

theorem completes_update {f : State F → State F} {Q : Unit → State F → Prop} (h : Q () (f s)) :
    completes k (update f) Q s := fun _ hpast => leads_update ⟨h, hpast⟩

/-- An update, remembered only through what it makes true. -/
theorem completes_update_of {f : State F → State F} {P : State F → Prop} {Q : Unit → State F → Prop} (hP : P (f s))
    (h : ∀ t, P t → Q () t) : completes k (update f) Q s := completes_update (h _ hP)

theorem completes_event {e : Event F} (he : e.Harmless) {Q : Unit → State F → Prop} (h : Q () s) :
    completes k (event e) Q s := by
  refine fun past hpast => leads_event ⟨h, fun hk e' he' => ?_⟩
  rcases List.mem_append.mp he' with he' | he'
  · exact hpast hk e' he'
  · exact List.mem_singleton.mp he' ▸ he

theorem completes_log {level : Level} (hlevel : level ≠ .error) {message : Message F} {Q : Unit → State F → Prop}
    (h : Q () s) : completes k (log level message) Q s :=
  completes_event (e := .note (.record level message)) (.inl hlevel) h

theorem completes_outOfFuel : completes k (throw .outOfFuel : Running F α) Q s := fun _ _ => leads_throw rfl

/-- A journaled part that answers for certain, and quietly if the preconditioner is discreet. -/
theorem completes_lift {c : Journaled F α} {P : α → Prop} (hc : c.Yields P) (hquiet : k.problem.Discreet k.n → c.Quiet)
    (h : ∀ a, P a → Q a s) : completes k (liftM c) Q s := by
  intro past hpast events
  obtain ⟨a, notes, hrun, ha⟩ := hc #[]
  have hlift : (liftM c : Running F α).run ⟨s, events⟩ = (.ok a, ⟨s, events ++ notes.map Event.note⟩) := by
    change ((c.run #[]).1.mapError Halt.panic, (⟨s, events ++ (c.run #[]).2.map Event.note⟩ : Run F)) = _
    rw [hrun]
    rfl
  rw [hlift]
  refine ⟨notes.toList.map Event.note, by simp, h a ha, fun hk e he => ?_⟩
  rcases List.mem_append.mp he with he | he
  · exact hpast hk e he
  · obtain ⟨n, hn, rfl⟩ := List.mem_map.mp he
    obtain ⟨new, hnew, hall⟩ := hquiet hk #[]
    rw [hrun] at hnew
    have hnew : notes.toList = new := hnew.trans (List.nil_append _)
    exact .inl (hall n (hnew ▸ hn))

theorem completes_checked {c : Checked α} {P : α → Prop} (hc : c.Answers P) (h : ∀ a, P a → Q a s) :
    completes k (liftM (liftM c : Journaled F α)) Q s :=
  completes_lift (Journaled.yields_lift hc) (fun _ => Journaled.quiet_lift c) h

theorem completes_visit (hk : k.hooks.Observing) {loc : Location} {Q : Unit → State F → Prop} (h : Q () s) :
    completes k (visit k loc) Q s := by
  unfold visit
  refine completes_bind (completes_log (by decide) (completes_bind (completes_getState (completes_bind ?_))))
  exact completes_event (e := .visit loc s) trivial (completes_update ((hk loc s).symm ▸ h))

theorem completes_stopped {Q : Bool → State F → Prop} (h : Q (decide (s.stop ≠ .notConverged)) s) :
    completes k stopped Q s := completes_bind (completes_getState (completes_pure h))

theorem completes_setStop {stop : Stop} {Q : Unit → State F → Prop} (h : Q () { s with stop }) :
    completes k (setStop stop) Q s := completes_update h

/-- A numerical failure stops the run without a failure of its own. -/
theorem completes_stepFailure {e : StepError} (he : e = .numericalInstability) {context : String}
    {Q : Unit → State F → Prop} (h : Q () { s with stop := .globalizationFailure }) :
    completes k (stepFailure k e context) Q s := by
  subst he
  exact completes_bind (completes_log (by decide) (completes_setStop h))

end Running
end ConstrainedOpt
