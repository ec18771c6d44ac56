import ConstrainedOpt.Proofs.Assertion.Running
import Mathlib.Data.List.Forall2

/-! # Two runs side by side

A piece of a run is oblivious when it never looks back at what has happened: its answer, the state it leaves and the
events it adds depend on the state it starts from alone. `twins A c Q E s t` compares the piece `c` started from `s`
with itself started from `t`, whatever happened before: both answer the same and add events that agree by `A`, event
by event, and they end in `Q` or, halted for the same reason, in `E`.
-/
namespace ConstrainedOpt
variable {F α β : Type}

namespace Running

/-! ### Oblivious pieces -/

def Oblivious (c : Running F α) : Prop :=
  ∀ s events, c.run ⟨s, events⟩ = ((c.run ⟨s, #[]⟩).1, ⟨(c.run ⟨s, #[]⟩).2.state, events ++ (c.run ⟨s, #[]⟩).2.events⟩)

theorem oblivious_pure (a : α) : Oblivious (pure a : Running F α) := by
  intro s events
  change (Except.ok a, (⟨s, events⟩ : Run F)) = (Except.ok a, ⟨s, events ++ #[]⟩)
  rw [Array.append_empty]

theorem Oblivious.bind {c : Running F α} {f : α → Running F β} (hc : Oblivious c) (hf : ∀ a, Oblivious (f a)) :
    Oblivious (c >>= f) := by
  intro s events
  simp only [run_bind]
  rw [hc s events]
  rcases c.run ⟨s, #[]⟩ with ⟨e | a, t, mid⟩
  · rfl
  · dsimp only
    rw [hf a t (events ++ mid), hf a t mid]
    simp only [Array.append_assoc]

theorem oblivious_getState : Oblivious (getState : Running F (State F)) := by
  intro s events
  change (Except.ok s, (⟨s, events⟩ : Run F)) = (Except.ok s, ⟨s, events ++ #[]⟩)
  rw [Array.append_empty]

theorem oblivious_update (f : State F → State F) : Oblivious (update f) := by
  intro s events
  change (Except.ok (), (⟨f s, events⟩ : Run F)) = (Except.ok (), ⟨f s, events ++ #[]⟩)
  rw [Array.append_empty]

theorem oblivious_event (e : Event F) : Oblivious (event e) := by
  intro s events
  change (Except.ok (), (⟨s, events.push e⟩ : Run F)) = (Except.ok (), ⟨s, events ++ #[e]⟩)
  rw [Array.push_eq_append]

theorem oblivious_log (level : Level) (message : Message F) : Oblivious (log level message) :=
  oblivious_event _

theorem oblivious_throw (e : Halt) : Oblivious (throw e : Running F α) := by
  intro s events
  change (Except.error e, (⟨s, events⟩ : Run F)) = (Except.error e, ⟨s, events ++ #[]⟩)
  rw [Array.append_empty]

theorem oblivious_lift (c : Journaled F α) : Oblivious (liftM c : Running F α) := by
  intro s events
  change ((c.run #[]).1.mapError Halt.panic, (⟨s, events ++ (c.run #[]).2.map Event.note⟩ : Run F)) =
    ((c.run #[]).1.mapError Halt.panic, ⟨s, events ++ (#[] ++ (c.run #[]).2.map Event.note)⟩)
  rw [Array.empty_append]

theorem oblivious_visit (k : Setup F) (loc : Location) : Oblivious (visit k loc) :=
  (oblivious_log _ _).bind fun _ => oblivious_getState.bind fun _ => (oblivious_event _).bind fun _ => oblivious_update _

theorem oblivious_fail (k : Setup F) (f : Failure) : Oblivious (fail k f : Running F α) :=
  (oblivious_event _).bind fun _ => oblivious_throw _

theorem oblivious_stopped : Oblivious (stopped : Running F Bool) :=
  oblivious_getState.bind fun _ => oblivious_pure _

theorem oblivious_setStop (stop : Stop) : Oblivious (setStop stop : Running F Unit) := oblivious_update _

theorem oblivious_stepFailure (k : Setup F) (e : StepError) (context : String) : Oblivious (stepFailure k e context) := by
  unfold stepFailure
  split
  · exact (oblivious_log _ _).bind fun _ => oblivious_setStop _
  · exact (oblivious_log _ _).bind fun _ => oblivious_fail k _

theorem oblivious_tryStep [Scalar F] (k : Setup F) (dx : Vec F) (a : F) : Oblivious (tryStep k dx a) :=
  oblivious_getState.bind fun _ => (oblivious_lift _).bind fun _ => (oblivious_event _).bind fun _ => oblivious_pure _


/-! ### Twins -/

def twins (A : Event F → Event F → Prop) (c : Running F α) (Q : α → State F → State F → Prop)
    (E : Halt → State F → State F → Prop) (s t : State F) : Prop :=
  ∀ es es', ∃ ds ds', (c.run ⟨s, es⟩).2.events.toList = es.toList ++ ds ∧
    (c.run ⟨t, es'⟩).2.events.toList = es'.toList ++ ds' ∧ List.Forall₂ A ds ds' ∧
    match (c.run ⟨s, es⟩).1, (c.run ⟨t, es'⟩).1 with
    | .ok a, .ok b => b = a ∧ Q a (c.run ⟨s, es⟩).2.state (c.run ⟨t, es'⟩).2.state
    | .error e, .error e' => e' = e ∧ E e (c.run ⟨s, es⟩).2.state (c.run ⟨t, es'⟩).2.state
    | _, _ => False

variable {A : Event F → Event F → Prop} {Q : α → State F → State F → Prop} {E : Halt → State F → State F → Prop}
  {s t : State F}

theorem twins_mono {Q' : α → State F → State F → Prop} {E' : Halt → State F → State F → Prop} {c : Running F α}
    (h : twins A c Q E s t) (hQ : ∀ a u v, Q a u v → Q' a u v) (hE : ∀ e u v, E e u v → E' e u v) :
    twins A c Q' E' s t := by
  intro es es'
  obtain ⟨ds, ds', hds, hds', hA, hr⟩ := h es es'
  refine ⟨ds, ds', hds, hds', hA, ?_⟩
  split at hr
  · exact ⟨hr.1, hQ _ _ _ hr.2⟩
  · exact ⟨hr.1, hE _ _ _ hr.2⟩
  · exact hr

/-- What two runs of a piece show. -/
theorem twins_run {c : Running F α} (h : twins A c Q E s t) (es es' : Array (Event F)) :
    ∃ ds ds', (c.run ⟨s, es⟩).2.events.toList = es.toList ++ ds ∧
      (c.run ⟨t, es'⟩).2.events.toList = es'.toList ++ ds' ∧ List.Forall₂ A ds ds' ∧
      (c.run ⟨t, es'⟩).1 = (c.run ⟨s, es⟩).1 ∧
      (∀ a, (c.run ⟨s, es⟩).1 = .ok a → Q a (c.run ⟨s, es⟩).2.state (c.run ⟨t, es'⟩).2.state) ∧
      ∀ e, (c.run ⟨s, es⟩).1 = .error e → E e (c.run ⟨s, es⟩).2.state (c.run ⟨t, es'⟩).2.state := by
  obtain ⟨ds, ds', hds, hds', hA, hr⟩ := h es es'
  refine ⟨ds, ds', hds, hds', hA, ?_⟩
  split at hr
  case h_1 a b ha hb =>
    rw [ha, hb, hr.1]
    refine ⟨rfl, ?_, nofun⟩
    rintro _ ⟨⟩
    exact hr.2
  case h_2 e e' he he' =>
    rw [he, he', hr.1]
    refine ⟨rfl, nofun, ?_⟩
    rintro _ ⟨⟩
    exact hr.2
  case h_3 => exact hr.elim

theorem twins_pure {a : α} (h : Q a s t) : twins A (pure a) Q E s t :=
  fun _ _ => ⟨[], [], (List.append_nil _).symm, (List.append_nil _).symm, .nil, rfl, h⟩

theorem twins_bind {c : Running F α} {f : α → Running F β} {Q : β → State F → State F → Prop}
    (h : twins A c (fun a u v => twins A (f a) Q E u v) E s t) : twins A (c >>= f) Q E s t := by
  intro es es'
  obtain ⟨ds, ds', hds, hds', hA, hr⟩ := h es es'
  simp only [run_bind]
  rcases hc : c.run ⟨s, es⟩ with ⟨e | a, u, mid⟩ <;> rcases hc' : c.run ⟨t, es'⟩ with ⟨e' | a', v, mid'⟩ <;>
    rw [hc, hc'] at hr <;> rw [hc] at hds <;> rw [hc'] at hds'
  · exact ⟨ds, ds', hds, hds', hA, hr⟩
  · exact hr.elim
  · exact hr.elim
  · obtain ⟨rfl, hr⟩ := hr
    obtain ⟨cs, cs', hcs, hcs', hA', hr⟩ := hr mid mid'
    refine ⟨ds ++ cs, ds' ++ cs', ?_, ?_, List.rel_append hA hA', hr⟩
    · rw [hcs, hds, List.append_assoc]
    · rw [hcs', hds', List.append_assoc]

theorem twins_update {f : State F → State F} {Q : Unit → State F → State F → Prop} (h : Q () (f s) (f t)) :
    twins A (update f) Q E s t :=
  fun _ _ => ⟨[], [], (List.append_nil _).symm, (List.append_nil _).symm, .nil, rfl, h⟩

/-- A piece that looks at the state sees the same in both runs when it goes on in the same way. -/
theorem twins_getState {f : State F → Running F β} {Q : β → State F → State F → Prop} (hf : f t = f s)
    (h : twins A (f s) Q E s t) : twins A (getState >>= f) Q E s t := by
  intro es es'
  have ht : (getState >>= f).run ⟨t, es'⟩ = (f s).run ⟨t, es'⟩ := congrArg (fun c => c.run ⟨t, es'⟩) hf
  rw [ht]
  exact h es es'

theorem twins_stopped {Q : Bool → State F → State F → Prop} (hstop : t.stop = s.stop)
    (h : Q (decide (s.stop ≠ .notConverged)) s t) : twins A stopped Q E s t :=
  twins_getState (by rw [hstop]) (twins_pure h)

theorem twins_event {e : Event F} {Q : Unit → State F → State F → Prop} (hA : A e e) (h : Q () s t) :
    twins A (event e) Q E s t :=
  fun _ _ => ⟨[e], [e], Array.toList_push, Array.toList_push, .cons hA .nil, rfl, h⟩

theorem twins_throw {e : Halt} (h : E e s t) : twins A (throw e : Running F α) Q E s t :=
  fun _ _ => ⟨[], [], (List.append_nil _).symm, (List.append_nil _).symm, .nil, rfl, h⟩

theorem twins_lift (hA : ∀ n, A (.note n) (.note n)) {c : Journaled F α} (hQ : ∀ a, c.answer = .ok a → Q a s t)
    (hE : ∀ p, c.answer = .error p → E (.panic p) s t) : twins A (liftM c) Q E s t := by
  intro es es'
  refine ⟨(c.run #[]).2.toList.map Event.note, (c.run #[]).2.toList.map Event.note, ?_, ?_, ?_, ?_⟩
  · change (es ++ (c.run #[]).2.map Event.note).toList = _
    simp
  · change (es' ++ (c.run #[]).2.map Event.note).toList = _
    simp
  · refine List.forall₂_same.mpr fun e he => ?_
    obtain ⟨n, _, rfl⟩ := List.mem_map.mp he
    exact hA n
  · change (match (c.run #[]).1.mapError Halt.panic, (c.run #[]).1.mapError Halt.panic with
      | .ok a, .ok b => b = a ∧ Q a s t
      | .error e, .error e' => e' = e ∧ E e s t
      | _, _ => False)
    cases hc : (c.run #[]).1 with
    | ok a => exact ⟨rfl, hQ a hc⟩
    | error p => exact ⟨rfl, hE p hc⟩

theorem twins_visit {k : Setup F} {loc : Location} {Q : Unit → State F → State F → Prop}
    (hA : ∀ n, A (.note n) (.note n)) (hvisit : A (.visit loc s) (.visit loc t))
    (h : Q () (k.hooks.manipulate loc s) (k.hooks.manipulate loc t)) : twins A (visit k loc) Q E s t := by
  refine twins_bind (twins_event (hA _) fun es es' => ?_)
  exact ⟨[.visit loc s], [.visit loc t], Array.toList_push, Array.toList_push, .cons hvisit .nil, rfl, h⟩

theorem twins_fail {k : Setup F} {f : Failure} (hA : ∀ n, A (.note n) (.note n))
    (h : E (.failure (k.hooks.fail f)) s t) : twins A (fail k f) Q E s t :=
  twins_bind (twins_event (hA _) (twins_throw h))

theorem twins_stepFailure {k : Setup F} {e : StepError} {context : String} {Q : Unit → State F → State F → Prop}
    (hA : ∀ n, A (.note n) (.note n)) (h : Q () { s with stop := .globalizationFailure } { t with stop := .globalizationFailure })
    (hE : ∀ f, E (.failure f) s t) : twins A (stepFailure k e context) Q E s t := by
  unfold stepFailure
  split
  · exact twins_bind (twins_event (hA _) (twins_update h))
  · exact twins_bind (twins_event (hA _) (twins_fail hA (hE _)))

/-- What holds of an oblivious piece holds of its run with nothing before it. -/
theorem Oblivious.wp_exact {W : Watch F} {c : Running F α} {Q : α → State F → Prop} {E : Halt → State F → Prop}
    (hc : Oblivious c) (h : wp W c Q E s) :
    wp W c (fun a t => Q a t ∧ (c.run ⟨s, #[]⟩).1 = .ok a ∧ (c.run ⟨s, #[]⟩).2.state = t)
      (fun e t => E e t ∧ (c.run ⟨s, #[]⟩).1 = .error e) s := by
  intro events
  obtain ⟨es, hes, hsees, hok, herror⟩ := wp_run h events
  refine ⟨es, hes, hsees, ?_⟩
  rw [hc s events] at hok herror ⊢
  split
  case h_1 a ha => exact ⟨hok a ha, ha, rfl⟩
  case h_2 e he => exact ⟨herror e he, he⟩

end Running
end ConstrainedOpt
