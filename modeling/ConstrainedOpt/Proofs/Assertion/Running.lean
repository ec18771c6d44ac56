import ConstrainedOpt.Run.Monad
import ConstrainedOpt.Proofs.Assertion.Journaled

/-! # What a piece of a run does

`wp W c Q E s` says of the piece `c` of a run from the state `s`: it only adds events, the visits and the
trials it adds are as the watch `W` wants them, and it ends in `Q` with an answer or in `E` with a halt.
Notes are free.
-/
namespace ConstrainedOpt
variable {F α β : Type}

/-- What the visits and the trials of a run are expected to show. -/
structure Watch (F : Type) where
  visit : Location → State F → Prop
  trial : State F → Trial F → Prop

def Watch.Sees (W : Watch F) : Event F → Prop
  | .note _ => True
  | .visit loc s => W.visit loc s
  | .trial s t => W.trial s t

/-- Expects nothing. -/
def Watch.any : Watch F := ⟨fun _ _ => True, fun _ _ => True⟩

namespace Running

def wp (W : Watch F) (c : Running F α) (Q : α → State F → Prop) (E : Halt → State F → Prop)
    (s : State F) : Prop :=
  ∀ events, ∃ es, (c.run ⟨s, events⟩).2.events.toList = events.toList ++ es ∧ (∀ e ∈ es, W.Sees e) ∧
    match (c.run ⟨s, events⟩).1 with
    | .ok a => Q a (c.run ⟨s, events⟩).2.state
    | .error e => E e (c.run ⟨s, events⟩).2.state

variable {W : Watch F} {Q : α → State F → Prop} {E : Halt → State F → Prop} {s : State F}

theorem wp_mono {Q' : α → State F → Prop} {E' : Halt → State F → Prop} {c : Running F α}
    (h : wp W c Q E s) (hQ : ∀ a t, Q a t → Q' a t) (hE : ∀ e t, E e t → E' e t) : wp W c Q' E' s := by
  intro events
  obtain ⟨es, he, hW, hr⟩ := h events
  refine ⟨es, he, hW, ?_⟩
  split at hr
  · exact hQ _ _ hr
  · exact hE _ _ hr

/-- What a piece shows when it is run. -/
theorem wp_run {c : Running F α} (h : wp W c Q E s) (events : Array (Event F)) :
    ∃ es, (c.run ⟨s, events⟩).2.events.toList = events.toList ++ es ∧ (∀ e ∈ es, W.Sees e) ∧
      (∀ a, (c.run ⟨s, events⟩).1 = .ok a → Q a (c.run ⟨s, events⟩).2.state) ∧
      ∀ e, (c.run ⟨s, events⟩).1 = .error e → E e (c.run ⟨s, events⟩).2.state := by
  obtain ⟨es, he, hW, hr⟩ := h events
  refine ⟨es, he, hW, fun a ha => ?_, fun e he => ?_⟩
  · rw [ha] at hr
    exact hr
  · rw [he] at hr
    exact hr

/-- Two things that are said of one piece hold together. -/
theorem wp_and {Q' : α → State F → Prop} {E' : Halt → State F → Prop} {c : Running F α} (h : wp W c Q E s)
    (h' : wp .any c Q' E' s) : wp W c (fun a t => Q a t ∧ Q' a t) (fun e t => E e t ∧ E' e t) s := by
  intro events
  obtain ⟨es, hes, hW, hr⟩ := h events
  obtain ⟨-, -, -, hr'⟩ := h' events
  refine ⟨es, hes, hW, ?_⟩
  split
  case h_1 a ha =>
    rw [ha] at hr hr'
    exact ⟨hr, hr'⟩
  case h_2 e he =>
    rw [he] at hr hr'
    exact ⟨hr, hr'⟩

theorem wp_pure {a : α} (h : Q a s) : wp W (pure a) Q E s :=
  fun _ => ⟨[], (List.append_nil _).symm, List.forall_mem_nil _, h⟩

theorem run_bind (c : Running F α) (f : α → Running F β) (r : Run F) :
    (c >>= f).run r =
      match c.run r with
      | (.ok a, next) => (f a).run next
      | (.error e, next) => (.error e, next) := by
  rw [ExceptT.run_bind]
  simp only [bind, StateT.bind]
  rcases c.run r with ⟨a | e, next⟩ <;> rfl

theorem wp_bind {c : Running F α} {f : α → Running F β} {Q : β → State F → Prop}
    (h : wp W c (fun a t => wp W (f a) Q E t) E s) : wp W (c >>= f) Q E s := by
  intro events
  obtain ⟨es, he, hW, hr⟩ := h events
  rw [run_bind]
  rcases hc : c.run ⟨s, events⟩ with ⟨e | a, t, mid⟩ <;> rw [hc] at he hr
  · exact ⟨es, he, hW, hr⟩
  · obtain ⟨es', he', hW', hr'⟩ := hr mid
    refine ⟨es ++ es', by rw [he', he, List.append_assoc], fun e he => ?_, hr'⟩
    exact (List.mem_append.mp he).elim (hW e) (hW' e)

theorem wp_getState {Q : State F → State F → Prop} (h : Q s s) : wp W getState Q E s :=
  fun _ => ⟨[], (List.append_nil _).symm, List.forall_mem_nil _, h⟩

theorem wp_update {f : State F → State F} {Q : Unit → State F → Prop} (h : Q () (f s)) :
    wp W (update f) Q E s := fun _ => ⟨[], (List.append_nil _).symm, List.forall_mem_nil _, h⟩

/-- An update, remembered only through what it makes true. -/
theorem wp_update_of {f : State F → State F} {P : State F → Prop} {Q : Unit → State F → Prop}
    (hP : P (f s)) (h : ∀ t, P t → Q () t) : wp W (update f) Q E s := wp_update (h _ hP)

theorem wp_event {e : Event F} {Q : Unit → State F → Prop} (hW : W.Sees e) (h : Q () s) :
    wp W (event e) Q E s :=
  fun _ => ⟨[e], Array.toList_push, fun _ he => List.mem_singleton.mp he ▸ hW, h⟩

theorem wp_log {level : Level} {message : Message F} {Q : Unit → State F → Prop} (h : Q () s) :
    wp W (log level message) Q E s := wp_event trivial h

theorem wp_throw {e : Halt} (h : E e s) : wp W (throw e : Running F α) Q E s :=
  fun _ => ⟨[], (List.append_nil _).symm, List.forall_mem_nil _, h⟩

theorem wp_lift {c : Journaled F α} (hQ : ∀ a, c.answer = .ok a → Q a s)
    (hE : ∀ p, c.answer = .error p → E (.panic p) s) : wp W (liftM c) Q E s := by
  intro events
  refine ⟨(c.run #[]).2.toList.map Event.note, ?_, fun e he => ?_, ?_⟩
  · change (events ++ (c.run #[]).2.map Event.note).toList = _
    simp
  · obtain ⟨n, _, rfl⟩ := List.mem_map.mp he
    trivial
  · change (match (c.run #[]).1.mapError Halt.panic with
      | .ok a => Q a s
      | .error e => E e s)
    cases hc : (c.run #[]).1 with
    | ok a => exact hQ a hc
    | error p => exact hE p hc

theorem wp_visit {k : Setup F} {loc : Location} {Q : Unit → State F → Prop} (hW : W.visit loc s)
    (h : Q () (k.hooks.manipulate loc s)) : wp W (visit k loc) Q E s :=
  wp_bind (wp_log (wp_bind (wp_getState (wp_bind (wp_event hW (wp_update h))))))

theorem wp_fail {k : Setup F} {f : Failure} (h : E (.failure (k.hooks.fail f)) s) :
    wp W (fail k f) Q E s := wp_bind (wp_event trivial (wp_throw h))

theorem wp_stopped {Q : Bool → State F → Prop} (h : Q (decide (s.stop ≠ .notConverged)) s) :
    wp W stopped Q E s := wp_bind (wp_getState (wp_pure h))

theorem wp_setStop {stop : Stop} {Q : Unit → State F → Prop} (h : Q () { s with stop }) :
    wp W (setStop stop) Q E s := wp_update h

theorem wp_stepFailure {k : Setup F} {e : StepError} {context : String} {Q : Unit → State F → Prop}
    (h : Q () { s with stop := .globalizationFailure }) (hE : ∀ f, E (.failure f) s) :
    wp W (stepFailure k e context) Q E s := by
  unfold stepFailure
  split
  · exact wp_bind (wp_log (wp_setStop h))
  · exact wp_bind (wp_log (wp_fail (hE _)))

theorem wp_tryStep [Scalar F] {k : Setup F} {dx : Vec F} {a : F} {Q : Trial F → State F → Prop}
    (h : ∀ t, k.problem.trial s.x dx a = .ok t → W.trial s t ∧ Q t s) (hE : ∀ p, E (.panic p) s) :
    wp W (tryStep k dx a) Q E s := by
  unfold tryStep
  refine wp_bind (wp_getState (wp_bind (wp_lift (fun t ht => ?_) fun p _ => hE p)))
  exact wp_bind (wp_event (h t ht).1 (wp_pure (h t ht).2))

end Running

end ConstrainedOpt
