import ConstrainedOpt.Proofs.Assertion.Running

/-! # What a piece of a run leads to

`leads c Q E s past` says of the piece `c` of a run, started from the state `s` after the events `past`: it only
adds events, and it ends in `Q` with an answer or in `E` with a halt. Both see everything that has happened by
then, so they can relate what was seen early in a run to what came of it.

`Keeps I c` is the case of an invariant `I` of the state and its past. It also tells the halts apart: a failure is
the last thing noted, and no bound on a number of passes is exhausted.
-/
namespace ConstrainedOpt
variable {F α β : Type}

/-- The hook points visited, with the states found there. -/
def Event.visits (es : List (Event F)) : List (Location × State F) :=
  es.filterMap fun
    | .visit loc state => some (loc, state)
    | _ => none

namespace Event

@[simp] theorem visits_nil : visits ([] : List (Event F)) = [] := rfl

@[simp] theorem visits_append (es es' : List (Event F)) : visits (es ++ es') = visits es ++ visits es' :=
  List.filterMap_append

@[simp] theorem visits_note (n : Note F) : visits [.note n] = [] := rfl

@[simp] theorem visits_trial (s : State F) (t : Trial F) : visits [.trial s t] = [] := rfl

@[simp] theorem visits_visit (loc : Location) (s : State F) : visits [.visit loc s] = [(loc, s)] := rfl

theorem mem_visits {es : List (Event F)} {loc : Location} {s : State F} :
    (loc, s) ∈ visits es ↔ .visit loc s ∈ es := by
  unfold visits
  rw [List.mem_filterMap]
  constructor
  · rintro ⟨e, he, h⟩
    cases e <;> cases h
    exact he
  · intro h
    exact ⟨_, h, rfl⟩

theorem visits_seen {W : Watch F} {es : List (Event F)} (h : ∀ e ∈ es, W.Sees e) :
    ∀ v ∈ visits es, W.visit v.1 v.2 := by
  intro v hv
  exact h _ (mem_visits.mp hv)

theorem visits_prefix {es es' : List (Event F)} (h : es <+: es') : visits es <+: visits es' := h.filterMap _

/-- The hook point is visited. -/
def isAt (loc : Location) : Event F → Bool
  | .visit loc' _ => loc' == loc
  | _ => false

theorem isAt_visit {loc loc' : Location} {s : State F} : isAt loc (.visit loc' s) = true ↔ loc' = loc := beq_iff_eq

end Event

/-- Sees no hook points. -/
def Watch.still : Watch F := ⟨fun _ _ => False, fun _ _ => True⟩

namespace Running

def leads (c : Running F α) (Q : α → State F → List (Event F) → Prop)
    (E : Halt → State F → List (Event F) → Prop) (s : State F) (past : List (Event F)) : Prop :=
  ∀ events, ∃ es, (c.run ⟨s, events⟩).2.events.toList = events.toList ++ es ∧
    match (c.run ⟨s, events⟩).1 with
    | .ok a => Q a (c.run ⟨s, events⟩).2.state (past ++ es)
    | .error e => E e (c.run ⟨s, events⟩).2.state (past ++ es)

variable {Q : α → State F → List (Event F) → Prop} {E : Halt → State F → List (Event F) → Prop}
  {s : State F} {past : List (Event F)}

theorem leads_mono {Q' : α → State F → List (Event F) → Prop} {E' : Halt → State F → List (Event F) → Prop}
    {c : Running F α} (h : leads c Q E s past) (hQ : ∀ a t p, Q a t p → Q' a t p)
    (hE : ∀ e t p, E e t p → E' e t p) : leads c Q' E' s past := by
  intro events
  obtain ⟨es, he, hr⟩ := h events
  refine ⟨es, he, ?_⟩
  split at hr
  · exact hQ _ _ _ hr
  · exact hE _ _ _ hr

/-- What a piece shows when it is run with nothing before it. -/
theorem leads_run {c : Running F α} (h : leads c Q E s []) (events : Array (Event F)) :
    ∃ es, (c.run ⟨s, events⟩).2.events.toList = events.toList ++ es ∧
      (∀ a, (c.run ⟨s, events⟩).1 = .ok a → Q a (c.run ⟨s, events⟩).2.state es) ∧
      ∀ e, (c.run ⟨s, events⟩).1 = .error e → E e (c.run ⟨s, events⟩).2.state es := by
  obtain ⟨es, he, hr⟩ := h events
  rw [List.nil_append] at hr
  refine ⟨es, he, ?_, ?_⟩
  · intro a ha
    rw [ha] at hr
    exact hr
  · intro e he
    rw [he] at hr
    exact hr

/-- What the visits of a piece show when it is run after those of the past. -/
theorem visits_run {c : Running F α} {P : List (Location × State F) → Prop}
    (h : leads c (fun _ _ q => P (Event.visits q)) (fun _ _ q => P (Event.visits q)) s past) :
    P (Event.visits past ++ Event.visits (c.run ⟨s, #[]⟩).2.events.toList) := by
  obtain ⟨es, hes, hr⟩ := h #[]
  have hes : (c.run ⟨s, #[]⟩).2.events.toList = es := hes
  rw [hes, ← Event.visits_append]
  split at hr
  · exact hr
  · exact hr

theorem leads_pure {a : α} (h : Q a s past) : leads (pure a) Q E s past := by
  intro events
  refine ⟨[], (List.append_nil _).symm, ?_⟩
  rw [List.append_nil]
  exact h

theorem leads_bind {c : Running F α} {f : α → Running F β} {Q : β → State F → List (Event F) → Prop}
    (h : leads c (fun a t p => leads (f a) Q E t p) E s past) : leads (c >>= f) Q E s past := by
  intro events
  obtain ⟨es, he, hr⟩ := h events
  rw [run_bind]
  rcases hc : c.run ⟨s, events⟩ with ⟨e | a, t, mid⟩ <;> rw [hc] at he hr
  · exact ⟨es, he, hr⟩
  · obtain ⟨es', he', hr'⟩ := hr mid
    refine ⟨es ++ es', ?_, ?_⟩
    · rw [he', he, List.append_assoc]
    · rw [← List.append_assoc]
      exact hr'

theorem leads_getState {Q : State F → State F → List (Event F) → Prop} (h : Q s s past) :
    leads getState Q E s past := by
  intro events
  refine ⟨[], (List.append_nil _).symm, ?_⟩
  rw [List.append_nil]
  exact h

theorem leads_update {f : State F → State F} {Q : Unit → State F → List (Event F) → Prop}
    (h : Q () (f s) past) : leads (update f) Q E s past := by
  intro events
  refine ⟨[], (List.append_nil _).symm, ?_⟩
  rw [List.append_nil]
  exact h

theorem leads_event {e : Event F} {Q : Unit → State F → List (Event F) → Prop}
    (h : Q () s (past ++ [e])) : leads (event e) Q E s past :=
  fun _ => ⟨[e], Array.toList_push, h⟩

theorem leads_log {level : Level} {message : Message F} {Q : Unit → State F → List (Event F) → Prop}
    (h : Q () s (past ++ [.note (.record level message)])) : leads (log level message) Q E s past :=
  leads_event h

theorem leads_throw {e : Halt} (h : E e s past) : leads (throw e : Running F α) Q E s past := by
  intro events
  refine ⟨[], (List.append_nil _).symm, ?_⟩
  rw [List.append_nil]
  exact h

theorem leads_lift {c : Journaled F α}
    (hQ : ∀ a (notes : List (Note F)), c.answer = .ok a → Q a s (past ++ notes.map Event.note))
    (hE : ∀ q (notes : List (Note F)), c.answer = .error q → E (.panic q) s (past ++ notes.map Event.note)) :
    leads (liftM c) Q E s past := by
  intro events
  refine ⟨(c.run #[]).2.toList.map Event.note, ?_, ?_⟩
  · change (events ++ (c.run #[]).2.map Event.note).toList = _
    simp
  · change (match (c.run #[]).1.mapError Halt.panic with
      | .ok a => Q a s _
      | .error e => E e s _)
    cases hc : (c.run #[]).1 with
    | ok a => exact hQ a _ hc
    | error q => exact hE q _ hc

theorem leads_visit {k : Setup F} {loc : Location} {Q : Unit → State F → List (Event F) → Prop}
    (h : Q () (k.hooks.manipulate loc s)
      (past ++ [.note (.record .trace [Registry.text loc])] ++ [.visit loc s])) :
    leads (visit k loc) Q E s past :=
  leads_bind (leads_log (leads_bind (leads_getState (leads_bind (leads_event (leads_update h))))))

theorem leads_stopped {Q : Bool → State F → List (Event F) → Prop}
    (h : Q (decide (s.stop ≠ .notConverged)) s past) : leads stopped Q E s past :=
  leads_bind (leads_getState (leads_pure h))

theorem leads_setStop {stop : Stop} {Q : Unit → State F → List (Event F) → Prop}
    (h : Q () { s with stop } past) : leads (setStop stop) Q E s past := leads_update h

/-- What a watched piece leads to: it visits hook points as its watch wants them. -/
theorem leads_watched {W : Watch F} {c : Running F α} {Q₀ : α → State F → Prop} {E₀ : Halt → State F → Prop}
    (h : wp W c Q₀ E₀ s)
    (hQ : ∀ a t vs q, Q₀ a t → (∀ v ∈ vs, W.visit v.1 v.2) → Event.visits q = Event.visits past ++ vs → Q a t q)
    (hE : ∀ e t vs q, E₀ e t → (∀ v ∈ vs, W.visit v.1 v.2) → Event.visits q = Event.visits past ++ vs → E e t q) :
    leads c Q E s past := by
  intro events
  obtain ⟨es, hes, hsees, hok, herror⟩ := wp_run h events
  have hvisits := Event.visits_seen hsees
  refine ⟨es, hes, ?_⟩
  split
  case h_1 a ha => exact hQ a _ _ _ (hok a ha) hvisits (Event.visits_append ..)
  case h_2 e he => exact hE e _ _ _ (herror e he) hvisits (Event.visits_append ..)

/-- A piece without hook points adds no visits. -/
theorem leads_still {c : Running F α} {Q₀ : α → State F → Prop} {E₀ : Halt → State F → Prop} (h : wp .still c Q₀ E₀ s)
    (hQ : ∀ a t q, Q₀ a t → Event.visits q = Event.visits past → Q a t q)
    (hE : ∀ e t q, E₀ e t → Event.visits q = Event.visits past → E e t q) : leads c Q E s past := by
  have hnone : ∀ vs : List (Location × State F), (∀ v ∈ vs, Watch.still.visit v.1 v.2) → vs = [] := by
    intro vs hvs
    exact List.eq_nil_iff_forall_not_mem.mpr fun v hv => hvs v hv
  refine leads_watched h ?_ ?_
  · intro a t vs q ht hvs hq
    rw [hnone vs hvs, List.append_nil] at hq
    exact hQ a t q ht hq
  · intro e t vs q ht hvs hq
    rw [hnone vs hvs, List.append_nil] at hq
    exact hE e t q ht hq

/-- Events are only added to the past. -/
theorem leads_extends {c : Running F α} (h : leads c Q E s past) :
    leads c (fun a t q => Q a t q ∧ past <+: q) (fun e t q => E e t q ∧ past <+: q) s past := by
  intro events
  obtain ⟨es, hes, hr⟩ := h events
  refine ⟨es, hes, ?_⟩
  split at hr
  · exact ⟨hr, List.prefix_append past es⟩
  · exact ⟨hr, List.prefix_append past es⟩

/-- What is known of the states alone that a piece ends in may be added. -/
theorem leads_wp {W : Watch F} {c : Running F α} {Q₀ : α → State F → Prop} {E₀ : Halt → State F → Prop}
    (h : leads c Q E s past) (h₀ : wp W c Q₀ E₀ s) :
    leads c (fun a t q => Q a t q ∧ Q₀ a t) (fun e t q => E e t q ∧ E₀ e t) s past := by
  intro events
  obtain ⟨es, hes, hr⟩ := h events
  obtain ⟨_, -, -, hok, herror⟩ := wp_run h₀ events
  refine ⟨es, hes, ?_⟩
  split
  case h_1 a ha =>
    rw [ha] at hr
    exact ⟨hr, hok a ha⟩
  case h_2 e he =>
    rw [he] at hr
    exact ⟨hr, herror e he⟩

/-! ### Invariants -/

/-- A panic may come from anywhere; a failure is the last thing noted. -/
def Told (e : Halt) (past : List (Event F)) : Prop :=
  match e with
  | .panic _ => True
  | .failure _ => ∃ before f, past = before ++ [.note (.failure f)]
  | .outOfFuel => False

def Keeps (I : State F → List (Event F) → Prop) (c : Running F α) : Prop :=
  ∀ s past, I s past → leads c (fun _ => I) (fun e t p => I t p ∧ Told e p) s past

variable {I : State F → List (Event F) → Prop}

theorem Keeps.pure (a : α) : Keeps I (pure a : Running F α) := fun _ _ h => leads_pure h

theorem Keeps.bind {c : Running F α} {f : α → Running F β} (hc : Keeps I c) (hf : ∀ a, Keeps I (f a)) :
    Keeps I (c >>= f) :=
  fun s past h => leads_bind (leads_mono (hc s past h) (fun a t p => hf a t p) fun _ _ _ h => h)

theorem Keeps.getState : Keeps I (getState : Running F (State F)) := fun _ _ h => leads_getState h

theorem Keeps.update {f : State F → State F} (hf : ∀ s p, I s p → I (f s) p) : Keeps I (update f) :=
  fun s p h => leads_update (hf s p h)

theorem Keeps.event {e : Event F} (he : ∀ s p, I s p → I s (p ++ [e])) : Keeps I (event e) :=
  fun s p h => leads_event (he s p h)

end Running
end ConstrainedOpt
