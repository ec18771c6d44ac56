import ConstrainedOpt.Proofs.Assertion.History
import ConstrainedOpt.Proofs.Assertion.Twins

/-! # Pieces that show the same

Two pieces of runs show the same when they answer the same from alike states, leave alike ones, and go through the
same visits and trials, whatever they note on the way. States are alike when they differ in the schedule of the
diagnostics at most, which is how runs that report differently come to differ in their states.
-/
namespace ConstrainedOpt
variable {F α β : Type}

/-- The states that differ from `s` in the schedule of the diagnostics at most. -/
inductive State.Alike (s : State F) : State F → Prop
  | over (c : CheckSchedule) : Alike s { s with checkSchedule := c }

/-- The state without its schedule of the diagnostics. -/
def State.unscheduled (s : State F) : State F := { s with checkSchedule := .never }

theorem State.Alike.refl (s : State F) : s.Alike s := .over s.checkSchedule

/-- What an event shows of the optimisation: nothing when it is a note, and no schedule. -/
def Event.shown : Event F → Option (Event F)
  | .note _ => none
  | .visit loc s => some (.visit loc s.unscheduled)
  | .trial s t => some (.trial s.unscheduled t)

namespace Running

/-- From `s` and `t` the pieces answer the same and leave alike states, and the events they add show the same. -/
def Matches (c c' : Running F α) (s t : State F) : Prop :=
  ∀ es es', ∃ ds ds', (c.run ⟨s, es⟩).2.events.toList = es.toList ++ ds ∧
    (c'.run ⟨t, es'⟩).2.events.toList = es'.toList ++ ds' ∧ ds'.filterMap Event.shown = ds.filterMap Event.shown ∧
    (c'.run ⟨t, es'⟩).1 = (c.run ⟨s, es⟩).1 ∧ (c.run ⟨s, es⟩).2.state.Alike (c'.run ⟨t, es'⟩).2.state

/-- The pieces match from all alike states. -/
def Mirrors (c c' : Running F α) : Prop := ∀ s t, s.Alike t → Matches c c' s t

/-- From `s` the piece may answer `a` and leave `u`. -/
def Reaches (c : Running F α) (s : State F) (a : α) (u : State F) : Prop :=
  ∃ es es', c.run ⟨s, es⟩ = (.ok a, ⟨u, es'⟩)

/-- What an oblivious piece reaches it reaches with nothing before it. -/
theorem Reaches.run {c : Running F α} (hc : Oblivious c) {s u : State F} {a : α} (h : Reaches c s a u) :
    (c.run ⟨s, #[]⟩).1 = .ok a ∧ (c.run ⟨s, #[]⟩).2.state = u := by
  obtain ⟨es, es', hrun⟩ := h
  rw [hc s es] at hrun
  exact ⟨congrArg Prod.fst hrun, congrArg (fun r => r.2.state) hrun⟩

/-- What is said of a piece is said of what it reaches. -/
theorem Reaches.of_wp {W : Watch F} {c : Running F α} {Q : α → State F → Prop} {E : Halt → State F → Prop} {s u : State F}
    {a : α} (h : Reaches c s a u) (hwp : wp W c Q E s) : Q a u := by
  obtain ⟨es, es', hrun⟩ := h
  obtain ⟨_, -, -, hok, -⟩ := wp_run hwp es
  rw [hrun] at hok
  exact hok a rfl

/-- The states that the piece, run from `s`, visits at the head of an iteration. -/
def Heads (c : Running F α) (s : State F) : Set (State F) :=
  {u | (.beginningOfOptimizationLoop, u) ∈ Event.visits (c.run ⟨s, #[]⟩).2.events.toList}

theorem heads_bind {c : Running F α} {f : α → Running F β} (hf : ∀ a, Oblivious (f a)) (s : State F) :
    Heads c s ⊆ Heads (c >>= f) s := by
  intro u hu
  have hu : (.beginningOfOptimizationLoop, u) ∈ Event.visits (c.run ⟨s, #[]⟩).2.events.toList := hu
  change _ ∈ Event.visits _
  rw [run_bind]
  rcases hc : c.run ⟨s, #[]⟩ with ⟨e | a, v, mid⟩ <;> rw [hc] at hu
  · exact hu
  · dsimp only
    rw [hf a v mid, Array.toList_append, Event.visits_append]
    exact List.mem_append_left _ hu

theorem Reaches.heads {c : Running F α} {f : α → Running F β} (hc : Oblivious c) (hf : ∀ a, Oblivious (f a))
    {s u : State F} {a : α} (h : Reaches c s a u) : Heads (f a) u ⊆ Heads (c >>= f) s := by
  obtain ⟨hanswer, hstate⟩ := h.run hc
  intro v hv
  change _ ∈ Event.visits _
  rw [run_bind]
  rcases hrun : c.run ⟨s, #[]⟩ with ⟨e | b, w, mid⟩ <;> rw [hrun] at hanswer hstate <;> cases hanswer
  obtain rfl : w = u := hstate
  dsimp only
  rw [hf a w mid, Array.toList_append, Event.visits_append]
  exact List.mem_append_right _ hv

theorem Matches.bind {c c' : Running F α} {f f' : α → Running F β} {s t : State F} (h : Matches c c' s t)
    (hf : ∀ a u v, Reaches c s a u → Reaches c' t a v → u.Alike v → Matches (f a) (f' a) u v) :
    Matches (c >>= f) (c' >>= f') s t := by
  intro es es'
  obtain ⟨ds, ds', hds, hds', hshown, hanswer, hstate⟩ := h es es'
  simp only [run_bind]
  rcases hc : c.run ⟨s, es⟩ with ⟨e | a, u, mid⟩ <;> rcases hc' : c'.run ⟨t, es'⟩ with ⟨e' | a', v, mid'⟩ <;>
    rw [hc, hc'] at hanswer hstate <;> rw [hc] at hds <;> rw [hc'] at hds' <;> cases hanswer
  · exact ⟨ds, ds', hds, hds', hshown, rfl, hstate⟩
  · obtain ⟨cs, cs', hcs, hcs', hshown', hend⟩ := hf a u v ⟨es, mid, hc⟩ ⟨es', mid', hc'⟩ hstate mid mid'
    refine ⟨ds ++ cs, ds' ++ cs', ?_, ?_, ?_, hend⟩
    · rw [hcs, hds, List.append_assoc]
    · rw [hcs', hds', List.append_assoc]
    · rw [List.filterMap_append, List.filterMap_append, hshown, hshown']

theorem matches_getState {f f' : State F → Running F β} {s t : State F} (h : Matches (f s) (f' t) s t) :
    Matches (getState >>= f) (getState >>= f') s t := h

theorem matches_stopped {f f' : Bool → Running F β} {s t : State F}
    (h : Matches (f (decide (s.stop ≠ .notConverged))) (f' (decide (t.stop ≠ .notConverged))) s t) :
    Matches (stopped >>= f) (stopped >>= f') s t := h

theorem Reaches.update_eq {f : State F → State F} {s u : State F} {a : Unit} (h : Reaches (update f) s a u) :
    u = f s := by
  obtain ⟨es, es', hrun⟩ := h
  have hrun : ((.ok (), ⟨f s, es⟩) : Except Halt Unit × Run F) = (.ok a, ⟨u, es'⟩) := hrun
  cases hrun
  rfl

theorem Reaches.visit_eq {k : Setup F} {loc : Location} {s u : State F} {a : Unit} (h : Reaches (visit k loc) s a u) :
    u = k.hooks.manipulate loc s := by
  obtain ⟨es, es', hrun⟩ := h
  exact (congrArg (fun r => r.2.state) hrun).symm

theorem Mirrors.bind {c c' : Running F α} {f f' : α → Running F β} (h : Mirrors c c') (hf : ∀ a, Mirrors (f a) (f' a)) :
    Mirrors (c >>= f) (c' >>= f') :=
  fun s t hst => (h s t hst).bind fun a u v _ _ huv => hf a u v huv

theorem mirrors_pure (a : α) : Mirrors (pure a : Running F α) (pure a) :=
  fun _ _ hst _ _ => ⟨[], [], (List.append_nil _).symm, (List.append_nil _).symm, rfl, rfl, hst⟩

theorem mirrors_throw (e : Halt) : Mirrors (throw e : Running F α) (throw e) :=
  fun _ _ hst _ _ => ⟨[], [], (List.append_nil _).symm, (List.append_nil _).symm, rfl, rfl, hst⟩

/-- A piece that looks at the state has to go on the same whatever the schedule is. -/
theorem mirrors_getState {f f' : State F → Running F β}
    (h : ∀ s c, Mirrors (f s) (f' { s with checkSchedule := c })) : Mirrors (getState >>= f) (getState >>= f') := by
  rintro s _ ⟨c⟩
  exact h s c s _ (.over c)

theorem mirrors_update {f f' : State F → State F}
    (h : ∀ s c, (f s).Alike (f' { s with checkSchedule := c })) : Mirrors (update f) (update f') := by
  rintro s _ ⟨c⟩ es es'
  exact ⟨[], [], (List.append_nil _).symm, (List.append_nil _).symm, rfl, rfl, h s c⟩

theorem mirrors_event {e e' : Event F} (h : e'.shown = e.shown) : Mirrors (event e) (event e') := by
  intro s t hst es es'
  refine ⟨[e], [e'], Array.toList_push, Array.toList_push, ?_, rfl, hst⟩
  rw [List.filterMap_cons, List.filterMap_cons, h]

theorem mirrors_log (level level' : Level) (message message' : Message F) :
    Mirrors (log level message) (log level' message') := mirrors_event rfl

theorem mirrors_lift (c : Journaled F α) : Mirrors (liftM c : Running F α) (liftM c) := by
  intro s t hst es es'
  refine ⟨(c.run #[]).2.toList.map Event.note, (c.run #[]).2.toList.map Event.note, ?_, ?_, rfl, rfl, hst⟩
  · change (es ++ (c.run #[]).2.map Event.note).toList = _
    simp
  · change (es' ++ (c.run #[]).2.map Event.note).toList = _
    simp

theorem mirrors_ite {p : Prop} [Decidable p] {c c' d d' : Running F α} (h : p → Mirrors c c') (h' : ¬ p → Mirrors d d') :
    Mirrors (if p then c else d) (if p then c' else d') := by
  split
  case isTrue hp => exact h hp
  case isFalse hp => exact h' hp

theorem mirrors_optional {p : Prop} [Decidable p] {d d' : Running F Unit} {c c' : Running F α} (hd : Mirrors d d')
    (h : Mirrors c c') : Mirrors (if p then d >>= fun _ => c else c) (if p then d' >>= fun _ => c' else c') :=
  mirrors_ite (fun _ => hd.bind fun _ => h) fun _ => h

theorem mirrors_stopped : Mirrors (stopped : Running F Bool) stopped :=
  mirrors_getState fun _ _ => mirrors_pure _

theorem mirrors_setStop (stop : Stop) : Mirrors (setStop stop : Running F Unit) (setStop stop) :=
  mirrors_update fun _ c => .over c

section Setup
variable {k : Setup F}

/-- Manipulators that observe see alike states. -/
theorem mirrors_visit (hk : ∀ loc s, k.hooks.manipulate loc s = s) (loc : Location) :
    Mirrors (visit k loc) (visit k loc) := by
  unfold visit
  refine (mirrors_log _ _ _ _).bind fun _ => mirrors_getState fun s c => (mirrors_event (by rfl)).bind fun _ => ?_
  refine mirrors_update fun s c => ?_
  rw [hk, hk]
  exact .over c

theorem mirrors_fail (f : Failure) : Mirrors (fail k f : Running F α) (fail k f) :=
  (mirrors_event rfl).bind fun _ => mirrors_throw _

/-- After a failure nothing runs. -/
theorem mirrors_fail_bind (f : Failure) (g g' : α → Running F β) : Mirrors (fail k f >>= g) (fail k f >>= g') := by
  intro s t hst
  refine (mirrors_fail f s t hst).bind fun a u v hreach _ _ => ?_
  obtain ⟨es, es', hrun⟩ := hreach
  cases hrun

theorem mirrors_stepFailure (e : StepError) (context : String) :
    Mirrors (stepFailure k e context) (stepFailure k e context) := by
  cases e with
  | numericalInstability => exact (mirrors_log _ _ _ _).bind fun _ => mirrors_setStop _
  | _ => exact (mirrors_log _ _ _ _).bind fun _ => mirrors_fail _

theorem mirrors_tryStep [Scalar F] (dx : Vec F) (a : F) : Mirrors (tryStep k dx a) (tryStep k dx a) :=
  mirrors_getState fun _ _ => (mirrors_lift _).bind fun _ => (mirrors_event (by rfl)).bind fun _ => mirrors_pure _

end Setup

/-! ### Pieces that only report -/

/-- From `s` the piece adds notes and does nothing else. -/
def Reports (c : Running F Unit) (s : State F) : Prop :=
  ∀ es, ∃ notes : List (Note F), c.run ⟨s, es⟩ = (.ok (), ⟨s, es ++ (notes.map Event.note).toArray⟩)

theorem reports_pure (s : State F) : Reports (pure ()) s := fun es => ⟨[], by
  change (Except.ok (), (⟨s, es⟩ : Run F)) = _
  simp⟩

theorem reports_note (n : Note F) (s : State F) : Reports (event (.note n)) s := fun es => ⟨[n], by
  change (Except.ok (), (⟨s, es.push (.note n)⟩ : Run F)) = _
  rw [Array.push_eq_append]
  rfl⟩

theorem Reports.bind {c d : Running F Unit} {s : State F} (hc : Reports c s) (hd : Reports d s) :
    Reports (c >>= fun _ => d) s := by
  intro es
  obtain ⟨ns, hns⟩ := hc es
  obtain ⟨ms, hms⟩ := hd (es ++ (ns.map Event.note).toArray)
  refine ⟨ns ++ ms, ?_⟩
  rw [run_bind, hns]
  dsimp only
  rw [hms, List.map_append]
  simp

theorem reports_getState {f : State F → Running F Unit} {s : State F} (h : Reports (f s) s) :
    Reports (getState >>= f) s := h

theorem reports_stopped {f : Bool → Running F Unit} {s : State F} (h : ∀ b, Reports (f b) s) :
    Reports (stopped >>= f) s := fun es => h (decide (s.stop ≠ .notConverged)) es

theorem reports_lift {c : Journaled F α} {a : α} (hc : c.answer = .ok a) {f : α → Running F Unit} {s : State F}
    (h : Reports (f a) s) : Reports ((liftM c : Running F α) >>= f) s := by
  intro es
  obtain ⟨ns, hns⟩ := h (es ++ (c.run #[]).2.map Event.note)
  refine ⟨(c.run #[]).2.toList ++ ns, ?_⟩
  have hlift : (liftM c : Running F α).run ⟨s, es⟩ = (.ok a, ⟨s, es ++ (c.run #[]).2.map Event.note⟩) := by
    change ((c.run #[]).1.mapError Halt.panic, (⟨s, es ++ (c.run #[]).2.map Event.note⟩ : Run F)) = _
    rw [show (c.run #[]).1 = .ok a from hc]
    rfl
  rw [run_bind, hlift]
  dsimp only
  rw [hns, List.map_append, Array.append_assoc]
  congr 3
  simp

theorem reports_ite {p : Prop} [Decidable p] {c d : Running F Unit} {s : State F} (hc : p → Reports c s)
    (hd : ¬ p → Reports d s) : Reports (if p then c else d) s := by
  split
  case isTrue hp => exact hc hp
  case isFalse hp => exact hd hp

/-- Two pieces that only report match. -/
theorem Reports.matches {c c' : Running F Unit} {s t : State F} (hc : Reports c s) (hc' : Reports c' t)
    (hst : s.Alike t) : Matches c c' s t := by
  intro es es'
  obtain ⟨ns, hns⟩ := hc es
  obtain ⟨ns', hns'⟩ := hc' es'
  rw [hns, hns']
  refine ⟨ns.map Event.note, ns'.map Event.note, by simp, by simp, ?_, rfl, hst⟩
  have hnone : ∀ notes : List (Note F), (notes.map Event.note).filterMap Event.shown = [] := by
    intro notes
    rw [List.filterMap_map, List.filterMap_eq_nil_iff]
    exact fun _ _ => rfl
  rw [hnone, hnone]

/-- A note that depends on what is to be reported makes no difference. -/
theorem mirrors_note {p p' : Prop} [Decidable p] [Decidable p'] {n n' : Note F} {c c' : Running F α} (h : Mirrors c c') :
    Mirrors (if p then event (.note n) >>= fun _ => c else c) (if p' then event (.note n') >>= fun _ => c' else c') := by
  have hsplit : ∀ (p : Prop) [Decidable p] (n : Note F) (c : Running F α),
      (if p then event (.note n) >>= fun _ => c else c) = ((if p then event (.note n) else pure ()) >>= fun _ => c) := by
    intro p _ n c
    split <;> rfl
  rw [hsplit, hsplit]
  intro s t hst
  have hreports : ∀ (p : Prop) [Decidable p] (n : Note F) (s : State F),
      Reports (if p then event (.note n) else pure ()) s :=
    fun p _ n s => reports_ite (fun _ => reports_note n s) fun _ => reports_pure s
  exact ((hreports p n s).matches (hreports p' n' t) hst).bind fun _ u v _ _ huv => h u v huv

end Running
end ConstrainedOpt
