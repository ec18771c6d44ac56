import ConstrainedOpt.Problem.Polynomial
import ConstrainedOpt.Proofs.History.Steps
import ConstrainedOpt.Proofs.Run.Loop
import ConstrainedOpt.Run.Rule
import ConstrainedOpt.Scalar.Binary64

/-! # Requests to stop

A manipulator stops a run by setting the stop of the state. From every hook point but the first one such a request
survives the rest of the run: the step in progress may still move the iterate once, or the next iteration begin
and end at once, and the run answers the request unless a part of it fails and says so. The first hook point comes
before the state is made ready, which forgets the request.
-/
namespace ConstrainedOpt
variable {F : Type}

/-- The manipulator looks, requests stops where it likes, and writes nothing else except a step, when it is asked
for one. -/
structure Hooks.StopOnly (hooks : Hooks F) : Prop where
  atGetStep : ∀ s, ∃ dx, hooks.manipulate .getStep s = { s with dx } ∨
    hooks.manipulate .getStep s = { s with dx, stop := .userDefined }
  elsewhere : ∀ loc s, loc ≠ .getStep → hooks.manipulate loc s = s ∨
    hooks.manipulate loc s = { s with stop := .userDefined }

theorem Hooks.Observing.stopOnly {hooks : Hooks F} (h : hooks.Observing) : hooks.StopOnly where
  atGetStep s := ⟨s.dx, .inl (h _ s)⟩
  elsewhere loc s _ := .inl (h loc s)

/-- The manipulator leaves the hook point with a request to stop. -/
def Hooks.Requests (hooks : Hooks F) (loc : Location) (u : State F) : Prop :=
  (hooks.manipulate loc u).stop = .userDefined

theorem Hooks.StopOnly.writes {hooks : Hooks F} (h : hooks.StopOnly) (loc : Location) (s : State F) :
    ∃ dx stop, hooks.manipulate loc s = { s with dx, stop } ∧ (stop = s.stop ∨ stop = .userDefined) := by
  by_cases hloc : loc = .getStep
  · subst hloc
    obtain ⟨dx, hdx | hdx⟩ := h.atGetStep s
    · exact ⟨dx, s.stop, hdx, .inl rfl⟩
    · exact ⟨dx, .userDefined, hdx, .inr rfl⟩
  · rcases h.elsewhere loc s hloc with hs | hs
    · exact ⟨s.dx, s.stop, hs, .inl rfl⟩
    · exact ⟨s.dx, .userDefined, hs, .inr rfl⟩

/-- What has become of a request made at the state `u` when the run has come to the state `s` and `post` has
happened since: the run stops for it, unless a part of it has failed; the iterate has changed at most once, and not
at all without `moves`; at most `heads` iterations have begun, and none of them has come to its step. -/
structure Heeded (moves heads : Nat) (u s : State F) (post : List (Event F)) : Prop where
  stop : s.stop = .userDefined ∨
    (∃ e ∈ post, e.IsFault) ∧ (s.stop = .globalizationFailure ∨ s.stop = .interiorPointInstability)
  iterate : ∃ before after x, Event.visits post = before ++ after ∧ (∀ v ∈ before, v.2.x = u.x) ∧
    (∀ v ∈ after, v.2.x = x) ∧ s.x = x ∧ (moves = 0 → x = u.x)
  heads : (Event.visits post).countP (fun v => v.1 == .beginningOfOptimizationLoop) ≤ heads
  steps : ∀ v ∈ Event.visits post, v.1 ≠ .beforeSaveOld

namespace Heeded
variable {m n : Nat} {u s t : State F} {post : List (Event F)}

theorem start (hs : s.stop = .userDefined) (hx : s.x = u.x) : Heeded 0 0 u s [] where
  stop := .inl hs
  iterate := ⟨[], [], s.x, rfl, by simp, by simp, rfl, fun _ => hx⟩
  heads := Nat.le_refl 0
  steps := by simp

/-- The state works on. -/
theorem work (h : Heeded m n u s post) (hstop : t.stop = s.stop ∨ t.stop = .userDefined) (hx : t.x = s.x) :
    Heeded m n u t post where
  stop := by
    rcases hstop with hstop | hstop
    · rw [hstop]
      exact h.stop
    · exact .inl hstop
  iterate := by
    rw [hx]
    exact h.iterate
  heads := h.heads
  steps := h.steps

/-- The request stands after more events, or the failure that has ended a part instead. -/
theorem stop_append (h : Heeded m n u s post) (es : List (Event F)) : s.stop = .userDefined ∨
    (∃ e ∈ post ++ es, e.IsFault) ∧ (s.stop = .globalizationFailure ∨ s.stop = .interiorPointInstability) := by
  refine h.stop.imp_right fun ⟨⟨f, hf, hfault⟩, hstop⟩ => ⟨⟨f, ?_, hfault⟩, hstop⟩
  exact List.mem_append_left _ hf

theorem steps_visit (h : Heeded m n u s post) {loc : Location} (hloc : loc ≠ .beforeSaveOld) :
    ∀ v ∈ Event.visits (post ++ [.visit loc t]), v.1 ≠ .beforeSaveOld := by
  rw [Event.visits_append, List.forall_mem_append]
  exact ⟨h.steps, List.forall_mem_singleton.mpr hloc⟩

/-- Something happens that is no visit. -/
theorem pass (h : Heeded m n u s post) {e : Event F} (he : Event.visits [e] = []) :
    Heeded m n u s (post ++ [e]) where
  stop := h.stop_append _
  iterate := by
    rw [Event.visits_append, he, List.append_nil]
    exact h.iterate
  heads := by
    rw [Event.visits_append, he, List.append_nil]
    exact h.heads
  steps := by
    rw [Event.visits_append, he, List.append_nil]
    exact h.steps

/-- A part of the run fails and says so. -/
theorem fault (h : Heeded m n u s post) {level : Level} {message : Message F} {stop : Stop}
    (hm : Fault message) (hstop : stop = .globalizationFailure ∨ stop = .interiorPointInstability) :
    Heeded m n u { s with stop } (post ++ [.note (.record level message)]) := by
  have hp := h.pass (e := .note (.record level message)) rfl
  exact ⟨.inr ⟨⟨.note (.record level message), by simp, hm⟩, hstop⟩, hp.iterate, hp.heads, hp.steps⟩

/-- A hook point is visited. -/
theorem visit (h : Heeded m n u s post) {loc : Location} (hloc : loc ≠ .beforeSaveOld) :
    Heeded m (n + if loc = .beginningOfOptimizationLoop then 1 else 0) u s (post ++ [.visit loc s]) where
  stop := h.stop_append _
  iterate := by
    obtain ⟨before, after, x, hpost, hbefore, hafter, hx, hzero⟩ := h.iterate
    refine ⟨before, after ++ [(loc, s)], x, by simp [hpost], hbefore, ?_, hx, hzero⟩
    intro v hv
    rcases List.mem_append.mp hv with hv | hv
    · exact hafter v hv
    · rw [List.mem_singleton.mp hv]
      exact hx
  heads := by
    have hn := h.heads
    by_cases hhead : loc = .beginningOfOptimizationLoop <;> simp [hhead] <;> omega
  steps := h.steps_visit hloc

/-- The iterate moves, and the manipulator is shown where to. -/
theorem move (h : Heeded 0 n u s post) {loc : Location} (hloc : loc ≠ .beforeSaveOld)
    (hhead : loc ≠ .beginningOfOptimizationLoop) (hstop : t.stop = s.stop) :
    Heeded 1 n u t (post ++ [.visit loc t]) where
  stop := by
    rw [hstop]
    exact h.stop_append _
  iterate := by
    obtain ⟨before, after, x, hpost, hbefore, hafter, -, hzero⟩ := h.iterate
    refine ⟨before ++ after, [(loc, t)], t.x, by simp [hpost], ?_, by simp, rfl, nofun⟩
    intro v hv
    rcases List.mem_append.mp hv with hv | hv
    · exact hbefore v hv
    · exact (hafter v hv).trans (hzero rfl)
  heads := by
    have hn := h.heads
    simp [hhead]
    omega
  steps := h.steps_visit hloc

end Heeded

/-- Every request made so far, but those of the first hook point, is heeded; with the budget `b` one move or one
beginning of an iteration has been spent on it. -/
def Hooks.Heedful (hooks : Hooks F) (b : Nat) (s : State F) (p : List (Event F)) : Prop :=
  ∀ pre loc u post, p = pre ++ .visit loc u :: post → loc ≠ .beginningOfOptimization → hooks.Requests loc u →
    ∃ m n, m + n ≤ b ∧ Heeded m n u s post

namespace Hooks.Heedful
variable {hooks : Hooks F} {b b' : Nat} {s t : State F} {p : List (Event F)}

/-- No hook point but the first one has been visited. -/
theorem first (h : ∀ loc u, .visit loc u ∈ p → loc = .beginningOfOptimization) : hooks.Heedful b s p := by
  intro pre loc u post hp hloc _
  exact absurd (h loc u (by simp [hp])) hloc

/-- A run that goes on has not been asked to stop. -/
theorem none (h : hooks.Heedful b s p) (hs : s.stop = .notConverged) : hooks.Heedful b' t p := by
  intro pre loc u post hp hloc hreq
  obtain ⟨m, n, -, hh⟩ := h pre loc u post hp hloc hreq
  rcases hh.stop with hstop | ⟨-, hstop | hstop⟩ <;> simp [hs] at hstop

theorem mono (h : hooks.Heedful b s p) (hb : b ≤ b') : hooks.Heedful b' s p := by
  intro pre loc u post hp hloc hreq
  obtain ⟨m, n, hmn, hh⟩ := h pre loc u post hp hloc hreq
  exact ⟨m, n, by omega, hh⟩

theorem work (h : hooks.Heedful b s p) (hstop : t.stop = s.stop) (hx : t.x = s.x) : hooks.Heedful b t p := by
  intro pre loc u post hp hloc hreq
  obtain ⟨m, n, hmn, hh⟩ := h pre loc u post hp hloc hreq
  exact ⟨m, n, hmn, hh.work (.inl hstop) hx⟩

/-- One more event: the old requests are heeded after it, and so is one that it makes. -/
theorem snoc (h : hooks.Heedful b s p) {e : Event F}
    (hold : ∀ u post m n, m + n ≤ b → Heeded m n u s post → ∃ m' n', m' + n' ≤ b' ∧ Heeded m' n' u t (post ++ [e]))
    (hnew : ∀ loc u, e = .visit loc u → hooks.Requests loc u → Heeded 0 0 u t []) :
    hooks.Heedful b' t (p ++ [e]) := by
  intro pre loc u post hp hloc hreq
  rcases List.eq_nil_or_concat post with rfl | ⟨post, f, rfl⟩
  · obtain ⟨rfl, he⟩ := List.append_inj' hp rfl
    exact ⟨0, 0, Nat.zero_le _, hnew loc u (List.singleton_inj.mp he) hreq⟩
  · rw [List.concat_eq_append, ← List.cons_append, ← List.append_assoc] at hp
    obtain ⟨rfl, he⟩ := List.append_inj' hp rfl
    obtain rfl := List.singleton_inj.mp he
    obtain ⟨m, n, hmn, hh⟩ := h pre loc u post rfl hloc hreq
    rw [List.concat_eq_append]
    exact hold u post m n hmn hh

theorem pass (h : hooks.Heedful b s p) {e : Event F} (he : Event.visits [e] = []) :
    hooks.Heedful b s (p ++ [e]) := by
  refine h.snoc (fun u post m n hmn hh => ⟨m, n, hmn, hh.pass he⟩) ?_
  rintro loc u rfl
  cases he

theorem fault (h : hooks.Heedful b s p) {level : Level} {message : Message F} {stop : Stop}
    (hm : Fault message) (hstop : stop = .globalizationFailure ∨ stop = .interiorPointInstability) :
    hooks.Heedful b { s with stop } (p ++ [.note (.record level message)]) := by
  refine h.snoc (fun u post m n hmn hh => ⟨m, n, hmn, hh.fault hm hstop⟩) ?_
  intro loc u he
  cases he

/-- A hook point is visited; `hold` tells what becomes of the old requests up to the manipulator. -/
theorem shown (h : hooks.Heedful b s p) (hk : hooks.StopOnly) {loc : Location}
    (hold : ∀ u post m n, m + n ≤ b → Heeded m n u s post →
      ∃ m' n', m' + n' ≤ b' ∧ Heeded m' n' u t (post ++ [.visit loc t])) :
    hooks.Heedful b' (hooks.manipulate loc t) (p ++ [.visit loc t]) := by
  obtain ⟨dx, stop, hwrites, hstop⟩ := hk.writes loc t
  refine h.snoc ?_ ?_
  · intro u post m n hmn hh
    obtain ⟨m', n', hmn', hh⟩ := hold u post m n hmn hh
    rw [hwrites]
    exact ⟨m', n', hmn', hh.work hstop rfl⟩
  · intro loc' u he hreq
    obtain ⟨rfl, rfl⟩ := Event.visit.inj he
    refine .start hreq ?_
    rw [hwrites]

theorem visit (h : hooks.Heedful b s p) (hk : hooks.StopOnly) {loc : Location} (hloc : loc ≠ .beforeSaveOld) :
    hooks.Heedful (b + if loc = .beginningOfOptimizationLoop then 1 else 0) (hooks.manipulate loc s)
      (p ++ [.visit loc s]) :=
  h.shown hk fun _ _ m _ hmn hh => ⟨m, _, by omega, hh.visit hloc⟩

theorem move (h : hooks.Heedful 0 s p) (hk : hooks.StopOnly) (hstop : t.stop = s.stop) :
    hooks.Heedful 1 (hooks.manipulate .afterStepBeforeGradient t) (p ++ [.visit .afterStepBeforeGradient t]) := by
  refine h.shown hk fun u post m n hmn hh => ?_
  obtain ⟨rfl, rfl⟩ : m = 0 ∧ n = 0 := by omega
  exact ⟨1, 0, Nat.le_refl 1, hh.move nofun nofun hstop⟩

/-- Nobody has asked the run to stop when its step begins. -/
theorem begin (h : hooks.Heedful b s p) (hk : hooks.StopOnly) (hs : s.stop = .notConverged) (loc : Location) :
    hooks.Heedful 0 (hooks.manipulate loc s) (p ++ [.visit loc s]) := by
  refine h.shown hk fun u post m n _ hh => ?_
  rcases hh.stop with hstop | ⟨-, hstop | hstop⟩ <;> simp [hs] at hstop

end Hooks.Heedful

/-! ### The parts of a run -/

/-- The requests so far are heeded, and `i` iterations have been completed. -/
def Hooks.HeedfulAt (hooks : Hooks F) (b i : Nat) (s : State F) (p : List (Event F)) : Prop :=
  hooks.Heedful b s p ∧ s.iter = i

namespace Running

theorem heedful_enduring (hooks : Hooks F) (b i : Nat) : Enduring (hooks.HeedfulAt b i) where
  noted _ _ _ h := ⟨h.1.pass rfl, h.2⟩
  faulted _ _ _ _ _ hm hstop h := ⟨h.1.fault hm hstop, h.2⟩

variable [Scalar F] {α : Type} {k : Setup F} {b i : Nat} {s t : State F} {p : List (Event F)}

omit [Scalar F] in
theorem heedful_sameButGradient {hooks : Hooks F} (ht : s.SameButGradient t) (h : hooks.HeedfulAt b i s p) :
    hooks.HeedfulAt b i t p := by
  unfold State.SameButGradient at ht
  rw [ht]
  exact ⟨h.1.work rfl rfl, h.2⟩

omit [Scalar F] in
theorem keeps_working {hooks : Hooks F} {f : State F → State F}
    (hf : ∀ s, (f s).stop = s.stop ∧ (f s).x = s.x ∧ (f s).iter = s.iter) :
    Keeps (hooks.HeedfulAt b i) (update f) := by
  refine .update fun s p h => ?_
  obtain ⟨hstop, hx, hiter⟩ := hf s
  exact ⟨h.1.work hstop hx, hiter.trans h.2⟩

theorem keeps_printRow (hooks : Hooks F) : Keeps (hooks.HeedfulAt b i) (Table.printRow k) := by
  unfold Table.printRow
  split
  · exact Keeps.getState.bind fun s => (heedful_enduring hooks b i).keeps_event _
  · exact .pure _

theorem keeps_diagnose (hooks : Hooks F) : Keeps (hooks.HeedfulAt b i) (diagnose k) := by
  unfold diagnose
  refine Keeps.getState.bind fun s => ((heedful_enduring hooks b i).keeps_lift _).bind fun ok => ?_
  split
  · exact (heedful_enduring hooks b i).keeps_fault .diagnostics (.inl rfl)
  · exact .pure _

theorem keeps_updateMu (hooks : Hooks F) : Keeps (hooks.HeedfulAt b i) (updateMu k) := by
  have he := heedful_enduring hooks b i
  unfold updateMu
  refine Keeps.getState.bind fun s => ?_
  split
  · exact .pure _
  · split
    · refine Keeps.bind (keeps_working (by exact fun _ => ⟨rfl, rfl, rfl⟩)) fun _ => (he.keeps_log _ _).bind fun _ => ?_
      refine (he.keeps_updateGradient k true fun _ _ _ => heedful_sameButGradient).bind fun o => ?_
      split
      case h_1 e => exact he.keeps_stepFailure k (.barrierUpdate e)
      case h_2 => exact .pure _
    · exact .pure _

omit [Scalar F] in
/-- A part of a run that spends nothing on requests. -/
theorem leads_thrifty {hooks : Hooks F} {c : Running F α} (hc : Keeps (hooks.HeedfulAt 0 i) c)
    (h : hooks.HeedfulAt 0 i s p) {Q : α → State F → List (Event F) → Prop}
    (hQ : ∀ a t q, hooks.HeedfulAt 0 i t q → Q a t q) :
    leads c Q (fun e t q => hooks.Heedful 1 t q ∧ Told e q) s p :=
  leads_mono (hc s p h) hQ fun _ _ _ h => ⟨h.1.1.mono (Nat.zero_le 1), h.2⟩

theorem leads_assess (h : k.hooks.HeedfulAt b i s p) :
    leads (assess k) (fun _ t q => k.hooks.HeedfulAt b i t q ∧ (t.stop = .notConverged → i < k.par.iterMax))
      (fun e t q => k.hooks.Heedful b t q ∧ Told e q) s p := by
  unfold assess
  refine leads_bind (leads_mono (keeps_updateMu k.hooks s p h) ?_ fun _ _ _ h => ⟨h.1.1, h.2⟩)
  intro _ t q ht
  refine leads_bind (leads_getState (leads_bind (leads_setStop (leads_bind (leads_stopped ?_)))))
  have hcriterion : k.hooks.HeedfulAt b i { t with stop := k.criterion t } q := by
    by_cases hstop : t.stop = .notConverged
    · exact ⟨ht.1.none hstop, ht.2⟩
    · rw [Setup.criterion_of_stopped hstop]
      exact ht
  split
  case isTrue hstopped => exact leads_pure ⟨hcriterion, fun hrunning => absurd hrunning (of_decide_eq_true hstopped)⟩
  case isFalse hrunning =>
    have hroom : i < k.par.iterMax := by
      have hgoes : k.criterion t = .notConverged := by simpa using hrunning
      exact ht.2 ▸ Setup.iter_lt_of_criterion hgoes
    refine leads_bind (leads_getState ?_)
    split
    · exact leads_mono (keeps_diagnose k.hooks _ q hcriterion) (fun _ _ _ h => ⟨h, fun _ => hroom⟩)
        fun _ _ _ h => ⟨h.1.1, h.2⟩
    · exact leads_pure ⟨hcriterion, fun _ => hroom⟩

variable (hk : k.hooks.StopOnly)
include hk

omit [Scalar F] in
theorem iter_manipulate (loc : Location) (s : State F) : (k.hooks.manipulate loc s).iter = s.iter := by
  obtain ⟨dx, stop, hwrites, -⟩ := hk.writes loc s
  rw [hwrites]

omit [Scalar F] in
theorem keeps_hook (loc : Location) (hsave : loc ≠ .beforeSaveOld) (hhead : loc ≠ .beginningOfOptimizationLoop) :
    Keeps (k.hooks.HeedfulAt b i) (visit k loc) := by
  intro s p h
  apply leads_visit
  have hv := (h.1.pass (e := .note (.record .trace [.text (Registry.text loc)])) rfl).visit hk hsave
  rw [if_neg hhead] at hv
  exact ⟨hv, (iter_manipulate hk loc s).trans h.2⟩

/-- A step heeds the requests made before it, and moves at most once. -/
theorem heedful_course : StepCourse k (k.hooks.HeedfulAt 0 i) (k.hooks.HeedfulAt 1 i) (k.hooks.HeedfulAt 1 i) where
  toEnduring := heedful_enduring k.hooks 0 i
  rejected loc s := by
    obtain ⟨dx, stop, hwrites, -⟩ := hk.writes loc s
    rw [hwrites]
  tried s p u t h := ⟨h.1.pass rfl, h.2⟩
  visited loc s p hloc h := by
    have hsave : loc ≠ .beforeSaveOld := by
      rintro rfl
      exact hloc
    have hhead : loc ≠ .beginningOfOptimizationLoop := by
      rintro rfl
      exact hloc
    have hv := h.1.visit hk hsave
    rw [if_neg hhead] at hv
    exact ⟨hv, (iter_manipulate hk loc s).trans h.2⟩
  worked s t p hkept hstop h := ⟨h.1.work hstop (congrArg Kept.x hkept), (congrArg Kept.iter hkept).trans h.2⟩
  accepted t s p h := by
    refine (heedful_enduring k.hooks 1 i).leads_accept (fun _ _ _ => heedful_sameButGradient) ?_ ?_
    · intro u q hu
      exact ⟨hu.1.visit hk nofun, (iter_manipulate hk _ u).trans hu.2⟩
    · intro n
      have hn := h.1.pass (e := .note n) rfl
      exact ⟨hn.move hk rfl, (iter_manipulate hk _ _).trans h.2⟩
  done s p h := ⟨h.1.mono (Nat.zero_le 1), h.2⟩
  halted s p h := ⟨h.1.mono (Nat.zero_le 1), h.2⟩

theorem leads_body (h : k.hooks.HeedfulAt b i s p) (hrunning : s.stop = .notConverged) :
    leads (body k) (fun _ => k.hooks.HeedfulAt 1 i) (fun e t q => k.hooks.Heedful 1 t q ∧ Told e q) s p := by
  have hsave : Keeps (k.hooks.HeedfulAt 0 i) (saveOld k) := by
    unfold saveOld
    refine Keeps.bind (keeps_working (by exact fun _ => ⟨rfl, rfl, rfl⟩)) fun _ => ?_
    split
    · refine Keeps.getState.bind fun s => ((heedful_enduring k.hooks 0 i).keeps_lift _).bind fun gradOld => ?_
      exact keeps_working (by exact fun _ => ⟨rfl, rfl, rfl⟩)
    · exact .pure _
  have hbegin : k.hooks.HeedfulAt 0 i (k.hooks.manipulate .beforeSaveOld s)
      (p ++ [.note (.record .trace [.text (Registry.text Location.beforeSaveOld)])] ++ [.visit .beforeSaveOld s]) := by
    have hn := h.1.pass (e := .note (.record .trace [.text (Registry.text Location.beforeSaveOld)])) rfl
    exact ⟨hn.begin hk hrunning _, (iter_manipulate hk _ s).trans h.2⟩
  unfold body
  refine leads_bind (leads_visit (leads_bind (leads_thrifty hsave hbegin fun _ t q ht => ?_)))
  refine leads_bind (leads_thrifty (keeps_hook hk .beforeStep nofun nofun) ht fun _ t q ht => ?_)
  refine leads_bind (leads_update ?_)
  have hstart : k.hooks.HeedfulAt 0 i { t with rejected := 0 } q := ⟨ht.1.work rfl rfl, ht.2⟩
  exact leads_mono ((heedful_course hk).takeStep_leads hstart) (fun _ _ _ h => h) fun _ _ _ h => ⟨h.1.1, h.2⟩

theorem leads_tail (h : k.hooks.HeedfulAt 0 i s p) :
    leads (tail k) (fun _ => k.hooks.HeedfulAt 0 (i + 1)) (fun e t q => k.hooks.Heedful 1 t q ∧ Told e q) s p := by
  have hhistory : Keeps (k.hooks.HeedfulAt 0 i) (updateHistory k) := by
    have he := heedful_enduring k.hooks 0 i
    unfold updateHistory
    refine Keeps.getState.bind fun s => (he.keeps_lift _).bind fun change => (he.keeps_lift _).bind fun change => ?_
    exact keeps_working (by exact fun _ => ⟨rfl, rfl, rfl⟩)
  have hfirst : Keeps (k.hooks.HeedfulAt 0 (i + 1))
      (update fun s => if s.iter = 1 then { s with normDxTyp := s.normDx } else s) := by
    refine .update fun s p hs => ?_
    split
    · exact ⟨hs.1.work rfl rfl, hs.2⟩
    · exact hs
  unfold tail countIteration
  refine leads_bind (leads_thrifty (keeps_hook hk .beforeQuasi nofun nofun) h fun _ t q ht => ?_)
  refine leads_bind (leads_thrifty hhistory ht fun _ t q ht => ?_)
  refine leads_bind (leads_thrifty (keeps_hook hk .afterQuasi nofun nofun) ht fun _ t q ht => ?_)
  refine leads_bind (leads_bind (leads_update (leads_bind ?_)))
  have hcounted : k.hooks.HeedfulAt 0 (i + 1) { t with iter := t.iter + 1 } q :=
    ⟨ht.1.work rfl rfl, congrArg (· + 1) ht.2⟩
  refine leads_thrifty hfirst hcounted fun _ t q ht => leads_bind (leads_getState (leads_bind ?_))
  refine leads_thrifty ((heedful_enduring k.hooks 0 (i + 1)).keeps_log _ _) ht fun _ t q ht => ?_
  refine leads_thrifty (keeps_printRow k.hooks) ht fun _ t q ht => ?_
  exact leads_thrifty (keeps_hook hk .endOfOptimizationIteration nofun nofun) ht fun _ t q ht => ht

/-- One iteration: a run that goes on has completed it, heeds no request and is below the bound. -/
theorem leads_iteration (h : k.hooks.HeedfulAt 0 i s p) :
    leads (iteration k)
      (fun more t q => if more then k.hooks.HeedfulAt 0 (i + 1) t q ∧ i < k.par.iterMax else k.hooks.Heedful 1 t q)
      (fun e t q => k.hooks.Heedful 1 t q ∧ Told e q) s p := by
  have hhead : k.hooks.HeedfulAt 1 i (k.hooks.manipulate .beginningOfOptimizationLoop s)
      (p ++ [.note (.record .trace [.text (Registry.text Location.beginningOfOptimizationLoop)])] ++
        [.visit .beginningOfOptimizationLoop s]) := by
    have hn := h.1.pass (e := .note (.record .trace [.text (Registry.text Location.beginningOfOptimizationLoop)])) rfl
    exact ⟨hn.visit hk nofun, (iter_manipulate hk _ s).trans h.2⟩
  unfold iteration
  refine leads_bind (leads_visit (leads_bind (leads_mono (leads_assess hhead) ?_ fun _ _ _ h => h)))
  rintro _ t q ⟨ht, hroom⟩
  refine leads_bind (leads_stopped ?_)
  split
  case isTrue => exact leads_pure ht.1
  case isFalse hrunning =>
    have hrunning : t.stop = .notConverged := by simpa using hrunning
    refine leads_bind (leads_mono (leads_body hk ht hrunning) ?_ fun _ _ _ h => h)
    intro _ u q hu
    refine leads_bind (leads_stopped ?_)
    split
    case isTrue => exact leads_pure hu.1
    case isFalse hgoes =>
      have hgoes : u.stop = .notConverged := by simpa using hgoes
      refine leads_bind (leads_mono (leads_tail hk ⟨hu.1.none hgoes, hu.2⟩) ?_ fun _ _ _ h => h)
      exact fun _ v q hv => leads_pure ⟨hv, hroom hrunning⟩

/-- The iterations end before their bound is reached: each one that goes on has counted itself. -/
theorem leads_iterations {fuel : Nat} (hroom : k.par.iterMax < fuel + i) (hi : i ≤ k.par.iterMax)
    (h : k.hooks.HeedfulAt 0 i s p) :
    leads (iterations k fuel) (fun _ => k.hooks.Heedful 1) (fun e t q => k.hooks.Heedful 1 t q ∧ Told e q) s p := by
  induction fuel generalizing i s p with
  | zero => omega
  | succ fuel ih =>
    refine leads_bind (leads_mono (leads_iteration hk h) ?_ fun _ _ _ h => h)
    intro more t q ht
    cases more with
    | false => exact leads_pure ht
    | true =>
      obtain ⟨ht, hmore⟩ := ht
      exact ih (by omega) hmore ht

omit [Scalar F] in
/-- The end of a run answers the stop of the state it leaves. -/
theorem leads_finish (h : k.hooks.Heedful 1 s p) :
    leads (finish k) (fun stop t q => k.hooks.Heedful 1 t q ∧ stop = t.stop)
      (fun e t q => k.hooks.Heedful 1 t q ∧ Told e q) s p := by
  have hend : ∀ q, k.hooks.Heedful 1 s q → leads (do
      visit k .endOfOptimization
      return (← getState).stop) (fun stop t q => k.hooks.Heedful 1 t q ∧ stop = t.stop)
      (fun e t q => k.hooks.Heedful 1 t q ∧ Told e q) s q := by
    intro q hq
    refine leads_bind (leads_visit (leads_bind (leads_getState (leads_pure ⟨?_, rfl⟩))))
    exact (hq.pass rfl).visit hk nofun
  have hline : ∀ q, k.hooks.Heedful 1 s q → leads (do
      if 1 ≤ k.par.msgLevel then
        event (.note (.line ["Optimization stopped: ", .text (Registry.text s.stop)]))
      visit k .endOfOptimization
      return (← getState).stop) (fun stop t q => k.hooks.Heedful 1 t q ∧ stop = t.stop)
      (fun e t q => k.hooks.Heedful 1 t q ∧ Told e q) s q := by
    intro q hq
    split
    · exact leads_bind (leads_event (hend _ (hq.pass rfl)))
    · exact hend q hq
  unfold finish
  refine leads_bind (leads_getState ?_)
  dsimp only
  split <;> exact leads_bind (leads_log (hline _ (h.pass rfl)))

theorem leads_loop (h : k.hooks.HeedfulAt 0 0 s p) :
    leads (loop k) (fun stop t q => k.hooks.Heedful 1 t q ∧ stop = t.stop)
      (fun e t q => k.hooks.Heedful 1 t q ∧ Told e q) s p := by
  have he := heedful_enduring k.hooks 0 0
  have hheader : Keeps (k.hooks.HeedfulAt 0 0) (Table.printHeader k) := by
    unfold Table.printHeader
    split
    · exact Keeps.getState.bind fun s => he.keeps_event _
    · exact .pure _
  unfold loop
  refine leads_bind (leads_thrifty hheader h fun _ t q ht => ?_)
  refine leads_bind (leads_thrifty (keeps_printRow k.hooks) ht fun _ t q ht => ?_)
  refine leads_bind (leads_thrifty (keeps_hook hk .beforeOptimizationLoop nofun nofun) ht fun _ t q ht => ?_)
  refine leads_bind (leads_thrifty (he.keeps_log _ _) ht fun _ t q ht => ?_)
  have hfuel : k.par.iterMax < k.par.iterMax + patience + 0 := Nat.lt_add_of_pos_right (by decide)
  refine leads_bind (leads_mono (leads_iterations hk hfuel (Nat.zero_le _) ht) ?_ fun _ _ _ h => h)
  exact fun _ t q ht => leads_finish hk ht

omit hk in
theorem Enduring.keeps_check {I : State F → List (Event F) → Prop} (h : Enduring I) (k : Setup F) : Keeps I (check k) := by
  have hsizes : Keeps I (do
      let s ← getState
      if !k.sizesFit s.y then
        let sizeOf (c : Option (Constraint F)) : Piece F := .size? (c.map Constraint.size)
        log .error ["Size mismatch: x ", k.n, ", g", sizeOf k.problem.equality, ", h",
          sizeOf k.problem.inequality, ", precond", .size? (k.problem.preconditioner.map Operator.size),
          ", y ", s.y.length]
        fail k ((Failure.plain StepError.invalidOperator.message).context "Invalid problem")) := by
    refine Keeps.getState.bind fun s => ?_
    split
    · exact (h.keeps_log _ _).bind fun _ => h.keeps_fail k _
    · exact .pure _
  unfold check
  split
  · exact (h.keeps_log _ _).bind fun _ => (h.keeps_fail k _).bind fun _ => hsizes
  · exact hsizes

omit [Scalar F] hk in
/-- Until the state is ready only the first hook point has been visited. -/
theorem enduring_first :
    Enduring fun (_ : State F) p => ∀ loc u, .visit loc u ∈ p → loc = .beginningOfOptimization where
  noted s p n h loc u hu := h loc u (by simpa using hu)
  faulted s p level m stop _ _ h loc u hu := h loc u (by simpa using hu)

omit hk in
theorem leads_initialDiagnostics (h : k.hooks.HeedfulAt 0 0 s p) :
    leads (initialDiagnostics k) (fun _ => k.hooks.HeedfulAt 0 0) (fun e t q => k.hooks.Heedful 1 t q ∧ Told e q) s p := by
  unfold initialDiagnostics
  split
  · exact leads_pure h
  · refine leads_bind (leads_thrifty (keeps_diagnose k.hooks) h fun _ t q ht => leads_bind (leads_stopped ?_))
    split
    · exact leads_pure ht
    case isFalse hrunning =>
      have hrunning : t.stop = .notConverged := by simpa using hrunning
      split
      · exact leads_setStop ⟨ht.1.none hrunning, ht.2⟩
      · exact leads_pure ht

theorem keeps_initialEvaluation : Keeps (k.hooks.HeedfulAt 0 0) (initialEvaluation k) := by
  have he := heedful_enduring k.hooks 0 0
  unfold initialEvaluation
  refine (keeps_hook hk .beforeInitialFuncAndGrad nofun nofun).bind fun _ => Keeps.getState.bind fun s => ?_
  refine (he.keeps_lift _).bind fun t => Keeps.bind (keeps_working (by exact fun _ => ⟨rfl, rfl, rfl⟩)) fun _ => ?_
  refine Keeps.getState.bind fun s => ?_
  split
  · exact .pure _
  · intro u q hu
    refine he.leads_fault (.initialPoint s.f) ?_ hu (Keeps.pure _)
    by_cases h : 0 < k.inequalities <;> simp [h]

omit hk in
theorem keeps_initialGradient : Keeps (k.hooks.HeedfulAt 0 0) (initialGradient k) := by
  have he := heedful_enduring k.hooks 0 0
  unfold initialGradient
  refine Keeps.getState.bind fun s => ?_
  extract_lets updateY grade
  have hgo : Keeps (k.hooks.HeedfulAt 0 0) (grade ()) := by
    refine (he.keeps_updateGradient k updateY fun _ _ _ => heedful_sameButGradient).bind fun o => ?_
    split
    case h_1 e => exact (he.keeps_stepFailure k (.initialGradient e)).bind fun _ => .pure _
    case h_2 => exact Keeps.bind (keeps_working (by exact fun _ => ⟨rfl, rfl, rfl⟩)) fun _ => .pure _
  split
  · exact Keeps.bind (keeps_working (by exact fun _ => ⟨rfl, rfl, rfl⟩)) fun _ => hgo
  · exact hgo

/-- The opening forgets what was requested at the first hook point, and nothing else. -/
theorem leads_opening :
    leads (opening k) (fun _ => k.hooks.HeedfulAt 0 0) (fun e t q => k.hooks.Heedful 1 t q ∧ Told e q) s [] := by
  have hfirst : ∀ loc u, Event.visit loc u ∈ ([.note (.record .info ["----- Initializing"])] ++
      [.note (.record .trace [.text (Registry.text Location.beginningOfOptimization)])] ++
      [.visit .beginningOfOptimization s] : List (Event F)) → loc = .beginningOfOptimization := by
    intro loc u hu
    have h : loc = .beginningOfOptimization ∧ u = s := by simpa using hu
    exact h.1
  have hcheck := enduring_first.keeps_check k (k.hooks.manipulate .beginningOfOptimization s) _ hfirst
  unfold opening
  refine leads_bind (leads_log (leads_bind (leads_visit (leads_bind (leads_mono hcheck ?_ ?_)))))
  · intro _ t q ht
    refine leads_bind (leads_update (leads_bind (leads_mono (leads_initialDiagnostics ⟨.first ht, rfl⟩) ?_
      fun _ _ _ h => h)))
    intro _ t q ht
    refine leads_bind (leads_stopped ?_)
    split
    · exact leads_pure ht
    · refine leads_bind (leads_thrifty (keeps_initialEvaluation hk) ht fun go t q ht => ?_)
      split
      · exact leads_pure ht
      · exact leads_thrifty keeps_initialGradient ht fun _ t q ht => ht
  · exact fun e t q h => ⟨.first h.1, h.2⟩

theorem leads_whole :
    leads (whole k) (fun stop t q => k.hooks.Heedful 1 t q ∧ stop = t.stop)
      (fun e t q => k.hooks.Heedful 1 t q ∧ Told e q) s [] := by
  unfold whole
  refine leads_bind (leads_mono (leads_opening hk) ?_ fun _ _ _ h => h)
  intro go t q ht
  split
  · unfold optimize
    refine leads_bind (leads_thrifty (keeps_hook hk .afterInitialFuncAndGrad nofun nofun) ht fun _ t q ht => ?_)
    exact leads_loop hk ht
  · exact leads_finish hk (ht.1.mono (Nat.zero_le 1))

end Running

/-! ### Runs -/

/-- A run has more passes than its iterations can use. -/
theorem Problem.solve_ends [Scalar F] (p : Problem F) {hooks : Hooks F} (hk : hooks.StopOnly) (par : Parameters F)
    (s₀ : State F) : (p.solve par hooks s₀).result ≠ .error .outOfFuel := by
  intro h
  exact ((solve_leads (Running.leads_whole hk)).2 _ h).2.elim

/-- A request made anywhere but at the first hook point is heeded: the iterate changes at most once more, or one
more iteration begins and ends at once, and the run answers the request unless a part of it fails and says so. -/
theorem Problem.solve_heeds [Scalar F] (p : Problem F) {hooks : Hooks F} (hk : hooks.StopOnly) (par : Parameters F)
    (s₀ : State F) {pre post : List (Event F)} {loc : Location} {u : State F}
    (hevents : (p.solve par hooks s₀).events.toList = pre ++ .visit loc u :: post)
    (hloc : loc ≠ .beginningOfOptimization) (hreq : hooks.Requests loc u) :
    (∃ moves heads, moves + heads ≤ 1 ∧ Heeded moves heads u (p.solve par hooks s₀).state post) ∧
    ((p.solve par hooks s₀).result = .ok .userDefined ∨
      ((∃ e ∈ post, e.IsFault) ∧ ((p.solve par hooks s₀).result = .ok .globalizationFailure ∨
        (p.solve par hooks s₀).result = .ok .interiorPointInstability ∨
        ∃ f, (p.solve par hooks s₀).result = .error (.failure f))) ∨
      ∃ q, (p.solve par hooks s₀).result = .error (.panic q)) := by
  let k : Setup F := ⟨par, p, hooks, s₀.x.length⟩
  have hsolve : p.solve par hooks s₀ = ⟨((Running.whole k).run ⟨s₀, #[]⟩).1,
      ((Running.whole k).run ⟨s₀, #[]⟩).2.state, ((Running.whole k).run ⟨s₀, #[]⟩).2.events⟩ := rfl
  obtain ⟨es, hes, hok, herror⟩ := Running.leads_run (Running.leads_whole (k := k) (s := s₀) hk) #[]
  rw [hsolve] at hevents ⊢
  generalize (Running.whole k).run ⟨s₀, #[]⟩ = r at hevents hes hok herror
  have hes : es = pre ++ .visit loc u :: post := by
    rw [← hevents, hes]
    rfl
  rcases hr : r.1 with e | stop
  · obtain ⟨hheedful, htold⟩ := herror e hr
    obtain ⟨m, n, hmn, hh⟩ := hheedful pre loc u post hes hloc hreq
    refine ⟨⟨m, n, hmn, hh⟩, ?_⟩
    cases e with
    | panic q => exact .inr (.inr ⟨q, rfl⟩)
    | outOfFuel => exact htold.elim
    | failure f =>
      obtain ⟨before, f', hlast⟩ := htold
      refine .inr (.inl ⟨⟨.note (.failure f'), ?_, trivial⟩, .inr (.inr ⟨f, rfl⟩)⟩)
      rcases List.eq_nil_or_concat post with rfl | ⟨post, e, rfl⟩
      · rw [hes] at hlast
        cases List.singleton_inj.mp (List.append_inj' hlast rfl).2
      · rw [hes, List.concat_eq_append, ← List.cons_append, ← List.append_assoc] at hlast
        have he := List.singleton_inj.mp (List.append_inj' hlast rfl).2
        simp [he]
  · obtain ⟨hheedful, rfl⟩ := hok stop hr
    obtain ⟨m, n, hmn, hh⟩ := hheedful pre loc u post hes hloc hreq
    refine ⟨⟨m, n, hmn, hh⟩, ?_⟩
    rcases hh.stop with hstop | ⟨hfault, hstop | hstop⟩
    · exact .inl (by rw [hstop])
    · exact .inr (.inl ⟨hfault, .inl (by rw [hstop])⟩)
    · exact .inr (.inl ⟨hfault, .inr (.inl (by rw [hstop]))⟩)

/-- A manipulator that requests a stop whenever it comes to a hook point. -/
def Hooks.stopping (loc : Location) : Hooks F := .ofRules [⟨loc, none, none, fun s => { s with stop := .userDefined }⟩]

theorem Hooks.stopping_manipulate (loc loc' : Location) (s : State F) :
    (stopping loc).manipulate loc' s = if loc = loc' then { s with stop := .userDefined } else s := by
  by_cases h : loc = loc' <;> simp [stopping, ofRules, Rule.applyAll, Rule.apply, Rule.fires, h]

theorem Hooks.stopping_stopOnly (loc : Location) : (stopping (F := F) loc).StopOnly where
  atGetStep s := by
    refine ⟨s.dx, ?_⟩
    rw [stopping_manipulate]
    by_cases h : loc = .getStep <;> simp [h]
  elsewhere loc' s _ := by
    rw [stopping_manipulate]
    by_cases h : loc = loc' <;> simp [h]

/-- The least square of a number. -/
def Problem.leastSquare : Problem Float where
  objective := .polynomial [⟨1, [2]⟩]
  equality := none
  inequality := none
  preconditioner := none

def Problem.stoppedAt (loc : Location) : Solution Float :=
  leastSquare.solve { Parameters.default with hessian := .userDefined } (.stopping loc) (.new [1])

theorem Problem.solve_heeds_beforeStep :
    (Hooks.stopping (F := Float) .beforeStep).StopOnly ∧ ∃ pre u post,
      (stoppedAt .beforeStep).events.toList = pre ++ .visit .beforeStep u :: post ∧
      (Hooks.stopping .beforeStep).Requests .beforeStep u ∧
      (∃ moves heads, moves + heads ≤ 1 ∧ Heeded moves heads u (stoppedAt .beforeStep).state post) ∧
      (stoppedAt .beforeStep).result = .ok .userDefined := by
  have hk : (Hooks.stopping (F := Float) .beforeStep).StopOnly := Hooks.stopping_stopOnly _
  have hvisit : (stoppedAt .beforeStep).events.toList.any (Event.isAt .beforeStep) = true := by decide +kernel
  have hresult : (stoppedAt .beforeStep).result.toOption = some .userDefined := by decide +kernel
  obtain ⟨e, he, hloc⟩ := List.any_eq_true.mp hvisit
  cases e with
  | note | trial => cases hloc
  | visit loc u =>
    obtain rfl := Event.isAt_visit.mp hloc
    obtain ⟨pre, post, hevents⟩ := List.append_of_mem he
    have hreq : (Hooks.stopping .beforeStep).Requests .beforeStep u := by
      unfold Hooks.Requests
      rw [Hooks.stopping_manipulate, if_pos rfl]
    have hloc : Location.beforeStep ≠ .beginningOfOptimization := by decide
    refine ⟨hk, pre, u, post, hevents, hreq, ?_, ?_⟩
    · unfold stoppedAt at hevents ⊢
      exact (leastSquare.solve_heeds hk _ _ hevents hloc hreq).1
    · cases hr : (stoppedAt .beforeStep).result <;> simp_all [Except.toOption]

/-- A request at the first hook point is lost: the run goes on, moves and converges. -/
theorem Problem.solve_forgets_first_request :
    (Hooks.stopping (F := Float) .beginningOfOptimization).StopOnly ∧
    (∃ u, .visit .beginningOfOptimization u ∈ (stoppedAt .beginningOfOptimization).events.toList ∧
      (Hooks.stopping .beginningOfOptimization).Requests .beginningOfOptimization u) ∧
    (stoppedAt .beginningOfOptimization).state.iter = 1 ∧
    (stoppedAt .beginningOfOptimization).result = .ok .gradientSmall := by
  have hvisit : (stoppedAt .beginningOfOptimization).events.toList.any (Event.isAt .beginningOfOptimization) = true := by
    decide +kernel
  have hresult : (stoppedAt .beginningOfOptimization).result.toOption = some .gradientSmall := by decide +kernel
  obtain ⟨e, he, hloc⟩ := List.any_eq_true.mp hvisit
  cases e with
  | note | trial => cases hloc
  | visit loc u =>
    obtain rfl := Event.isAt_visit.mp hloc
    refine ⟨Hooks.stopping_stopOnly _, ⟨u, he, ?_⟩, by decide +kernel, ?_⟩
    · unfold Hooks.Requests
      rw [Hooks.stopping_manipulate, if_pos rfl]
    · cases hr : (stoppedAt .beginningOfOptimization).result <;> simp_all [Except.toOption]

end ConstrainedOpt
