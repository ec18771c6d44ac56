import ConstrainedOpt.Scalar.Binary64
import ConstrainedOpt.Proofs.History.Steps
import ConstrainedOpt.Problem.Polynomial

/-! # Steps that are not taken

A step that is rejected leaves the kept part of the state as it was when the step began, and so does a step that
ends without an accepted point, however it ends and however often it was rejected before.
-/
namespace ConstrainedOpt
variable {F : Type}

namespace Running

/-- So far the step has accepted no point, and the kept part `c` of the state is what it has always been. -/
def Untouched (c : Kept F) (s : State F) (p : List (Event F)) : Prop :=
  s.kept = c ∧ ∀ loc u, .visit loc u ∈ p → loc.OnStep ∧ u.kept = c

/-- The step has accepted a point, and the kept part of the state was `c` until then. -/
def Touched (c : Kept F) (p : List (Event F)) : Prop :=
  ∃ before u after, p = before ++ .visit .afterStepBeforeGradient u :: after ∧
    (∀ loc v, .visit loc v ∈ before → loc.OnStep ∧ v.kept = c) ∧ ∀ loc v, .visit loc v ∈ after → ¬ loc.OnStep

variable {k : Setup F} {c : Kept F} {s t : State F} {p : List (Event F)}

theorem Untouched.extend (h : Untouched c s p) (ht : t.kept = c) {es : List (Event F)}
    (hes : ∀ loc u, .visit loc u ∈ es → loc.OnStep ∧ u.kept = c) : Untouched c t (p ++ es) := by
  refine ⟨ht, fun loc u hu => ?_⟩
  rcases List.mem_append.mp hu with hu | hu
  · exact h.2 loc u hu
  · exact hes loc u hu

theorem Touched.extend (h : Touched c p) {es : List (Event F)} (hes : ∀ loc v, .visit loc v ∈ es → ¬ loc.OnStep) :
    Touched c (p ++ es) := by
  obtain ⟨before, u, after, rfl, hbefore, hafter⟩ := h
  refine ⟨before, u, after ++ es, by simp, hbefore, fun loc v hv => ?_⟩
  rcases List.mem_append.mp hv with hv | hv
  · exact hafter loc v hv
  · exact hes loc v hv

/-- What a step has touched no part of the run can untouch. -/
theorem enduring_touched (c : Kept F) : Enduring fun (_ : State F) p => Touched c p where
  noted _ _ n h := h.extend (by simp)
  faulted _ _ level m _ _ _ h := h.extend (by simp)

variable [Scalar F]

theorem untouched_course (hk : k.hooks.StepOnly) (hkept : ∀ loc s, (k.hooks.manipulate loc s).kept = s.kept) :
    StepCourse k (Untouched c) (fun s p => Untouched c s p ∨ Touched c p) fun s p => Untouched c s p ∨ Touched c p where
  noted s p n h := h.extend h.1 (by simp)
  faulted s p level m stop _ _ h := h.extend h.1 (by simp)
  rejected loc s := by
    obtain ⟨dx, hdx⟩ := hk.writes loc s
    rw [hdx]
  tried s p u t h := h.extend h.1 (by simp)
  visited loc s p hloc h := by
    refine h.extend ((hkept loc s).trans h.1) fun loc' u hu => ?_
    obtain ⟨rfl, rfl⟩ := Event.visit.inj (List.mem_singleton.mp hu)
    exact ⟨hloc, h.1⟩
  worked s t p hkept _ h := ⟨hkept.trans h.1, h.2⟩
  accepted t s p h := by
    refine leads_mono ((enduring_touched c).leads_accept ?_ ?_ ?_) ?_ ?_
    · exact fun _ _ _ _ h => h
    · exact fun _ _ h => h.extend (by simp [Location.OnStep])
    · intro n
      refine ⟨p ++ [.note n], s.moveTo t, [], rfl, ?_, by simp⟩
      simpa using h.2
    · exact fun _ _ _ h => .inr h
    · exact fun _ _ _ h => ⟨.inr h.1, h.2⟩
  done s p h := .inl h
  halted s p h := .inl h

/-- Every rejection of a step, and every end of a step that accepts no point, leaves the kept part of the state as
it was when the step began. -/
theorem takeStep_intact (hk : k.hooks.StepOnly) (s : State F) (events : Array (Event F)) :
    ∃ es, ((takeStep k).run ⟨s, events⟩).2.events.toList = events.toList ++ es ∧
      (∀ loc u, loc.OnStep → .visit loc u ∈ es → u.kept = s.kept) ∧
      ((∀ u, .visit .afterStepBeforeGradient u ∉ es) → ((takeStep k).run ⟨s, events⟩).2.state.kept = s.kept) := by
  have hkept : ∀ loc s, (k.hooks.manipulate loc s).kept = s.kept := by
    intro loc s
    obtain ⟨dx, hdx⟩ := hk.writes loc s
    rw [hdx]
    rfl
  have hstart : Untouched s.kept s [] := ⟨rfl, by simp⟩
  obtain ⟨es, hes, hok, herror⟩ := leads_run ((untouched_course hk hkept).takeStep_leads hstart) events
  have hend : Untouched s.kept ((takeStep k).run ⟨s, events⟩).2.state es ∨ Touched s.kept es := by
    cases hr : ((takeStep k).run ⟨s, events⟩).1 with
    | ok a => exact hok a hr
    | error e => exact (herror e hr).1
  refine ⟨es, hes, ?_, ?_⟩
  · intro loc u hloc hu
    rcases hend with h | ⟨before, v, after, rfl, hbefore, hafter⟩
    · exact (h.2 loc u hu).2
    · rcases List.mem_append.mp hu with hu | hu
      · exact (hbefore loc u hu).2
      rcases List.mem_cons.mp hu with hu | hu
      · obtain ⟨rfl, -⟩ := Event.visit.inj hu
        exact absurd hloc id
      · exact absurd hloc (hafter loc u hu)
  · intro hnone
    rcases hend with h | ⟨before, v, after, rfl, -, -⟩
    · exact h.1
    · exact absurd (by simp) (hnone v)

/-- The least square, and a state that takes its objective for less than it is anywhere. -/
def leastSquare : Setup Float where
  par := { Parameters.default with rejectedMax := 1 }
  problem := ⟨.polynomial [⟨1, [2]⟩], none, none, none⟩
  hooks := .passive
  n := 1

def belowLeastSquare : State Float := { State.new [1] with f := -1, grad := [2], normGrad := 2 }

theorem takeStep_intact_leastSquare :
    let r := (takeStep leastSquare).run ⟨belowLeastSquare, #[]⟩
    leastSquare.hooks.StepOnly ∧ r.2.state.stop = .globalizationFailure ∧ r.2.state.rejected = 1 ∧
      (∀ loc u, loc.OnStep → .visit loc u ∈ r.2.events.toList → u.kept = belowLeastSquare.kept) ∧
      r.2.state.kept = belowLeastSquare.kept := by
  have hk : leastSquare.hooks.StepOnly := Hooks.Observing.stepOnly fun _ _ => rfl
  have hnone : (((takeStep leastSquare).run ⟨belowLeastSquare, #[]⟩).2.events.toList.all fun e =>
      !e.isAt .afterStepBeforeGradient) = true := by decide +kernel
  obtain ⟨es, hes, honStep, hkept⟩ := takeStep_intact hk belowLeastSquare #[]
  rw [List.nil_append] at hes
  rw [hes] at hnone
  refine ⟨hk, by decide +kernel, by decide +kernel, ?_, ?_⟩
  · rw [hes]
    exact honStep
  · refine hkept fun u hu => ?_
    have hat := List.all_eq_true.mp hnone _ hu
    rw [Event.isAt_visit.mpr rfl] at hat
    cases hat

end Running
end ConstrainedOpt
