import ConstrainedOpt.Proofs.Run.Effects
import ConstrainedOpt.Proofs.Vec.Length

/-! # The gradient of a state

The gradient the parts of a run compute is the one the formula of the barrier Lagrangian gives, and it has as
many components as the iterate.
-/
namespace ConstrainedOpt
variable {F : Type} [Scalar F]

omit [Scalar F] in
/-- The gradient fills the vector it is asked for. -/
def Objective.Sized (o : Objective F) : Prop := ∀ x n v, o.gradient x n = .ok v → v.length = n

/-- `∇f x - μ h' xᵀ (1 / h)`, the slack `h` being given. -/
def Problem.barrierGradient (p : Problem F) (x h : Vec F) (μ : F) : Checked (Vec F) := do
  let out ← p.objective.gradient x x.length
  match p.inequality with
  | none => return out
  | some c =>
      let w ← c.adjoint x (Vec.quotient h (Vec.ones h.length)) x.length
      Checked.axpby (-μ) w 1 out

/-- `∇f x - μ h' xᵀ (1 / h x) + g' xᵀ y`, all of it computed from `x`, `y` and `μ`. -/
def Problem.lagrangianGradient (p : Problem F) (x y : Vec F) (μ : F) : Checked (Vec F) := do
  let t ← p.evaluate x
  let φ ← p.barrierGradient x t.h μ
  match p.equality with
  | none => return φ
  | some c =>
      let w ← c.adjoint x y x.length
      Checked.axpby 1 w 1 φ

namespace Barrier
open Journaled
variable {p : Problem F} {x : Vec F} {μ : F}

theorem applyTransposed_ensures (c : Constraint F) {a : F} {u v : Vec F} (hv : v.length = x.length) :
    ((c.jacobian x).applyTransposed a u 1 v).Ensures fun w =>
      (do Checked.axpby a (← c.adjoint x u x.length) 1 v : Checked (Vec F)) = .ok w ∧ w.length = x.length := by
  refine ensures_bind (ensures_lift fun w hw => (hv ▸ hw : c.adjoint x u x.length = .ok w)) fun w hw => ?_
  refine ensures_lift fun z hz => ⟨?_, (Checked.axpby_length hz).trans hv⟩
  exact Checked.bind_eq_ok.mpr ⟨w, hw, hz⟩

theorem gradient_ensures (hp : p.objective.Sized) (h : Vec F) :
    (gradient p x h μ x.length).Ensures fun φ => p.barrierGradient x h μ = .ok φ ∧ φ.length = x.length := by
  unfold gradient Problem.barrierGradient
  refine ensures_bind (ensures_lift fun out hout => hout) fun out hout => ?_
  have hlen := hp x _ out hout
  cases p.inequality with
  | none => exact ensures_pure ⟨Checked.bind_eq_ok.mpr ⟨out, hout, rfl⟩, hlen⟩
  | some c =>
    refine ensures_bind (ensures_lift fun w hw => (Checked.quotient_eq_ok.mp hw).2) ?_
    rintro _ rfl
    refine (applyTransposed_ensures c hlen).mono fun φ hφ => ⟨?_, hφ.2⟩
    exact Checked.bind_eq_ok.mpr ⟨out, hout, hφ.1⟩

theorem lagrangianGradient_length (hp : p.objective.Sized) {par : NormalParam F} {updateY : Bool} (h y : Vec F) :
    (lagrangianGradient p par updateY x h y μ x.length).Ensures fun r => r.2.2 = .ok () →
      r.2.1.length = x.length := by
  unfold lagrangianGradient
  refine ensures_bind (gradient_ensures hp h) ?_
  rintro φ ⟨-, hlen⟩
  cases p.equality with
  | none => exact ensures_pure fun _ => hlen
  | some c =>
    refine ensures_bind (ensures_true _) ?_
    rintro ⟨y, _ | ⟨⟨⟩⟩⟩ -
    · exact ensures_pure nofun
    · exact ensures_bind (applyTransposed_ensures c hlen) fun grad hgrad => ensures_pure fun _ => hgrad.2

/-- A gradient computed without a fault is the one the formula gives at the new multipliers. -/
theorem lagrangianGradient_ensures (hp : p.objective.Sized) {par : NormalParam F} {updateY : Bool}
    {t : Trial F} (ht : p.evaluate x = .ok t) (y : Vec F) :
    (lagrangianGradient p par updateY x t.h y μ x.length).Ensures fun r => r.2.2 = .ok () →
      p.lagrangianGradient x r.1 μ = .ok r.2.1 ∧ r.2.1.length = x.length := by
  unfold lagrangianGradient Problem.lagrangianGradient
  refine ensures_bind (gradient_ensures hp t.h) ?_
  rintro φ ⟨hφ, hlen⟩
  cases p.equality with
  | none =>
    refine ensures_pure fun _ => ⟨Checked.bind_eq_ok.mpr ⟨t, ht, ?_⟩, hlen⟩
    exact Checked.bind_eq_ok.mpr ⟨φ, hφ, rfl⟩
  | some c =>
    refine ensures_bind (ensures_true _) ?_
    rintro ⟨y, _ | ⟨⟨⟩⟩⟩ -
    · exact ensures_pure nofun
    · refine ensures_bind (applyTransposed_ensures c hlen) fun grad hgrad => ensures_pure fun _ => ⟨?_, hgrad.2⟩
      exact Checked.bind_eq_ok.mpr ⟨t, ht, Checked.bind_eq_ok.mpr ⟨φ, hφ, hgrad.1⟩⟩

end Barrier

/-- A sound gradient is that of the barrier Lagrangian at the iterate, if the function values are its own. -/
theorem Setup.Graded.gradient {k : Setup F} {s : State F} (hp : k.problem.objective.Sized)
    (hvalues : k.problem.evaluate s.x = .ok ⟨s.x, s.f, s.g, s.h⟩) (hlen : s.grad.length = s.x.length) {updateY : Bool}
    {y grad : Vec F} (hg : k.Graded updateY s y grad) :
    k.problem.lagrangianGradient s.x y s.mu = .ok grad ∧ grad.length = s.x.length := by
  have hanswer := hg.1
  rw [hlen] at hanswer
  exact (Barrier.lagrangianGradient_ensures hp hvalues s.y).answer hanswer rfl

end ConstrainedOpt
