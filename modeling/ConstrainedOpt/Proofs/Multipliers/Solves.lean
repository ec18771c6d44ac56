import ConstrainedOpt.Barrier
import ConstrainedOpt.Proofs.Assertion.Journaled
import ConstrainedOpt.Proofs.Vec.Length

/-! # Failed multiplier solves

A solve of the normal equations works in the vector it is given. One that fails for a value that is not finite leaves there
the zeros it begins with, the approximation it has come to, or a solution that is not finite itself: nothing of what the
vector held before.
-/
namespace ConstrainedOpt
variable {F : Type}

namespace Journaled
variable {α β : Type}

theorem run_bind_eq_ok {c : Journaled F α} {f : α → Journaled F β} {b : β} {notes rest : Array (Note F)} :
    (c >>= f).run notes = (.ok b, rest) ↔ ∃ a mid, c.run notes = (.ok a, mid) ∧ (f a).run mid = (.ok b, rest) := by
  rw [run_bind]
  constructor
  · intro h
    rcases hc : c.run notes with ⟨e | a, mid⟩
    · rw [hc] at h
      cases h
    · rw [hc] at h
      exact ⟨a, mid, rfl, h⟩
  · rintro ⟨a, mid, hc, h⟩
    rw [hc]
    exact h

end Journaled

variable [Scalar F]
open Journaled

namespace NormalEquations
variable {par : NormalParam F} {A : Operator F} {b v w : Vec F} {i : Nat} {s : Iterate F}

/-- The iterates a solve may come to, with the number of passes made. -/
inductive Reaches (par : NormalParam F) (A : Operator F) (b : Vec F) : Nat → Iterate F → Prop
  | start : Reaches par A b 0 ⟨Vec.zeros A.rows, b, b, Vec.inner b b⟩
  | next {i : Nat} {s t : Iterate F} (hs : Reaches par A b i s)
      (hpass : (pass par A (Scalar.sqrt (Vec.inner b b)) (i + 1) s).Returns (.next t)) : Reaches par A b (i + 1) t

/-- Where a solve meets a value that is not finite, and the vector it leaves. -/
inductive Breaks (par : NormalParam F) (A : Operator F) (b : Vec F) : Vec F → Prop
  | rightHandSide (h : Scalar.isFinite (Scalar.sqrt (Vec.inner b b)) = false) : Breaks par A b (Vec.zeros A.rows)
  | curvature {i : Nat} {s : Iterate F} {t : Vec F} (hs : Reaches par A b i s)
      (ht : (A.applyTransposed 1 s.p 0 (Vec.zeros A.cols)).Returns t) (h : Scalar.isFinite (Vec.inner t t) = false) :
      Breaks par A b s.w
  | solution {w : Vec F} (h : Vec.isFinite w = false) : Breaks par A b w

theorem finish_breaks (h : (finish i w).outcome = .error .numericalInstability) : Breaks par A b (finish i w).vector := by
  unfold finish at h ⊢
  split at h
  case isTrue => cases h
  case isFalse hfinite => exact .solution (by simpa using hfinite)

/-- A pass fails only at a curvature that is not finite, and leaves the solution as it was. -/
theorem pass_breaks (hs : Reaches par A b i s) (normB : F) (j : Nat) :
    (pass par A normB j s).Ensures fun out => ∀ w, out = .failed w → Breaks par A b w := by
  unfold pass
  refine ensures_bind (ensures_returns _) fun t ht => ensures_bind (ensures_true _) fun q _ => ?_
  dsimp only
  split
  case isTrue hinfinite =>
    refine ensures_pure ?_
    rintro _ ⟨⟩
    exact .curvature hs ht (by simpa using hinfinite)
  case isFalse =>
    split
    · exact ensures_bind (ensures_true _) fun _ _ => ensures_pure nofun
    · refine ensures_bind (ensures_true _) fun w _ => ensures_bind (ensures_true _) fun r _ =>
        ensures_bind (ensures_true _) fun _ _ => ?_
      split
      · exact ensures_pure nofun
      · exact ensures_bind (ensures_true _) fun p _ => ensures_pure nofun

theorem iterate_breaks (budget : Nat) (hs : Reaches par A b i s) :
    (iterate par A (Scalar.sqrt (Vec.inner b b)) budget i s).Ensures fun out =>
      out.outcome = .error .numericalInstability → Breaks par A b out.vector := by
  induction budget generalizing i s with
  | zero => exact ensures_pure finish_breaks
  | succ budget ih =>
    refine ensures_bind ((ensures_returns _).and (pass_breaks hs _ _)) ?_
    rintro (t | w | w) ⟨hreturns, hfails⟩
    · exact ih (hs.next hreturns)
    · exact ensures_pure finish_breaks
    · exact ensures_pure fun _ => hfails w rfl

/-- What a solve leaves that fails for a value that is not finite. -/
theorem solve_breaks (b w : Vec F) (work : Nat) : (solve par A b w work).Ensures fun out =>
    out.outcome = .error .numericalInstability → Breaks par A b out.vector := by
  unfold solve
  split
  · exact ensures_bind (ensures_true _) fun _ _ => ensures_pure nofun
  case isFalse hlen =>
    have hzeros : Vec.zerosLike w = Vec.zeros A.rows := congrArg Vec.zeros (Classical.not_not.mp (not_or.mp hlen).2)
    split
    · exact ensures_bind (ensures_true _) fun _ _ => ensures_pure nofun
    · dsimp only
      rw [hzeros]
      split
      case isTrue hinfinite => exact ensures_pure fun _ => .rightHandSide (by simpa using hinfinite)
      case isFalse =>
        split
        · exact ensures_pure nofun
        · exact iterate_breaks _ .start

/-- A solve that fails so does not depend on the vector it works in. -/
theorem solve_forgets {work : Nat} {u : Vec F} {notes rest : Array (Note F)} (hlen : v.length = w.length)
    (h : (solve par A b w work).run notes = (.ok ⟨u, .error .numericalInstability⟩, rest)) :
    (solve par A b v work).run notes = (.ok ⟨u, .error .numericalInstability⟩, rest) := by
  have hzeros : (Vec.zerosLike v : Vec F) = Vec.zerosLike w := congrArg Vec.zeros hlen
  unfold solve at h ⊢
  rw [hlen, hzeros]
  split at h
  · cases h
  case isFalse hfits =>
    rw [if_neg hfits]
    split at h
    · cases h
    case isFalse hroom =>
      rw [if_neg hroom]
      exact h

end NormalEquations
namespace Barrier
variable {p : Problem F} {par : NormalParam F} {x h y v : Vec F} {μ : F} {size : Nat}

/-- The multiplier solve at `x`, where the gradient of the barrier objective is `φ`, meets a value that is not finite and
leaves `w`. -/
def Breaks (p : Problem F) (par : NormalParam F) (x φ w : Vec F) : Prop :=
  ∃ c b, p.equality = some c ∧ ((c.jacobian x).apply (-1) φ 0 (Vec.zeros c.rows)).Returns b ∧
    NormalEquations.Breaks par (c.jacobian x) b w

theorem lagrangianGradient_breaks (updateY : Bool) : (lagrangianGradient p par updateY x h y μ size).Ensures fun out =>
    out.2.2 = .error .numericalInstability → Breaks p par x out.2.1 out.1 := by
  have hmultipliers : ∀ φ c, p.equality = some c → (multipliers p par x φ y).Ensures fun out =>
      out.2 = .error .numericalInstability → Breaks p par x φ out.1 := by
    intro φ c hc
    unfold multipliers
    rw [hc]
    refine ensures_bind (ensures_returns _) fun b hb => ensures_bind (NormalEquations.solve_breaks b y _) fun s hs => ?_
    refine ensures_pure fun hfails => ⟨c, b, hc, hb, hs ?_⟩
    cases ho : s.outcome with
    | ok => simp [ho, Except.map] at hfails
    | error e => simpa [ho, Except.map] using hfails
  unfold lagrangianGradient
  refine ensures_bind (ensures_true _) fun φ _ => ?_
  split
  case h_1 => exact ensures_pure nofun
  case h_2 c hc =>
    dsimp only
    refine ensures_bind (P := fun out => out.2 = .error .numericalInstability → Breaks p par x φ out.1) ?_ ?_
    · split
      · exact hmultipliers φ c hc
      · exact ensures_pure nofun
    · rintro ⟨w, _ | _⟩ hw
      · exact ensures_pure hw
      · exact ensures_bind (ensures_true _) fun _ _ => ensures_pure nofun

/-- A multiplier solve that fails so does not depend on the multipliers held before. -/
theorem multipliers_forgets {φ w : Vec F} {notes rest : Array (Note F)} (hlen : v.length = y.length)
    (hfails : (multipliers p par x φ y).run notes = (.ok (w, .error .numericalInstability), rest)) :
    (multipliers p par x φ v).run notes = (.ok (w, .error .numericalInstability), rest) := by
  unfold multipliers at hfails ⊢
  split at hfails
  · cases hfails
  · obtain ⟨b, mid, hb, hfails⟩ := run_bind_eq_ok.mp hfails
    obtain ⟨⟨u, outcome⟩, last, hsolve, hfails⟩ := run_bind_eq_ok.mp hfails
    rcases outcome with e | i
    · cases hfails
      exact run_bind_eq_ok.mpr ⟨b, mid, hb, run_bind_eq_ok.mpr ⟨_, rest, NormalEquations.solve_forgets hlen hsolve, rfl⟩⟩
    · cases hfails

theorem lagrangianGradient_forgets {w φ : Vec F} {notes rest : Array (Note F)} (hlen : v.length = y.length)
    (hfails : (lagrangianGradient p par true x h y μ size).run notes =
      (.ok (w, φ, .error .numericalInstability), rest)) :
    (lagrangianGradient p par true x h v μ size).run notes = (.ok (w, φ, .error .numericalInstability), rest) := by
  unfold lagrangianGradient at hfails ⊢
  obtain ⟨φ', mid, hφ, hfails⟩ := run_bind_eq_ok.mp hfails
  refine run_bind_eq_ok.mpr ⟨φ', mid, hφ, ?_⟩
  split at hfails
  · cases hfails
  · obtain ⟨⟨u, outcome⟩, last, hsolve, hfails⟩ := run_bind_eq_ok.mp hfails
    rcases outcome with e | ⟨⟨⟩⟩
    · cases hfails
      exact run_bind_eq_ok.mpr ⟨_, rest, multipliers_forgets hlen hsolve, rfl⟩
    · obtain ⟨z, _, -, hfails⟩ := run_bind_eq_ok.mp hfails
      cases hfails

end Barrier
end ConstrainedOpt
