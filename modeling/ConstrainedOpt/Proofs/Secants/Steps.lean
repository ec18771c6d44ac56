import ConstrainedOpt.Proofs.Run.Opening
import ConstrainedOpt.Proofs.Run.Step
import ConstrainedOpt.Proofs.Secants.Pairs

/-! # Steps between iterates

Between two steps a state has the gradient of the barrier Lagrangian at its own iterate. A step of any driver that goes on
shows how it has moved the iterate; what was remembered before it, the barrier parameter and the history are as they were.
-/
namespace ConstrainedOpt
open Exact Running
variable {ε : Set.Ioi (0 : ℝ)} {n : ℕ} {k : Setup (Exact ε)} {s t : State (Exact ε)}

/-- A gradient is due at the iterate. -/
structure Setup.Landing (k : Setup (Exact ε)) (n : ℕ) (s : State (Exact ε)) : Prop where
  values : k.problem.evaluate s.x = .ok ⟨s.x, s.f, s.g, s.h⟩
  length : s.x.length = n
  size : s.grad.length = n

/-- A state between two steps, with the gradient at its iterate. -/
structure Setup.Standing (k : Setup (Exact ε)) (n : ℕ) (s : State (Exact ε)) : Prop extends k.Landing n s where
  gradient : ∃ a : Euclidean n, s.grad = vec a ∧ k.problem.lagrangianGradient s.x s.y s.mu = .ok (vec a)

/-- A step has led from the state `s` to the state `t`. -/
structure Setup.Moved (k : Setup (Exact ε)) (n : ℕ) (s t : State (Exact ε)) : Prop where
  standing : k.Standing n t
  multipliers : ∀ c, k.problem.equality = some c → ∃ u : Euclidean c.rows, t.y = vec u
  dx : ∀ x z : Euclidean n, s.x = vec x → t.x = vec z → t.dx = vec (z - x)
  mu : t.mu = s.mu
  xOld : t.xOld = s.xOld
  gradOld : t.gradOld = s.gradOld
  history : t.history = s.history

theorem Setup.Landing.graded (hp : k.problem.objective.Sized) (hs : k.Landing n s) {updateY : Bool}
    {y grad : Vec (Exact ε)} (hg : k.Graded updateY s y grad) : k.Standing n (s.graded y grad) := by
  obtain ⟨a, rfl⟩ := hg.real hp hs.length hs.size
  have hgradient := (hg.gradient hp hs.values (hs.size.trans hs.length.symm)).1
  exact ⟨⟨hs.values, hs.length, length_vec⟩, a, rfl, hgradient⟩

theorem Setup.Standing.lowered (hp : k.problem.objective.Sized) (hs : k.Standing n s) (ht : Lowered k s t)
    (hrunning : t.stop = .notConverged) : k.Standing n t := by
  rcases ht with rfl | ⟨-, ht⟩
  · exact hs
  · have hlanding : k.Landing n (s.lowered k.par) := ⟨hs.values, hs.length, hs.size⟩
    obtain ⟨y, grad, hg, rfl⟩ := ht.sound_of_running hrunning
    exact hlanding.graded hp hg

/-- Reducing the barrier parameter leaves the iterate and the history alone. -/
theorem Running.Lowered.same (ht : Lowered k s t) (hrunning : t.stop = .notConverged) : t.x = s.x ∧ t.history = s.history := by
  rcases ht with rfl | ⟨-, ht⟩
  · exact ⟨rfl, rfl⟩
  · obtain ⟨y, grad, -, rfl⟩ := ht.sound_of_running hrunning
    exact ⟨rfl, rfl⟩

/-- The gradient that is remembered before a step is that of the barrier objective. -/
theorem Setup.Standing.gradOld (hs : k.Standing n s) {v : Vec (Exact ε)}
    (hv : WithoutMultipliers k s.x s.y s.grad v) {x : Euclidean n} (hx : s.x = vec x) : ∃ g, v = vec g ∧ k.problem.BarrierGradientAt x s.mu g := by
  obtain ⟨a, hgrad, hgradient⟩ := hs.gradient
  rw [hx] at hgradient
  obtain ⟨g, t, hg, ht, rfl⟩ := Problem.parts_of_lagrangianGradient hgradient
  rw [hx, hgrad] at hv
  exact ⟨g, by rw [hv.eq_sub ht, add_sub_cancel_right], hg⟩

/-- A real step between real points is their difference. -/
theorem Setup.Arrives.dx_eq {v : Trial (Exact ε)} (h : k.Arrives s v) {x z : Euclidean n} (hx : s.x = vec x)
    (hz : v.x = vec z) : s.dx = vec (z - x) := by
  cases h with
  | whole h =>
    have hadd := (Problem.trial_eq_ok h).1
    rw [hx, hz] at hadd
    have hlen : s.dx.length = n := (Checked.add_eq_ok.mp hadd).1.trans length_vec
    obtain ⟨d, hd⟩ := exists_vec hlen (Checked.isFinite_of_add hadd isFinite_vec).1
    rw [← Checked.scale_of_add hadd, hd, one_eq, scale_vec, one_smul]
  | along h hdx =>
    have hadd := (Problem.trial_eq_ok h).1
    rw [hx, hz] at hadd
    rw [hdx, Checked.scale_of_add hadd]

/-- A step that gets stuck does not go on. -/
theorem Stuck.not_running {c : Kept (Exact ε)} (hs : Stuck c s) (hrunning : s.stop = .notConverged) : False := by
  rcases hs.failed with hstop | hstop
  · exact nomatch hstop.symm.trans hrunning
  · exact nomatch hstop.symm.trans hrunning

theorem Setup.Standing.stepFrame (hp : k.problem.objective.Sized) (hk : k.hooks.Observing) (hs : k.Standing n s) :
    StepFrame k .any (fun _ t => t.stop = .notConverged → k.Moved n s t) (fun _ _ => True) s.kept where
  hooks := hk.stepOnly
  visit _ _ _ _ := trivial
  trial _ _ _ := trivial
  stuck _ ht hrunning := (ht.not_running hrunning).elim
  halted _ _ _ := trivial
  accepted u v hu hv _ := by
    obtain ⟨d, a, htrial⟩ := hv.exists_trial
    obtain ⟨hadd, heval⟩ := Problem.trial_eq_ok htrial
    have hx : u.x = s.x := congrArg Kept.x hu.kept
    have hgrad : u.grad = s.grad := congrArg Kept.grad hu.kept
    have hlanding : k.Landing n (u.moveTo v) := {
      values := heval
      length := (Checked.add_length hadd).trans ((congrArg List.length hx).trans hs.length)
      size := (congrArg List.length hgrad).trans hs.size }
    refine accept_wp hk.stepOnly v trivial (fun _ _ _ => trivial) (fun t ht hrunning => ?_) fun _ _ _ => trivial
    obtain ⟨y, grad, hg, rfl⟩ := ht.sound_of_running hrunning
    exact {
      standing := hlanding.graded hp hg
      multipliers := fun c hc => hg.real_multipliers hc rfl (.inl rfl)
      dx := fun x z hsx hz => hv.dx_eq (hx.trans hsx) hz
      mu := congrArg Kept.mu hu.kept
      xOld := congrArg Kept.xOld hu.kept
      gradOld := congrArg Kept.gradOld hu.kept
      history := congrArg Kept.history hu.kept }

theorem Setup.Opened.standing (hp : k.problem.objective.Sized) (hn : k.n = n) (hx : s.x.length = n)
    {v : Trial (Exact ε)} {y grad : Vec (Exact ε)} (hv : k.Opened s v y grad) :
    k.Standing n (k.openedState s v y grad) := by
  have hpoint : v.x = s.x := (Problem.evaluate_eq_ok hv.evaluated).1
  have heval := hv.evaluated
  rw [← hpoint] at heval
  have hlanding : k.Landing n (k.firstPoint s v) := {
    values := heval
    length := (congrArg List.length hpoint).trans hx
    size := (Vec.length_zeros _).trans hn }
  obtain ⟨⟨hvalues, hlength, hsize⟩, hgradient⟩ := hlanding.graded hp hv.graded
  exact ⟨⟨hvalues, hlength, hsize⟩, hgradient⟩

end ConstrainedOpt
