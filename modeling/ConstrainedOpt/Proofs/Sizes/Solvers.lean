import ConstrainedOpt.Step.Quasinormal
import ConstrainedOpt.Step.TruncatedCG
import ConstrainedOpt.Proofs.Sizes.Operators

/-! # Solvers that fill their sizes

On operators that fill their sizes every auxiliary solver answers, with vectors of the sizes it was asked for. Of the
errors only the numerical one is left: sizes and work slices fit.
-/
namespace ConstrainedOpt
open Journaled Checked
variable {F : Type} [Scalar F] {m n : Nat} {A : Operator F}

omit [Scalar F] in
/-- Where there is an error at all, an undefined or infinite value appeared. -/
def OnlyUnstable {α : Type} (outcome : Except StepError α) : Prop :=
  ∀ e, outcome = .error e → e = .numericalInstability

theorem OnlyUnstable.map {α β : Type} {outcome : Except StepError α} (h : OnlyUnstable outcome) (f : α → β) :
    OnlyUnstable (outcome.map f) := by
  rintro e he
  cases outcome with
  | ok a => cases he
  | error e' =>
    cases he
    exact h e rfl

omit [Scalar F] in
theorem OnlyUnstable.exists_ok {α : Type} {outcome : Except StepError α} (h : OnlyUnstable outcome)
    (hstable : outcome ≠ .error .numericalInstability) : ∃ a, outcome = .ok a := by
  cases outcome with
  | ok a => exact ⟨a, rfl⟩
  | error e => exact absurd (congrArg Except.error (h e rfl)) hstable

/-! ### Normal equations -/

omit [Scalar F] in
structure Solved.Sized (n : Nat) (s : Solved F) : Prop where
  vector : s.vector.length = n
  outcome : OnlyUnstable s.outcome

namespace NormalEquations
variable {par : NormalParam F}

omit [Scalar F] in
structure Iterate.Sized (m : Nat) (s : Iterate F) : Prop where
  w : s.w.length = m
  r : s.r.length = m
  p : s.p.length = m

theorem pass_sized (hA : A.Fills m n) (normB : F) (i : Nat) {s : Iterate F} (hs : s.Sized m) :
    (pass par A normB i s).Yields fun
      | .next s => s.Sized m
      | .done w | .failed w => w.length = m := by
  unfold pass
  rw [hA.cols, hA.rows]
  refine yields_bind (hA.applyTransposed _ _ _ _ hs.p (Vec.length_zeros n)) fun t ht => ?_
  refine yields_bind (hA.apply _ _ _ _ ht (Vec.length_zeros m)) fun q hq => ?_
  dsimp only
  split
  · exact yields_pure hs.w
  · split
    · exact yields_bind (yields_log _ _) fun _ _ => yields_pure hs.w
    · refine yields_bind (yields_lift (answers_add _ hs.p hs.w)) fun w hw => ?_
      refine yields_bind (yields_lift (answers_add _ hq hs.r)) fun r hr => ?_
      refine yields_bind (yields_log _ _) fun _ _ => ?_
      split
      · exact yields_pure hw
      · refine yields_bind (yields_lift (answers_add 1 hr ((Vec.length_scale _ _).trans hs.p))) fun p hp => ?_
        exact yields_pure ⟨hw, hr, hp⟩

theorem finish_sized (i : Nat) {w : Vec F} (hw : w.length = m) : (finish i w).Sized m := by
  refine ⟨hw, fun e he => ?_⟩
  unfold finish at he
  split at he
  · cases he
  · exact (Except.error.inj he).symm

theorem iterate_sized (hA : A.Fills m n) (normB : F) (budget i : Nat) {s : Iterate F} (hs : s.Sized m) :
    (iterate par A normB budget i s).Yields fun r => r.Sized m := by
  induction budget generalizing i s with
  | zero => exact yields_pure (finish_sized i hs.w)
  | succ budget ih =>
    refine yields_bind (pass_sized hA normB (i + 1) hs) ?_
    rintro (s | w | w) hw
    · exact ih _ hw
    · exact yields_pure (finish_sized _ hw)
    · refine yields_pure ⟨hw, ?_⟩
      rintro _ ⟨⟩
      rfl

theorem solve_sized (hA : A.Fills m n) {b w : Vec F} (hb : b.length = m) (hw : w.length = m) {work : Nat}
    (hwork : solveWorkLength m n ≤ work) : (solve par A b w work).Yields fun s => s.Sized m := by
  have hzero : (Vec.zerosLike w).length = m := (Vec.length_zerosLike w).trans hw
  unfold solve
  rw [if_neg (by simp [hA.rows, hb, hw]), if_neg (by rw [hA.rows, hA.cols]; exact Nat.not_lt.mpr hwork)]
  dsimp only
  split
  · refine yields_pure ⟨hzero, ?_⟩
    rintro _ ⟨⟩
    rfl
  · split
    · exact yields_pure ⟨hzero, nofun⟩
    · exact iterate_sized hA _ _ _ ⟨hzero, hb, hb⟩

omit [Scalar F] in
theorem solveWorkLength_le (m n : Nat) : solveWorkLength m n ≤ workLength m n := by
  unfold solveWorkLength workLength
  omega

omit [Scalar F] in
theorem no_workShortage (hA : A.Fills m n) {work : Nat} (hwork : workLength m n ≤ work) :
    (workShortage? A work).Yields fun shortage => shortage = false := by
  unfold workShortage?
  rw [if_neg (by rw [hA.rows, hA.cols]; exact Nat.not_lt.mpr hwork)]
  exact yields_pure rfl

omit [Scalar F] in
/-- What is made of a solution of the normal equations. -/
theorem pulled_sized (hA : A.Fills m n) {s : Solved F} (hs : s.Sized m) (a b : F) {u v : Vec F} (hu : u.length = n)
    (hv : v.length = n) :
    Yields (match s.outcome with
      | .error e => return ⟨u, .error e⟩
      | .ok i => return ⟨← A.applyTransposed a s.vector b v, .ok i⟩ : Journaled F (Solved F)) fun r => r.Sized n := by
  cases ho : s.outcome with
  | error e =>
    refine yields_pure ⟨hu, ?_⟩
    rintro _ ⟨⟩
    exact hs.outcome e ho
  | ok i => exact yields_bind (hA.applyTransposed a _ b _ hs.vector hv) fun z hz => yields_pure ⟨hz, nofun⟩

theorem leastNorm_sized (hA : A.Fills m n) {g u : Vec F} (hg : g.length = m) (hu : u.length = n) {work : Nat}
    (hwork : workLength m n ≤ work) : (leastNorm par A g u work).Yields fun s => s.Sized n := by
  unfold leastNorm
  rw [if_neg (by simp [hA.cols, hu]), hA.rows, hA.cols]
  refine yields_bind (no_workShortage hA hwork) ?_
  rintro _ rfl
  rw [if_neg Bool.false_ne_true]
  refine yields_bind (yields_lift (answers_copy hg (Vec.length_zeros m))) ?_
  rintro _ rfl
  refine yields_bind (solve_sized hA ((Vec.length_scale _ _).trans hg) (Vec.length_zeros m) (Nat.le_refl _)) ?_
  exact fun s hs => pulled_sized hA hs 1 0 hu hu

theorem project_sized (hA : A.Fills m n) {v u : Vec F} (hv : v.length = n) (hu : u.length = n) {work : Nat}
    (hwork : workLength m n ≤ work) : (project par A v u work).Yields fun s => s.Sized n := by
  unfold project
  rw [if_neg (by simp [hA.cols, hu, hv]), hA.rows, hA.cols]
  refine yields_bind (no_workShortage hA hwork) ?_
  rintro _ rfl
  rw [if_neg Bool.false_ne_true]
  refine yields_bind (hA.apply _ _ _ _ hv (Vec.length_zeros m)) fun b hb => ?_
  refine yields_bind (solve_sized hA hb (Vec.length_zeros m) (Nat.le_refl _)) ?_
  exact fun s hs => pulled_sized hA hs (-1) 1 hu hv

end NormalEquations

theorem Barrier.nullProjector_fills (hA : A.Fills m n) (par : NormalParam F) : (nullProjector A par).Fills n n := by
  unfold nullProjector
  rw [hA.cols, hA.rows]
  refine Operator.selfAdjoint_fills fun a v b out hv hout => ?_
  refine yields_bind (NormalEquations.project_sized hA hv (Vec.length_zeros n) (Nat.le_refl _)) fun s hs => ?_
  refine yields_bind (P := fun u => u.length = n) ?_ fun u hu => yields_lift (answers_axpby a b hu hout)
  split
  · exact yields_pure hs.vector
  · exact yields_bind (yields_log _ _) fun _ _ => yields_pure List.length_replicate

theorem Barrier.multipliers_fills {p : Problem F} {c : Constraint F} {x : Vec F} (hc : p.equality = some c)
    (hJ : (c.jacobian x).Fills m n) (par : NormalParam F) {φ y : Vec F} (hφ : φ.length = n) (hy : y.length = m) :
    (multipliers p par x φ y).Yields fun r => r.1.length = m ∧ OnlyUnstable r.2 := by
  have hrows : c.rows = m := hJ.rows
  have hcols : c.cols = n := hJ.cols
  unfold multipliers
  rw [hc]
  dsimp only
  rw [hrows, hcols]
  refine yields_bind (hJ.apply _ _ _ _ hφ (Vec.length_zeros m)) fun b hb => ?_
  refine yields_bind (NormalEquations.solve_sized hJ hb hy (NormalEquations.solveWorkLength_le m n)) fun s hs => ?_
  exact yields_pure ⟨hs.vector, hs.outcome.map _⟩

/-! ### Safeguards -/

omit [Scalar F] in
/-- The safeguard answers for steps of `n` components. -/
def Safeguard.Fills (sg : Safeguard F) (n : Nat) : Prop :=
  ∀ call base d, base.length = n → d.length = n → (sg.fraction call base d).Yields fun _ => True

theorem Safeguard.unlimited_fills (n : Nat) : (unlimited : Safeguard F).Fills n :=
  fun _ _ _ _ _ => yields_pure trivial

theorem Safeguard.linearFraction_answers (hA : A.Fills m n) {h : Vec F} (hh : h.length = m) (κ : F) {base d : Vec F}
    (hbase : base.length = n) (hd : d.length = n) : (linearFraction A h κ base d).Yields fun _ => True := by
  have hones : (Vec.scale (-1) (Vec.ones h.length) : Vec F).length = m := by simp [hh]
  unfold linearFraction
  refine yields_bind (hA.apply _ _ _ _ hbase hh) fun y hy => ?_
  refine yields_bind (yields_lift (answers_boundaryLength hones hy)) fun lowest _ => ?_
  dsimp only
  split
  · exact yields_pure trivial
  · refine yields_bind (hA.apply _ _ _ _ hd ((Vec.length_zerosLike h).trans hh)) fun z hz => ?_
    refine yields_bind (yields_lift (answers_boundaryLength hz hy)) fun reach _ => ?_
    split <;> exact yields_pure trivial

theorem Safeguard.linear_fills (hA : A.Fills m n) {h : Vec F} (hh : h.length = m) (κ : F) {work : Nat}
    (hwork : workLength m ≤ work) : (linear A h κ work).Yields fun r => ∃ sg, r = .ok sg ∧ sg.Fills n := by
  unfold linear
  rw [if_neg (by simp [hA.rows, hh]), if_neg (by rw [hA.rows]; exact Nat.not_lt.mpr hwork)]
  exact yields_pure ⟨_, rfl, fun _ _ _ hbase hd => linearFraction_answers hA hh κ hbase hd⟩

theorem Sphere.exit_answers (still : F) {x p : Vec F} (hx : x.length = n) (hp : p.length = n) (radius : F) :
    (Sphere.exit still x p radius).Answers fun _ => True := by
  unfold Sphere.exit
  dsimp only
  split
  · exact ⟨_, rfl, trivial⟩
  · exact answers_bind (answers_inner hx hp) fun _ _ => ⟨_, rfl, trivial⟩

/-! ### Quasinormal steps -/

omit [Scalar F] in
structure QuasinormalStep.Sized (n : Nat) (r : QuasinormalStep F) : Prop where
  step : r.step.length = n
  cauchy : r.cauchy.length = n
  outcome : OnlyUnstable r.outcome

namespace Quasinormal
variable {g : Vec F} {sg : Safeguard F} {par : QuasinormalParam F}

theorem residual_answers (hA : A.Fills m n) (hg : g.length = m) {v : Vec F} (hv : v.length = n) :
    (residual A g v).Yields fun _ => True :=
  yields_bind (hA.apply _ _ _ _ hv hg) fun _ _ => yields_pure trivial

/-- The parts of a choice fit each other. -/
structure Context.Sized (k : Context F) (m n : Nat) : Prop where
  operator : k.A.Fills m n
  g : k.g.length = m
  safeguard : k.safeguard.Fills n
  cauchy : k.cauchy.length = n

variable {k : Context F} {newton : Vec F}

theorem dogleg_sized (hk : k.Sized m n) (hnewton : newton.length = n) (call : Nat) :
    (dogleg k newton call).Yields fun r => r.1.length = n := by
  unfold dogleg
  refine yields_bind (yields_lift (answers_add _ hk.cauchy hnewton)) fun leg hleg => ?_
  refine yields_bind (P := fun _ => True) (yields_lift ?_) fun trust _ => ?_
  · exact answers_bind (Sphere.exit_answers 1 hk.cauchy hleg k.radius) fun _ _ => ⟨_, rfl, trivial⟩
  refine yields_bind (hk.safeguard call _ _ hk.cauchy hleg) fun safe _ => ?_
  exact yields_bind (yields_lift (answers_add _ hleg hk.cauchy)) fun z hz => yields_pure hz

theorem newtonPart_sized (hk : k.Sized m n) (hnewton : newton.length = n) (call : Nat) :
    (newtonPart k newton call).Yields fun r => r.1.length = n := by
  unfold newtonPart
  refine yields_bind (hk.safeguard call _ _ ((Vec.length_zerosLike newton).trans hnewton) hnewton) fun safe _ => ?_
  exact yields_pure ((Vec.length_scale _ _).trans hnewton)

theorem newtonInside_answers (hk : k.Sized m n) (hnewton : newton.length = n) (call : Nat) :
    (newtonInside k newton call).Yields fun _ => True := by
  unfold newtonInside
  refine yields_bind (residual_answers hk.operator hk.g hnewton) fun res _ => ?_
  split
  · refine yields_bind (hk.safeguard call _ _ ((Vec.length_zerosLike newton).trans hnewton) hnewton) fun safe _ => ?_
    exact yields_pure trivial
  · exact yields_pure trivial

theorem choose_sized (hk : k.Sized m n) (hnewton : newton.length = n) (call : Nat) :
    (choose k newton call).Yields fun r => r.1.length = n := by
  unfold choose
  refine yields_bind (newtonInside_answers hk hnewton call) ?_
  rintro ⟨inside, call⟩ -
  dsimp only
  split
  · exact yields_pure hnewton
  · refine yields_bind (dogleg_sized hk hnewton call) fun leg hleg => ?_
    refine yields_bind (residual_answers hk.operator hk.g hleg) fun res _ => ?_
    split
    · exact yields_pure hleg
    · refine yields_bind (newtonPart_sized hk hnewton (call + 1)) fun part hpart => ?_
      refine yields_bind (residual_answers hk.operator hk.g hpart) fun res _ => ?_
      split
      · exact yields_pure hpart
      · exact yields_pure hk.cauchy

theorem finish_sized (hA : A.Fills m n) (hg : g.length = m) (normG : F) {step cauchy : Vec F}
    (hstep : step.length = n) (hcauchy : cauchy.length = n) (stop : QuasinormalStop) (iter : Nat) :
    (finish A g normG step cauchy stop iter).Yields fun r => r.Sized n :=
  yields_bind (residual_answers hA hg hstep) fun _ _ => yields_bind (yields_log _ _) fun _ _ =>
    yields_pure ⟨hstep, hcauchy, nofun⟩

theorem fromCauchy_sized (hA : A.Fills m n) (hg : g.length = m) (hsg : sg.Fills n) (δ normG : F) {cauchy : Vec F}
    (hcauchy : cauchy.length = n) : (fromCauchy par A g δ sg normG cauchy).Yields fun r => r.Sized n := by
  have hzero : (Vec.zerosLike cauchy).length = n := (Vec.length_zerosLike cauchy).trans hcauchy
  have hscale : ∀ a : F, (Vec.scale a cauchy).length = n := fun a => (Vec.length_scale a cauchy).trans hcauchy
  unfold fromCauchy
  refine yields_bind (residual_answers hA hg hcauchy) fun res _ => ?_
  refine yields_bind (hsg 0 _ _ hzero hcauchy) fun safe _ => ?_
  split
  · exact finish_sized hA hg normG (hscale _) hcauchy _ _
  · split
    · exact finish_sized hA hg normG (hscale _) hcauchy _ _
    · split
      · exact finish_sized hA hg normG hcauchy hcauchy _ _
      · have hn : (Vec.zeros A.cols : Vec F).length = n := (Vec.length_zeros _).trans hA.cols
        refine yields_bind (NormalEquations.leastNorm_sized hA hg hn ?_) fun newton hnewton => ?_
        · exact Nat.le_of_eq (by rw [hA.rows, hA.cols])
        split
        case h_1 e he =>
          refine yields_pure ⟨hzero, hcauchy, ?_⟩
          rintro _ ⟨⟩
          exact hnewton.outcome e he
        · refine yields_bind (choose_sized ⟨hA, hg, hsg, hcauchy⟩ hnewton.vector 1) ?_
          rintro ⟨step, stop⟩ hstep
          exact finish_sized hA hg normG hstep hcauchy _ _

theorem solve_sized (hA : A.Fills m n) (hg : g.length = m) (hsg : sg.Fills n) (δ : F) {step cauchy : Vec F}
    (hstep : step.length = n) (hcauchy : cauchy.length = n) {work : Nat} (hwork : workLength m n ≤ work) :
    (solve par A g δ sg step cauchy work).Yields fun r => r.Sized n := by
  have hzero : (Vec.zeros n : Vec F).length = n := Vec.length_zeros n
  unfold solve
  rw [if_neg (by simp [hA.rows, hA.cols, hg, hstep, hcauchy]),
    if_neg (by rw [hA.rows, hA.cols]; exact Nat.not_lt.mpr hwork)]
  dsimp only
  rw [hA.cols]
  split
  · exact yields_pure ⟨hzero, hzero, nofun⟩
  · split
    · refine yields_pure ⟨hzero, hzero, ?_⟩
      rintro _ ⟨⟩
      rfl
    · refine yields_bind (hA.applyTransposed _ _ _ _ hg hzero) fun d hd => ?_
      refine yields_bind (hA.apply _ _ _ _ hd ((Vec.length_zeros _).trans hA.rows)) fun Ad _ => ?_
      split
      · exact yields_pure ⟨hzero, hzero, nofun⟩
      · exact fromCauchy_sized hA hg hsg _ _ ((Vec.length_scale _ _).trans hd)

end Quasinormal

/-! ### Truncated conjugate gradients -/

namespace TruncatedCG

/-- The parts of a model fit steps of `n` components. -/
structure Model.Fits (k : Model F) (n : Nat) : Prop where
  hessian : k.H.Fills n n
  preconditioner : k.B.Fills n n
  projector : k.C.Fills n n
  gradient : k.g.length = n
  safeguard : k.safeguard.Fills n

omit [Scalar F] in
structure Iterate.Sized (n : Nat) (it : Iterate F) : Prop where
  s : it.s.length = n
  x : it.x.length = n
  r : it.r.length = n
  previous : ∀ prev, it.previous = some prev →
    prev.r.length = n ∧ prev.z.length = n ∧ prev.p.length = n ∧ prev.hp.length = n
  slots : ∀ e ∈ it.slots, e.z.length = n

omit [Scalar F] in
def Progress.Sized (n : Nat) : Progress F → Prop
  | .next it => it.Sized n
  | .stop _ it => it.s.length = n

variable {k : Model F} {it : Iterate F} {z p hp : Vec F}

theorem precondition_sized (hk : k.Fits n) {r : Vec F} (hr : r.length = n) :
    (precondition k r).Yields fun out => ∀ z, out = .ok z → z.length = n := by
  have hzero : (Vec.zerosLike r).length = n := (Vec.length_zerosLike r).trans hr
  unfold precondition
  refine yields_bind (hk.projector.apply _ _ _ _ hr hzero) fun once honce => ?_
  refine yields_bind (hk.projector.apply _ _ _ _ honce hzero) fun twice htwice => ?_
  refine yields_bind (yields_lift (answers_add _ honce htwice)) fun change _ => ?_
  dsimp only
  split
  · exact yields_pure nofun
  · split
    · exact yields_pure nofun
    · refine yields_bind (hk.preconditioner.apply _ _ _ _ honce hzero) fun b hb => ?_
      refine yields_bind (hk.projector.apply _ _ _ _ hb hzero) fun z hz => ?_
      split
      · exact yields_pure nofun
      · refine yields_pure ?_
        rintro _ ⟨⟩
        exact hz

theorem asymmetric_answers (eps : F) {a b a' b' : Vec F} (ha : a.length = n) (hb : b.length = n)
    (ha' : a'.length = n) (hb' : b'.length = n) : (asymmetric eps a b a' b').Answers fun _ => True :=
  answers_bind (answers_inner ha hb') fun _ _ => answers_bind (answers_inner hb ha') fun _ _ => ⟨_, rfl, trivial⟩

theorem residualFault_answers (par : TruncatedParam F) (hit : it.Sized n) (hz : z.length = n) (rz : F) :
    (residualFault? par it z rz).Answers fun _ => True := by
  unfold residualFault?
  split
  · exact ⟨_, rfl, trivial⟩
  case h_2 prev hprev =>
    obtain ⟨hr, hpz, -⟩ := hit.previous prev hprev
    refine answers_bind (asymmetric_answers _ hz hit.r hpz hr) fun b _ => ?_
    split
    · exact ⟨_, rfl, trivial⟩
    · refine answers_bind (answers_mapM (P := fun _ => True) fun e he => ?_) fun lost _ => ?_
      · exact answers_bind (answers_inner hit.r (hit.slots e (List.mem_of_mem_take he))) fun _ _ => ⟨_, rfl, trivial⟩
      · split <;> exact ⟨_, rfl, trivial⟩

theorem directionFault_answers (par : TruncatedParam F) (hit : it.Sized n) (hp : p.length = n) {d : Vec F}
    (hd : d.length = n) : (directionFault? par it p d).Answers fun _ => True := by
  unfold directionFault?
  split
  · exact ⟨_, rfl, trivial⟩
  case h_2 prev hprev =>
    obtain ⟨-, -, hpp, hphp⟩ := hit.previous prev hprev
    refine answers_bind (asymmetric_answers _ hd hp hphp hpp) fun b _ => ?_
    split <;> exact ⟨_, rfl, trivial⟩

theorem direction_sized (hit : it.Sized n) (hz : z.length = n) (rz : F) :
    (direction it z rz).Answers fun p => p.length = n := by
  unfold direction
  split
  · exact ⟨_, rfl, hz⟩
  case h_2 prev hprev =>
    obtain ⟨-, -, hp, -⟩ := hit.previous prev hprev
    exact answers_add _ hz ((Vec.length_scale _ _).trans hp)

omit [Scalar F] in
theorem mem_record {size seq : Nat} {e u : Slot F} {slots : List (Slot F)} (hu : u ∈ record size seq e slots) :
    u = e ∨ u ∈ slots := by
  unfold record at hu
  split at hu
  · exact .inr hu
  · split at hu
    · exact (List.mem_or_eq_of_mem_set hu).symm
    · rcases List.mem_append.mp hu with hu | hu
      · exact .inr hu
      · exact .inl (List.mem_singleton.mp hu)

theorem followNegative_sized (hk : k.Fits n) (hit : it.Sized n) (hp : p.length = n) (rp κ : F) :
    (followNegative k it p rp κ).Yields (Progress.Sized n) := by
  unfold followNegative
  refine yields_bind (P := fun _ => True) (yields_lift ?_) fun σ _ => ?_
  · split
    · exact Sphere.exit_answers 0 hit.x hp k.δ
    · split <;> exact ⟨_, rfl, trivial⟩
  refine yields_bind (hk.safeguard _ _ _ hit.x ((Vec.length_scale _ _).trans hp)) fun fraction _ => ?_
  exact yields_bind (yields_lift (answers_add _ hp hit.s)) fun s hs => yields_pure hs

theorem restart_sized (hk : k.Fits n) (hit : it.Sized n) (hp : p.length = n) (α fraction rp κ : F) :
    (restart k it p α fraction rp κ).Yields (Progress.Sized n) := by
  unfold restart
  refine yields_bind (yields_lift (answers_add _ hp hit.s)) fun s hs => ?_
  refine yields_bind (yields_lift (answers_add _ hp hit.x)) fun x hx => ?_
  dsimp only
  split
  · exact yields_pure hs
  · refine yields_bind (yields_log _ _) fun _ _ => ?_
    refine yields_bind (hk.hessian.apply _ _ _ _ hs ((Vec.length_zerosLike s).trans hs)) fun hs' hlen => ?_
    refine yields_bind (yields_lift (answers_add 1 hk.gradient hlen)) fun r hr => ?_
    exact yields_pure ⟨hs, hx, (Vec.length_scale _ _).trans hr, nofun, hit.slots⟩

theorem followPositive_sized (hk : k.Fits n) (hit : it.Sized n) (hz : z.length = n) (hp : p.length = n) {d : Vec F}
    (hd : d.length = n) (rz rp κ : F) : (followPositive k it z p d rz rp κ).Yields (Progress.Sized n) := by
  have hcalled : ({ it with calls := it.calls + 1 } : Iterate F).Sized n :=
    ⟨hit.s, hit.x, hit.r, hit.previous, hit.slots⟩
  unfold followPositive
  refine yields_bind (yields_lift (answers_add _ hp hit.x)) fun target _ => ?_
  refine yields_bind (P := fun _ => True) (yields_lift ?_) fun α _ => ?_
  · split
    · exact Sphere.exit_answers 0 hit.x hp k.δ
    · exact ⟨_, rfl, trivial⟩
  dsimp only
  split
  · exact yields_pure hit.s
  · refine yields_bind (hk.safeguard _ _ _ hit.x ((Vec.length_scale _ _).trans hp)) fun fraction _ => ?_
    split
    · exact restart_sized hk hcalled hp _ _ _ _
    · refine yields_bind (yields_lift (answers_add _ hp hit.s)) fun s hs => ?_
      refine yields_bind (yields_lift (answers_add _ hp hit.x)) fun x hx => ?_
      split
      · exact yields_pure hs
      · refine yields_bind (yields_lift (answers_add _ hd hit.r)) fun r hr => yields_pure ⟨hs, hx, hr, ?_, hit.slots⟩
        rintro _ ⟨⟩
        exact ⟨hit.r, hz, hp, hd⟩

theorem follow_sized (hk : k.Fits n) (hit : it.Sized n) (hz : z.length = n) (hp : p.length = n) {d : Vec F}
    (hd : d.length = n) (rz normZ : F) : (follow k it z p d rz normZ).Yields (Progress.Sized n) := by
  have hit' : ({ it with iter := it.iter + 1 } : Iterate F).Sized n := ⟨hit.s, hit.x, hit.r, hit.previous, hit.slots⟩
  unfold follow
  refine yields_bind (yields_lift (answers_inner hp hd)) fun κ _ => ?_
  refine yields_bind (yields_lift (answers_inner hit.r hp)) fun rp _ => yields_bind (yields_log _ _) fun _ _ => ?_
  split
  · exact followNegative_sized hk hit' hp rp κ
  · exact followPositive_sized hk hit' hz hp hd rz rp κ

theorem pass_sized (hk : k.Fits n) (hit : it.Sized n) : (pass k it).Yields (Progress.Sized n) := by
  unfold pass
  refine yields_bind (precondition_sized hk hit.r) fun out hout => ?_
  split
  · exact yields_pure hit.s
  case h_2 z =>
    have hz := hout z rfl
    have hit' : (if it.iter = 0 then { it with normZ0 := Vec.norm z } else it).Sized n := by
      split
      · exact ⟨hit.s, hit.x, hit.r, hit.previous, hit.slots⟩
      · exact hit
    dsimp only
    generalize (if it.iter = 0 then { it with normZ0 := Vec.norm z } else it) = it at hit'
    split
    · exact yields_pure hit'.s
    · refine yields_bind (yields_lift (answers_inner hit'.r hz)) fun rz _ => ?_
      refine yields_bind (yields_lift (residualFault_answers k.par hit' hz rz)) fun fault _ => ?_
      split
      · exact yields_pure hit'.s
      · have hrecorded : ({ it with slots := record k.par.orthogMax it.seq ⟨z, rz⟩ it.slots } : Iterate F).Sized n := by
          refine ⟨hit'.s, hit'.x, hit'.r, hit'.previous, fun e he => ?_⟩
          rcases mem_record he with rfl | he
          · exact hz
          · exact hit'.slots e he
        refine yields_bind (yields_lift (direction_sized hrecorded hz rz)) fun p hp => ?_
        refine yields_bind (hk.hessian.apply _ _ _ _ hp ((Vec.length_zerosLike p).trans hp)) fun d hd => ?_
        split
        · exact yields_pure hit'.s
        · refine yields_bind (yields_lift (directionFault_answers k.par hrecorded hp hd)) fun fault _ => ?_
          split
          · exact yields_pure hit'.s
          · exact follow_sized hk hrecorded hz hp hd rz _

theorem iterate_sized (hk : k.Fits n) (budget : Nat) (hit : it.Sized n) :
    (iterate k budget it).Yields fun r => r.2.s.length = n := by
  induction budget generalizing it with
  | zero => exact yields_pure hit.s
  | succ budget ih =>
    refine yields_bind (pass_sized hk hit) ?_
    rintro (it | ⟨reason, it⟩) hit
    · exact ih hit
    · exact yields_pure hit

theorem solve_sized (hk : k.Fits n) {offset s : Vec F} (hoffset : offset.length = n) (hs : s.length = n) {work : Nat}
    (hwork : workLength n k.par.orthogMax ≤ work) :
    (solve k offset s work).Yields fun out => ∃ r, out = .ok r ∧ r.step.length = n := by
  have hzero : (Vec.zerosLike k.g).length = n := (Vec.length_zerosLike k.g).trans hk.gradient
  have hstart : (start k.g offset).Sized n :=
    ⟨hzero, hoffset, (Vec.length_scale _ _).trans hk.gradient, nofun, nofun⟩
  unfold solve
  dsimp only
  rw [if_neg (by simp [Operator.size, hk.gradient, hk.hessian.rows, hk.hessian.cols, hk.preconditioner.rows,
    hk.preconditioner.cols, hk.projector.rows, hk.projector.cols]), if_neg (by simp [hk.gradient, hoffset, hs]),
    if_neg (by rw [hk.gradient]; exact Nat.not_lt.mpr hwork)]
  refine yields_bind (P := fun _ => True) ?_ fun fault _ => ?_
  · unfold offsetFault?
    dsimp only
    split
    · exact yields_bind (yields_log _ _) fun _ _ => yields_pure trivial
    · refine yields_bind (hk.safeguard 0 _ _ ((Vec.length_zerosLike offset).trans hoffset) hoffset) fun fraction _ => ?_
      split
      · exact yields_bind (yields_log _ _) fun _ _ => yields_pure trivial
      · exact yields_pure trivial
  split
  · exact yields_pure ⟨_, rfl, hzero⟩
  · refine yields_bind (iterate_sized hk _ hstart) ?_
    rintro ⟨reason, it⟩ hit
    exact yields_bind (yields_log _ _) fun _ _ => yields_pure ⟨_, rfl, hit⟩

end TruncatedCG
end ConstrainedOpt
