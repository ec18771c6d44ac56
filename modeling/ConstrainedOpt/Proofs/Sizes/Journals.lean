import ConstrainedOpt.Proofs.Assertion.Quiet
import ConstrainedOpt.Run.LineSearch
import ConstrainedOpt.Proofs.Sizes.States

/-! # What the solvers write

An auxiliary solve tells every fault of sizes or of work slices, as the last thing it writes. Where the sizes fit there
is nothing to tell: on operators that are quiet themselves the solvers are quiet, the projections inside them included.
-/
namespace ConstrainedOpt
open Journaled Checked
variable {F : Type} [Scalar F] {m n : Nat} {A : Operator F}

omit [Scalar F] in
/-- Updates by the operator are quiet, whatever vectors it is given. -/
structure Operator.Silent (A : Operator F) : Prop where
  apply : ∀ a x b y, (A.apply a x b y).Quiet
  applyTransposed : ∀ a x b y, (A.applyTransposed a x b y).Quiet

omit [Scalar F] in
/-- Updates by the operator are quiet on vectors of `n` components. -/
def Operator.Discreet (A : Operator F) (n : Nat) : Prop :=
  ∀ a x b y, x.length = n → y.length = n → (A.apply a x b y).Quiet

omit [Scalar F] in
theorem Operator.Silent.discreet (h : A.Silent) (n : Nat) : A.Discreet n := fun a x b y _ _ => h.apply a x b y

omit [Scalar F] in
theorem Operator.selfAdjoint_silent {apply : F → Vec F → F → Vec F → Journaled F (Vec F)}
    (h : ∀ a x b y, (apply a x b y).Quiet) : (selfAdjoint n apply).Silent := ⟨h, h⟩

theorem Operator.identity_silent (n : Nat) : (identity n : Operator F).Silent :=
  selfAdjoint_silent fun _ _ _ _ => quiet_lift _

theorem Constraint.jacobian_silent (c : Constraint F) (x : Vec F) : (c.jacobian x).Silent where
  apply _ _ _ _ := (quiet_lift _).bind fun _ => quiet_lift _
  applyTransposed _ _ _ _ := (quiet_lift _).bind fun _ => quiet_lift _

theorem QuasiNewton.operator_silent (kind : OperatorKind) (n : Nat) (scale : F) (h : History F) :
    (operator kind n scale h).Silent :=
  Operator.selfAdjoint_silent fun _ _ _ _ => (quiet_lift _).bind fun _ => (quiet_lift _).bind fun _ => quiet_lift _

omit [Scalar F] in
/-- The outcome of a solve is a fault of sizes or of work slices. -/
abbrev Faulty {α : Type} (outcome : Except StepError α) : Prop := ¬ OnlyUnstable outcome

omit [Scalar F] in
theorem not_faulty_ok {α : Type} (a : α) : ¬ Faulty (.ok a) := fun h => h nofun

omit [Scalar F] in
theorem not_faulty_unstable {α : Type} : ¬ Faulty (.error .numericalInstability : Except StepError α) := by
  refine fun h => h ?_
  rintro _ ⟨⟩
  rfl

/-! ### Normal equations -/

namespace NormalEquations
variable {par : NormalParam F} {b w : Vec F} {work : Nat}

theorem pass_quiet (hA : A.Silent) (normB : F) (i : Nat) (s : Iterate F) : (pass par A normB i s).Quiet := by
  unfold pass
  refine (hA.applyTransposed _ _ _ _).bind fun t => (hA.apply _ _ _ _).bind fun q => ?_
  dsimp only
  split
  · exact quiet_pure _
  · split
    · exact (quiet_log (by decide) _).bind fun _ => quiet_pure _
    · refine (quiet_lift _).bind fun w => (quiet_lift _).bind fun r => (quiet_log (by decide) _).bind fun _ => ?_
      split
      · exact quiet_pure _
      · exact (quiet_lift _).bind fun p => quiet_pure _

theorem iterate_quiet (hA : A.Silent) (normB : F) (budget i : Nat) (s : Iterate F) :
    (iterate par A normB budget i s).Quiet := by
  induction budget generalizing i s with
  | zero => exact quiet_pure _
  | succ budget ih =>
    refine (pass_quiet hA normB (i + 1) s).bind ?_
    rintro (s | w | w)
    · exact ih _ s
    · exact quiet_pure _
    · exact quiet_pure _

theorem iterate_unfaulty (normB : F) (budget i : Nat) (s : Iterate F) :
    (iterate par A normB budget i s).Ensures fun r => ¬ Faulty r.outcome := by
  have hfinish : ∀ (i : Nat) (w : Vec F), ¬ Faulty (finish i w).outcome := by
    intro i w
    unfold finish
    dsimp only
    split
    · exact not_faulty_ok _
    · exact not_faulty_unstable
  induction budget generalizing i s with
  | zero => exact ensures_pure (hfinish i s.w)
  | succ budget ih =>
    refine ensures_bind (ensures_true _) ?_
    rintro (s | w | w) -
    · exact ih _ s
    · exact ensures_pure (hfinish _ w)
    · exact ensures_pure not_faulty_unstable

theorem solve_tells (par : NormalParam F) (A : Operator F) (b w : Vec F) (work : Nat) :
    (solve par A b w work).Tells fun s => Faulty s.outcome := by
  unfold solve
  split
  · exact tells_error _ (by simp)
  split
  · exact tells_error _ (by simp)
  dsimp only
  split
  · exact tells_pure not_faulty_unstable
  split
  · exact tells_pure (not_faulty_ok 0)
  · intro notes r rest hrun hr
    exact absurd hr (iterate_unfaulty _ _ _ _ notes r rest hrun)

theorem solve_quiet (hA : A.Silent) (hb : b.length = A.rows) (hw : w.length = A.rows)
    (hwork : solveWorkLength A.rows A.cols ≤ work) : (solve par A b w work).Quiet := by
  unfold solve
  rw [if_neg (by simp [hb, hw]), if_neg (Nat.not_lt.mpr hwork)]
  dsimp only
  split
  · exact quiet_pure _
  · split
    · exact quiet_pure _
    · exact iterate_quiet hA _ _ _ _

omit [Scalar F] in
theorem workShortage_quiet (hwork : workLength A.rows A.cols ≤ work) : (workShortage? A work).Quiet := by
  unfold workShortage?
  rw [if_neg (Nat.not_lt.mpr hwork)]
  exact quiet_pure _

omit [Scalar F] in
theorem workShortage_tells (A : Operator F) (work : Nat) : (workShortage? A work).Tells fun shortage => shortage = true := by
  unfold workShortage?
  split
  · exact tells_error _ (by simp)
  · exact tells_pure Bool.false_ne_true

omit [Scalar F] in
/-- What is made of a solution keeps its fault. -/
theorem pulled_tells (A : Operator F) (s : Solved F) (a b : F) (u v : Vec F) :
    let pulled : Journaled F (Solved F) := match s.outcome with
      | .error e => return ⟨u, .error e⟩
      | .ok i => return ⟨← A.applyTransposed a s.vector b v, .ok i⟩
    (Faulty s.outcome ∧ ∃ r, pulled = pure r) ∨ pulled.Tells fun r => Faulty r.outcome := by
  intro pulled
  cases ho : s.outcome with
  | ok i =>
    refine .inr ?_
    have hpulled : pulled = do return ⟨← A.applyTransposed a s.vector b v, .ok i⟩ := by simp only [pulled, ho]
    rw [hpulled]
    exact tells_bind fun z => tells_pure (not_faulty_ok i)
  | error e =>
    have hpulled : pulled = pure ⟨u, .error e⟩ := by simp only [pulled, ho]
    by_cases he : Faulty (.error e : Except StepError Nat)
    · exact .inl ⟨he, _, hpulled⟩
    · exact .inr (hpulled ▸ tells_pure he)

theorem leastNorm_tells (par : NormalParam F) (A : Operator F) (g u : Vec F) (work : Nat) :
    (leastNorm par A g u work).Tells fun s => Faulty s.outcome := by
  unfold leastNorm
  split
  · exact tells_error _ (by simp)
  refine (workShortage_tells A work).bind ?_
  rintro (_ | _)
  · refine .inr (tells_bind fun b => (solve_tells _ _ _ _ _).bind fun s => ?_)
    exact pulled_tells A s 1 0 u u
  · exact .inl ⟨rfl, _, rfl⟩

theorem project_tells (par : NormalParam F) (A : Operator F) (v u : Vec F) (work : Nat) :
    (project par A v u work).Tells fun s => Faulty s.outcome := by
  unfold project
  split
  · exact tells_error _ (by simp)
  refine (workShortage_tells A work).bind ?_
  rintro (_ | _)
  · refine .inr (tells_bind fun b => (solve_tells _ _ _ _ _).bind fun s => ?_)
    exact pulled_tells A s (-1) 1 u v
  · exact .inl ⟨rfl, _, rfl⟩

omit [Scalar F] in
theorem pulled_quiet (hA : A.Silent) (s : Solved F) (a b : F) (u v : Vec F) :
    Quiet (match s.outcome with
      | .error e => return ⟨u, .error e⟩
      | .ok i => return ⟨← A.applyTransposed a s.vector b v, .ok i⟩ : Journaled F (Solved F)) := by
  split
  · exact quiet_pure _
  · exact (hA.applyTransposed _ _ _ _).bind fun z => quiet_pure _

theorem leastNorm_quiet (hA : A.Silent) {g u : Vec F} (hu : u.length = A.cols)
    (hwork : workLength A.rows A.cols ≤ work) : (leastNorm par A g u work).Quiet := by
  unfold leastNorm
  rw [if_neg (not_not_intro hu)]
  refine (workShortage_quiet hwork).bind fun shortage => ?_
  split
  · exact quiet_pure _
  have hcopy : Ensures (liftM (Checked.copy g (Vec.zeros A.rows)) : Journaled F (Vec F)) fun b => b.length = A.rows := by
    refine ensures_lift fun b hb => ?_
    obtain ⟨hlen, rfl⟩ := copy_eq_ok.mp hb
    exact hlen.trans (Vec.length_zeros _)
  refine quiet_bind (quiet_lift _) hcopy fun b hb => ?_
  refine (solve_quiet hA ((Vec.length_scale _ _).trans hb) (Vec.length_zeros _) (Nat.le_refl _)).bind fun s => ?_
  exact pulled_quiet hA s 1 0 u u

theorem project_quiet (hA : A.Silent) (hfills : A.Fills m n) {v u : Vec F} (hv : v.length = n) (hu : u.length = n)
    (hwork : workLength m n ≤ work) : (project par A v u work).Quiet := by
  unfold project
  rw [if_neg (by simp [hfills.cols, hv, hu])]
  refine (workShortage_quiet (by rw [hfills.rows, hfills.cols]; exact hwork)).bind fun shortage => ?_
  split
  · exact quiet_pure _
  have hzero : (Vec.zeros A.rows : Vec F).length = m := (Vec.length_zeros _).trans hfills.rows
  refine quiet_bind (hA.apply _ _ _ _) (hfills.apply 1 v 0 _ hv hzero).ensures fun b hb => ?_
  refine (solve_quiet hA (hb.trans hfills.rows.symm) (Vec.length_zeros _) (Nat.le_refl _)).bind fun s => ?_
  exact pulled_quiet hA s (-1) 1 u v

end NormalEquations

/-- On vectors that fit it the projector is quiet, so the solve inside it has no fault. -/
theorem Barrier.nullProjector_discreet (hA : A.Silent) (hfills : A.Fills m n) (par : NormalParam F) :
    (nullProjector A par).Discreet n := by
  intro a v b out hv hout
  have hzero : (Vec.zeros A.cols : Vec F).length = n := (Vec.length_zeros _).trans hfills.cols
  unfold nullProjector Operator.selfAdjoint
  dsimp only
  refine (NormalEquations.project_quiet hA hfills hv hzero ?_).bind fun s => ?_
  · exact Nat.le_of_eq (by rw [hfills.rows, hfills.cols])
  refine Quiet.bind ?_ fun u => quiet_lift _
  split
  · exact quiet_pure _
  · exact (quiet_log (by decide) _).bind fun _ => quiet_pure _

/-! ### Safeguards -/

omit [Scalar F] in
/-- The safeguard is quiet, whatever step it is asked for. -/
def Safeguard.Silent (sg : Safeguard F) : Prop := ∀ call base d, (sg.fraction call base d).Quiet

namespace Safeguard

theorem unlimited_silent : (unlimited : Safeguard F).Silent := fun _ _ _ => quiet_pure _

theorem linearFraction_quiet (hA : A.Silent) (h : Vec F) (κ : F) (base d : Vec F) :
    (linearFraction A h κ base d).Quiet := by
  unfold linearFraction
  refine (hA.apply _ _ _ _).bind fun y => (quiet_lift _).bind fun lowest => ?_
  dsimp only
  split
  · exact quiet_pure _
  · refine (hA.apply _ _ _ _).bind fun z => (quiet_lift _).bind fun reach => ?_
    split <;> exact quiet_pure _

theorem linear_quiet {h : Vec F} (hh : h.length = A.rows) (κ : F) {work : Nat} (hwork : workLength A.rows ≤ work) :
    (linear A h κ work).Quiet := by
  unfold linear
  rw [if_neg (not_not_intro hh), if_neg (Nat.not_lt.mpr hwork)]
  exact quiet_pure _

theorem linear_silent (hA : A.Silent) (h : Vec F) (κ : F) (work : Nat) :
    (linear A h κ work).Ensures fun r => ∀ sg, r = .ok sg → sg.Silent := by
  unfold linear
  split
  · exact ensures_bind (ensures_true _) fun _ _ => ensures_pure nofun
  split
  · exact ensures_bind (ensures_true _) fun _ _ => ensures_pure nofun
  · refine ensures_pure ?_
    rintro _ ⟨⟩
    exact fun _ base d => linearFraction_quiet hA h κ base d

theorem linear_tells (A : Operator F) (h : Vec F) (κ : F) (work : Nat) : (linear A h κ work).Tells Faulty := by
  unfold linear
  split
  · exact tells_error _ (by simp)
  split
  · exact tells_error _ (by simp)
  · exact tells_pure (not_faulty_ok _)

end Safeguard

/-! ### Quasinormal steps -/

namespace Quasinormal
variable {par : QuasinormalParam F} {g : Vec F} {sg : Safeguard F} {k : Context F}

theorem residual_quiet (hA : A.Silent) (g v : Vec F) : (residual A g v).Quiet :=
  (hA.apply _ _ _ _).bind fun _ => quiet_pure _

theorem choose_quiet (hA : k.A.Silent) (hsg : k.safeguard.Silent) (newton : Vec F) (call : Nat) :
    (choose k newton call).Quiet := by
  have hinside : (newtonInside k newton call).Quiet := by
    unfold newtonInside
    refine (residual_quiet hA _ _).bind fun res => ?_
    split
    · exact (hsg _ _ _).bind fun safe => quiet_pure _
    · exact quiet_pure _
  have hdogleg : ∀ call, (dogleg k newton call).Quiet := fun call =>
    (quiet_lift _).bind fun _ => (quiet_lift _).bind fun _ => (hsg _ _ _).bind fun _ =>
      (quiet_lift _).bind fun _ => quiet_pure _
  have hpart : ∀ call, (newtonPart k newton call).Quiet := fun _ => (hsg _ _ _).bind fun _ => quiet_pure _
  unfold choose
  refine hinside.bind ?_
  rintro ⟨inside, call⟩
  dsimp only
  split
  · exact quiet_pure _
  · refine (hdogleg call).bind fun leg => (residual_quiet hA _ _).bind fun res => ?_
    split
    · exact quiet_pure _
    · refine (hpart (call + 1)).bind fun part => (residual_quiet hA _ _).bind fun res => ?_
      split <;> exact quiet_pure _

theorem finish_quiet (hA : A.Silent) (g : Vec F) (normG : F) (step cauchy : Vec F) (stop : QuasinormalStop)
    (iter : Nat) : (finish A g normG step cauchy stop iter).Quiet :=
  (residual_quiet hA g step).bind fun _ => (quiet_log (by decide) _).bind fun _ => quiet_pure _

theorem finish_unfaulty (A : Operator F) (g : Vec F) (normG : F) (step cauchy : Vec F) (stop : QuasinormalStop)
    (iter : Nat) : (finish A g normG step cauchy stop iter).Tells fun r => Faulty r.outcome :=
  tells_bind fun _ => tells_bind fun _ => tells_pure (not_faulty_ok _)

theorem fromCauchy_quiet (hA : A.Silent) (g : Vec F) (δ : F) (hsg : sg.Silent) (normG : F) (cauchy : Vec F) :
    (fromCauchy par A g δ sg normG cauchy).Quiet := by
  unfold fromCauchy
  refine (residual_quiet hA g cauchy).bind fun res => (hsg _ _ _).bind fun safe => ?_
  split
  · exact finish_quiet hA g normG _ _ _ _
  split
  · exact finish_quiet hA g normG _ _ _ _
  split
  · exact finish_quiet hA g normG _ _ _ _
  refine (NormalEquations.leastNorm_quiet hA (Vec.length_zeros _) (Nat.le_refl _)).bind fun newton => ?_
  split
  · exact quiet_pure _
  · refine (choose_quiet hA hsg _ _).bind ?_
    rintro ⟨step, stop⟩
    exact finish_quiet hA g normG _ _ _ _

theorem fromCauchy_tells (par : QuasinormalParam F) (A : Operator F) (g : Vec F) (δ : F) (sg : Safeguard F) (normG : F)
    (cauchy : Vec F) : (fromCauchy par A g δ sg normG cauchy).Tells fun r => Faulty r.outcome := by
  unfold fromCauchy
  refine tells_bind fun res => tells_bind fun safe => ?_
  split
  · exact finish_unfaulty A g normG _ _ _ _
  split
  · exact finish_unfaulty A g normG _ _ _ _
  split
  · exact finish_unfaulty A g normG _ _ _ _
  refine (NormalEquations.leastNorm_tells _ A g _ _).bind fun newton => ?_
  split
  case h_1 e he =>
    by_cases hfault : Faulty newton.outcome
    · exact .inl ⟨hfault, _, rfl⟩
    · rw [he] at hfault
      refine .inr (tells_pure fun h => hfault ?_)
      exact fun hstable => h fun e' he' => hstable e' (congrArg Except.error (Except.error.inj he'))
  case h_2 =>
    refine .inr (tells_bind ?_)
    rintro ⟨step, stop⟩
    exact finish_unfaulty A g normG _ _ _ _

theorem solve_quiet (hA : A.Silent) (hg : g.length = A.rows) (δ : F) (hsg : sg.Silent) {step cauchy : Vec F}
    (hstep : step.length = A.cols) (hcauchy : cauchy.length = A.cols) {work : Nat}
    (hwork : workLength A.rows A.cols ≤ work) : (solve par A g δ sg step cauchy work).Quiet := by
  unfold solve
  rw [if_neg (by simp [hg, hstep, hcauchy]), if_neg (Nat.not_lt.mpr hwork)]
  dsimp only
  split
  · exact quiet_pure _
  split
  · exact quiet_pure _
  refine (hA.applyTransposed _ _ _ _).bind fun d => (hA.apply _ _ _ _).bind fun Ad => ?_
  split
  · exact quiet_pure _
  · exact fromCauchy_quiet hA g δ hsg _ _

theorem solve_tells (par : QuasinormalParam F) (A : Operator F) (g : Vec F) (δ : F) (sg : Safeguard F)
    (step cauchy : Vec F) (work : Nat) : (solve par A g δ sg step cauchy work).Tells fun r => Faulty r.outcome := by
  unfold solve
  split
  · exact tells_error _ (by simp)
  split
  · exact tells_error _ (by simp)
  dsimp only
  split
  · exact tells_pure (not_faulty_ok _)
  split
  · exact tells_pure not_faulty_unstable
  refine tells_bind fun d => tells_bind fun Ad => ?_
  split
  · exact tells_pure (not_faulty_ok _)
  · exact fromCauchy_tells par A g δ sg _ _

end Quasinormal

/-! ### Truncated conjugate gradients -/

namespace TruncatedCG

/-- The parts of a model are quiet, the preconditioner and the projector on vectors of `n` components. -/
structure Model.Discreet (k : Model F) (n : Nat) : Prop where
  hessian : k.H.Silent
  preconditioner : k.B.Discreet n
  projector : k.C.Discreet n
  safeguard : k.safeguard.Silent

variable {k : Model F} {it : Iterate F}

theorem precondition_quiet (hk : k.Discreet n) (hfits : k.Fits n) {r : Vec F} (hr : r.length = n) :
    (precondition k r).Quiet := by
  have hzero : (Vec.zerosLike r).length = n := (Vec.length_zerosLike r).trans hr
  unfold precondition
  refine quiet_bind (hk.projector _ _ _ _ hr hzero) (hfits.projector.apply 1 r 0 _ hr hzero).ensures fun once honce => ?_
  refine (hk.projector _ _ _ _ honce hzero).bind fun twice => (quiet_lift _).bind fun change => ?_
  dsimp only
  split
  · exact quiet_pure _
  split
  · exact quiet_pure _
  refine quiet_bind (hk.preconditioner _ _ _ _ honce hzero) (hfits.preconditioner.apply 1 once 0 _ honce hzero).ensures
    fun b hb => (hk.projector _ _ _ _ hb hzero).bind fun z => ?_
  split <;> exact quiet_pure _

theorem followNegative_quiet (hk : k.Discreet n) (it : Iterate F) (p : Vec F) (rp κ : F) :
    (followNegative k it p rp κ).Quiet :=
  (quiet_lift _).bind fun _ => (hk.safeguard _ _ _).bind fun _ => (quiet_lift _).bind fun _ => quiet_pure _

theorem restart_quiet (hk : k.Discreet n) (it : Iterate F) (p : Vec F) (α fraction rp κ : F) :
    (restart k it p α fraction rp κ).Quiet := by
  unfold restart
  refine (quiet_lift _).bind fun s => (quiet_lift _).bind fun x => ?_
  dsimp only
  split
  · exact quiet_pure _
  · refine (quiet_log (by decide) _).bind fun _ => (hk.hessian.apply _ _ _ _).bind fun hs => ?_
    exact (quiet_lift _).bind fun r => quiet_pure _

theorem followPositive_quiet (hk : k.Discreet n) (it : Iterate F) (z p d : Vec F) (rz rp κ : F) :
    (followPositive k it z p d rz rp κ).Quiet := by
  unfold followPositive
  refine (quiet_lift _).bind fun target => (quiet_lift _).bind fun α => ?_
  dsimp only
  split
  · exact quiet_pure _
  refine (hk.safeguard _ _ _).bind fun fraction => ?_
  split
  · exact restart_quiet hk _ _ _ _ _ _
  refine (quiet_lift _).bind fun s => (quiet_lift _).bind fun x => ?_
  split
  · exact quiet_pure _
  · exact (quiet_lift _).bind fun r => quiet_pure _

theorem follow_quiet (hk : k.Discreet n) (it : Iterate F) (z p d : Vec F) (rz normZ : F) :
    (follow k it z p d rz normZ).Quiet := by
  unfold follow
  refine (quiet_lift _).bind fun κ => (quiet_lift _).bind fun rp => (quiet_log (by decide) _).bind fun _ => ?_
  split
  · exact followNegative_quiet hk _ _ _ _
  · exact followPositive_quiet hk _ _ _ _ _ _ _

theorem pass_quiet (hk : k.Discreet n) (hfits : k.Fits n) (hr : it.r.length = n) : (pass k it).Quiet := by
  unfold pass
  refine (precondition_quiet hk hfits hr).bind fun out => ?_
  split
  · exact quiet_pure _
  dsimp only
  generalize (if it.iter = 0 then _ else it) = it
  split
  · exact quiet_pure _
  refine (quiet_lift _).bind fun rz => (quiet_lift _).bind fun fault => ?_
  split
  · exact quiet_pure _
  refine (quiet_lift _).bind fun p => (hk.hessian.apply _ _ _ _).bind fun d => ?_
  split
  · exact quiet_pure _
  refine (quiet_lift _).bind fun fault => ?_
  split
  · exact quiet_pure _
  · exact follow_quiet hk _ _ _ _ _ _

theorem iterate_quiet (hk : k.Discreet n) (hfits : k.Fits n) (budget : Nat) (hit : it.Sized n) :
    (iterate k budget it).Quiet := by
  induction budget generalizing it with
  | zero => exact quiet_pure _
  | succ budget ih =>
    refine quiet_bind (pass_quiet hk hfits hit.r) (pass_sized hfits hit).ensures ?_
    rintro (it | ⟨reason, it⟩) hit
    · exact ih hit
    · exact quiet_pure _

theorem solve_quiet (hk : k.Discreet n) (hfits : k.Fits n) {offset s : Vec F} (hoffset : offset.length = n)
    (hs : s.length = n) {work : Nat} (hwork : workLength n k.par.orthogMax ≤ work) : (solve k offset s work).Quiet := by
  have hstart : (start k.g offset).Sized n :=
    ⟨(Vec.length_zerosLike _).trans hfits.gradient, hoffset, (Vec.length_scale _ _).trans hfits.gradient, nofun, nofun⟩
  unfold solve
  dsimp only
  rw [if_neg (by simp [Operator.size, hfits.gradient, hfits.hessian.rows, hfits.hessian.cols,
    hfits.preconditioner.rows, hfits.preconditioner.cols, hfits.projector.rows, hfits.projector.cols]),
    if_neg (by simp [hfits.gradient, hoffset, hs]), if_neg (by rw [hfits.gradient]; exact Nat.not_lt.mpr hwork)]
  have hfault : (offsetFault? offset k.δ k.safeguard).Quiet := by
    unfold offsetFault?
    dsimp only
    split
    · exact (quiet_log (by decide) _).bind fun _ => quiet_pure _
    · refine (hk.safeguard _ _ _).bind fun fraction => ?_
      split
      · exact (quiet_log (by decide) _).bind fun _ => quiet_pure _
      · exact quiet_pure _
  refine hfault.bind fun fault => ?_
  split
  · exact quiet_pure _
  · refine (iterate_quiet hk hfits _ hstart).bind ?_
    rintro ⟨reason, it⟩
    exact (quiet_log (by decide) _).bind fun _ => quiet_pure _

theorem solve_tells (k : Model F) (offset s : Vec F) (work : Nat) : (solve k offset s work).Tells Faulty := by
  unfold solve
  dsimp only
  split
  · exact tells_error _ (by simp)
  split
  · exact tells_error _ (by simp)
  split
  · exact tells_error _ (by simp)
  refine tells_bind fun fault => ?_
  split
  · exact tells_pure (not_faulty_ok _)
  · refine tells_bind ?_
    rintro ⟨reason, it⟩
    exact tells_bind fun _ => tells_pure (not_faulty_ok _)

end TruncatedCG

/-! ### The barrier Lagrangian -/

namespace Barrier
variable {p : Problem F} {x h y : Vec F}

theorem hessian_silent (p : Problem F) (x y h : Vec F) (μ : F) : (hessian p x y h μ).Silent := by
  have hbarrier : ∀ (c : Constraint F) (dx t : Vec F), (inequalityHessian c x h μ dx t).Quiet := fun c _ _ =>
    ((c.jacobian_silent x).apply _ _ _ _).bind fun _ => (quiet_lift _).bind fun _ => (quiet_lift _).bind fun _ =>
      ((c.jacobian_silent x).applyTransposed _ _ _ _).bind fun _ => (quiet_lift _).bind fun _ =>
        (quiet_lift _).bind fun _ => quiet_lift _
  refine Operator.selfAdjoint_silent fun a dx b out => (quiet_lift _).bind fun t => ?_
  refine Quiet.bind ?_ fun t => Quiet.bind ?_ fun _ => quiet_lift _
  · split
    · exact quiet_pure _
    · exact (quiet_lift _).bind fun _ => quiet_lift _
  · split
    · exact quiet_pure _
    · exact hbarrier _ dx t

theorem gradient_quiet (p : Problem F) (x h : Vec F) (μ : F) (size : Nat) : (gradient p x h μ size).Quiet := by
  unfold gradient
  refine (quiet_lift _).bind fun out => ?_
  split
  · exact quiet_pure _
  case h_2 c _ => exact (quiet_lift _).bind fun w => (c.jacobian_silent x).applyTransposed _ _ _ _

theorem multipliers_quiet (hp : p.Fills n) (par : NormalParam F) (hx : x.length = n) {φ : Vec F} (hφ : φ.length = n)
    (hy : y.length = p.equalities) : (multipliers p par x φ y).Quiet := by
  unfold multipliers
  split
  · exact quiet_pure _
  case h_2 c hc =>
    have hfills := hp.equality c hc
    have hA := c.jacobian_silent x
    have hzero : (Vec.zeros c.rows : Vec F).length = p.equalities := (Vec.length_zeros _).trans hfills.rows
    refine quiet_bind (hA.apply _ _ _ _) ((hfills.jacobian hx).apply (-1) φ 0 _ hφ hzero).ensures fun b hb => ?_
    refine (NormalEquations.solve_quiet hA (hb.trans hfills.rows.symm) (hy.trans hfills.rows.symm) ?_).bind fun s => ?_
    · exact NormalEquations.solveWorkLength_le _ _
    · exact quiet_pure _

theorem lagrangianGradient_quiet (hp : p.Fills n) (par : NormalParam F) (updateY : Bool) (hx : x.length = n)
    (hh : h.length = p.inequalities) (hy : y.length = p.equalities) (μ : F) :
    (lagrangianGradient p par updateY x h y μ n).Quiet := by
  unfold lagrangianGradient
  refine quiet_bind (gradient_quiet p x h μ n) (gradient_sized hp hx hh μ).ensures fun φ hφ => ?_
  split
  · exact quiet_pure _
  case h_2 c hc =>
    have hmultipliers : Quiet (if updateY then multipliers p par x φ y else return (y, .ok ()) :
        Journaled F (Vec F × Except StepError Unit)) := by
      split
      · exact multipliers_quiet hp par hx hφ hy
      · exact quiet_pure _
    refine hmultipliers.bind ?_
    rintro ⟨y, outcome⟩
    dsimp only
    split
    · exact quiet_pure _
    · exact ((c.jacobian_silent x).applyTransposed _ _ _ _).bind fun _ => quiet_pure _

end Barrier

/-! ### The solves of a step -/

omit [Scalar F] in
/-- The preconditioner of the problem, which may keep a journal of its own, writes no error there. -/
def Problem.Discreet (p : Problem F) (n : Nat) : Prop := ∀ b, p.preconditioner = some b → b.Discreet n

variable {k : Setup F} {s : State F}

theorem Setup.hessian_silent (k : Setup F) (s : State F) : (k.hessian s).Silent := by
  unfold Setup.hessian
  split
  · exact Barrier.hessian_silent _ _ _ _ _
  · exact QuasiNewton.operator_silent _ _ _ _

theorem Setup.preconditioner_discreet (hk : k.problem.Discreet k.n) (s : State F) :
    (k.preconditioner s).Discreet k.n := by
  unfold Setup.preconditioner
  split
  case h_1 b _ hb => exact hk b hb
  case h_2 => exact (QuasiNewton.operator_silent _ _ _ _).discreet _

theorem Setup.safeguard_silent (k : Setup F) (s : State F) (κ : F) :
    (k.safeguard s κ).Ensures fun r => ∀ sg, r = .ok sg → sg.Silent := by
  unfold Setup.safeguard
  split
  · refine ensures_pure ?_
    rintro _ ⟨⟩
    exact Safeguard.unlimited_silent
  case h_2 c _ => exact Safeguard.linear_silent (c.jacobian_silent s.x) _ _ _

namespace Setup.Sized
variable (hp : k.problem.Fills k.n) (hs : k.Sized s)
include hp hs

theorem safeguard_settles (κ : F) :
    (k.safeguard s κ).Settles fun r => ∃ sg, r = .ok sg ∧ sg.Fills k.n ∧ sg.Silent where
  yields := ((hs.safeguard_fills hp κ).and (k.safeguard_silent s κ)).mono fun r ⟨⟨sg, hr, hfills⟩, hsilent⟩ =>
    ⟨sg, hr, hfills, hsilent sg hr⟩
  quiet := by
    unfold Setup.safeguard
    split
    · exact quiet_pure _
    case h_2 c hc =>
      have hrows := (hp.inequality c hc).rows
      refine Safeguard.linear_quiet (A := c.jacobian s.x) (hs.h.trans hrows.symm) κ (Nat.le_of_eq ?_)
      exact congrArg Safeguard.workLength hrows

theorem projector_discreet : (TrustRegion.projector k s).Discreet k.n := by
  unfold TrustRegion.projector
  split
  · exact (Operator.identity_silent _).discreet _
  case h_2 c hc =>
    exact Barrier.nullProjector_discreet (c.jacobian_silent s.x) ((hp.equality c hc).jacobian hs.x) k.par.normalEq

theorem quasinormal_quiet {c : Constraint F} (hc : k.problem.equality = some c) {sg : Safeguard F} (hsg : sg.Silent) :
    (Quasinormal.solve k.par.quasinormal (c.jacobian s.x) s.g s.delta sg s.dxNormal s.dxCauchy
      (Quasinormal.workLength k.equalities k.n)).Quiet := by
  have hfills := hp.equality c hc
  refine Quasinormal.solve_quiet (c.jacobian_silent s.x) (hs.g.trans hfills.rows.symm) _ hsg
    (hs.dxNormal.trans hfills.cols.symm) (hs.dxCauchy.trans hfills.cols.symm) (Nat.le_of_eq ?_)
  change Quasinormal.workLength c.rows c.cols = _
  rw [hfills.rows, hfills.cols]
  rfl

theorem tangentialSolve_quiet (hk : k.problem.Discreet k.n) : (TrustRegion.tangentialSolve k s).Quiet := by
  have hH := hs.hessian_fills hp
  unfold TrustRegion.tangentialSolve
  refine quiet_bind ((k.hessian_silent s).apply _ _ _ _) (hH.apply 1 _ 1 _ hs.dxNormal hs.grad).ensures fun g hg => ?_
  have hsg := hs.safeguard_settles hp k.par.gamma
  refine quiet_bind hsg.quiet hsg.yields.ensures ?_
  rintro _ ⟨sg, rfl, hfills, hsilent⟩
  exact TruncatedCG.solve_quiet
    ⟨k.hessian_silent s, Setup.preconditioner_discreet hk s, hs.projector_discreet hp, hsilent⟩
    ⟨hH, hs.preconditioner_fills hp, hs.projector_fills hp, hg, hfills⟩ hs.dxNormal hs.dxTangential (Nat.le_refl _)

omit hp hs in
theorem modelAndViolation_quiet (k : Setup F) (s : State F) : (TrustRegion.modelAndViolation k s).Quiet := by
  unfold TrustRegion.modelAndViolation
  refine ((k.hessian_silent s).apply _ _ _ _).bind fun hdx => (quiet_lift _).bind fun sloped => ?_
  refine (quiet_lift _).bind fun curved => ?_
  dsimp only
  split
  · exact quiet_pure _
  case h_2 c _ => exact ((c.jacobian_silent s.x).apply _ _ _ _).bind fun _ => quiet_pure _

/-- The parts of the model of a Newton direction fit the iterate. -/
theorem newton_fits : TruncatedCG.Model.Fits ⟨k.par.truncated, k.hessian s, k.preconditioner s, Operator.identity k.n,
    s.grad, Scalar.infinity, .unlimited⟩ k.n :=
  ⟨hs.hessian_fills hp, hs.preconditioner_fills hp, Operator.identity_fills _, hs.grad, Safeguard.unlimited_fills _⟩

theorem newtonSolve_sized {last : Vec F} (hlast : last.length = k.n) :
    (LineSearch.newtonSolve k s last).Yields fun out => ∃ r, out = .ok r ∧ r.step.length = k.n :=
  TruncatedCG.solve_sized (hs.newton_fits hp) (Vec.length_zeros _) hlast (Nat.le_refl _)

theorem newtonSolve_quiet (hk : k.problem.Discreet k.n) {last : Vec F} (hlast : last.length = k.n) :
    (LineSearch.newtonSolve k s last).Quiet := by
  have hdiscreet : TruncatedCG.Model.Discreet ⟨k.par.truncated, k.hessian s, k.preconditioner s,
      Operator.identity k.n, s.grad, Scalar.infinity, .unlimited⟩ k.n :=
    ⟨k.hessian_silent s, Setup.preconditioner_discreet hk s, (Operator.identity_silent _).discreet _,
      Safeguard.unlimited_silent⟩
  exact TruncatedCG.solve_quiet hdiscreet (hs.newton_fits hp) (Vec.length_zeros _) hlast (Nat.le_refl _)

end Setup.Sized

/-! ### Faults -/

/-- No auxiliary solve ends in a fault of sizes or of work slices without telling it. -/
structure FaultsTold (F : Type) [Scalar F] : Prop where
  normalEquations : ∀ (par : NormalParam F) A b w work,
    (NormalEquations.solve par A b w work).Tells fun s => Faulty s.outcome
  leastNorm : ∀ (par : NormalParam F) A g u work,
    (NormalEquations.leastNorm par A g u work).Tells fun s => Faulty s.outcome
  projection : ∀ (par : NormalParam F) A v u work,
    (NormalEquations.project par A v u work).Tells fun s => Faulty s.outcome
  safeguard : ∀ (A : Operator F) h κ work, (Safeguard.linear A h κ work).Tells Faulty
  quasinormal : ∀ (par : QuasinormalParam F) A g δ sg step cauchy work,
    (Quasinormal.solve par A g δ sg step cauchy work).Tells fun r => Faulty r.outcome
  truncated : ∀ (k : TruncatedCG.Model F) offset s work, (TruncatedCG.solve k offset s work).Tells Faulty

theorem faults_told : FaultsTold F where
  normalEquations := NormalEquations.solve_tells
  leastNorm := NormalEquations.leastNorm_tells
  projection := NormalEquations.project_tells
  safeguard := Safeguard.linear_tells
  quasinormal := Quasinormal.solve_tells
  truncated := TruncatedCG.solve_tells

end ConstrainedOpt
