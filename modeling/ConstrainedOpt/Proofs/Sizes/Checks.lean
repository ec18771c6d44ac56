import ConstrainedOpt.Diagnostics
import ConstrainedOpt.Proofs.Assertion.Quiet
import ConstrainedOpt.Proofs.Sizes.Operators

/-! # Diagnostics that answer

On functions that fill their sizes every check answers, whatever the values are, and none of them writes an error.
-/
namespace ConstrainedOpt
open Journaled Checked
variable {F : Type} [Scalar F] {m n : Nat} {x y d e : Vec F}

theorem Generator.length_vector (n : Nat) (g : Generator) : (g.vector n : Vec F × Generator).1.length = n := by
  induction n generalizing g with
  | zero => rfl
  | succ n ih => exact congrArg (· + 1) (ih g.next.2)

theorem Checked.answers_prod (hx : x.length = n) (hy : y.length = n) : (prod x y).Answers fun z => z.length = n := by
  refine ⟨_, guarded_eq_ok.mpr ⟨hx.trans hy.symm, rfl⟩, ?_⟩
  simp [Vec.prod, hx, hy]

namespace Diagnostics

/-- Two vectors of one length have a relative error. -/
theorem answers_relativeErrorVec (hx : x.length = n) (hy : y.length = n) :
    (relativeErrorVec x y).Answers fun _ => True :=
  answers_bind (answers_add (-1) hy hx) fun _ _ => ⟨_, rfl, trivial⟩

omit [Scalar F] in
theorem errorReport_settles (title : String) (err : F) : (errorReport title err).Settles fun _ => True :=
  settles_bind (settles_note trivial) fun _ _ => settles_bind (settles_note (n := .record .debug _) nofun) fun _ _ =>
    settles_pure trivial

/-- The report of the error of two vectors of one length. -/
theorem differenceReport_settles (title : String) {errorAt : F → Checked F}
    (h : ∀ ε, (errorAt ε).Answers fun _ => True) : (differenceReport title errorAt).Settles fun _ => True := by
  have hsteps : ∀ (ks : List Nat) (best : F), (stepReport errorAt ks best).Settles fun _ => True := by
    intro ks
    induction ks with
    | nil => exact fun _ => settles_pure trivial
    | cons k ks ih =>
      exact fun _ => settles_bind (settles_lift (h _)) fun _ _ => settles_bind (settles_note trivial) fun _ _ => ih _
  exact settles_bind (settles_note trivial) fun _ _ => settles_bind (hsteps _ _) fun _ _ =>
    settles_bind (settles_note (n := .record .debug _) nofun) fun _ _ => settles_pure trivial

/-- The difference of a function that fills `m` components. -/
theorem answers_difference {f : Vec F → Checked (Vec F)} (hf : ∀ x, x.length = n → (f x).Answers fun v => v.length = m)
    (hx : x.length = n) (hd : d.length = n) (ε : F) : (difference f x d ε).Answers fun v => v.length = m := by
  refine answers_bind (answers_add ε hd hx) fun a ha => answers_bind (hf a ha) fun up hup => ?_
  refine answers_bind (answers_add (-ε) hd hx) fun b hb => answers_bind (hf b hb) fun down hdown => ?_
  exact answers_bind (answers_add (-1) hdown hup) fun v hv => ⟨_, rfl, (Vec.length_scale _ _).trans hv⟩

/-- The check of a derivative that fills as many components as its function. -/
theorem differenceReport_settlesVec (title : String) {f : Vec F → Checked (Vec F)}
    (hf : ∀ x, x.length = n → (f x).Answers fun v => v.length = m) (hx : x.length = n) (hd : d.length = n)
    {exact : Vec F} (hexact : exact.length = m) :
    (differenceReport title fun ε => do relativeErrorVec (← difference f x d ε) exact).Settles fun _ => True :=
  differenceReport_settles title fun ε => answers_bind (answers_difference hf hx hd ε) fun _ hv =>
    answers_relativeErrorVec hv hexact

/-! ### Functions -/

theorem checkObjective_settles {f : Objective F} (hf : f.Fills n) (second : Bool) (hx : x.length = n)
    (hd : d.length = n) (he : e.length = n) : (checkObjective f second x d e).Settles fun _ => True := by
  have hgradient : (gradientCheck f x d).Settles fun _ => True := by
    unfold gradientCheck
    rw [hx]
    refine settles_bind (settles_lift (hf.gradient x hx)) fun v hv => ?_
    refine settles_bind (settles_lift (answers_inner hv hd)) fun slope _ => differenceReport_settles _ fun ε => ?_
    refine answers_bind (answers_add ε hd hx) fun a ha => answers_bind (hf.value a ha) fun up _ => ?_
    exact answers_bind (answers_add (-ε) hd hx) fun b hb => answers_bind (hf.value b hb) fun down _ => ⟨_, rfl, trivial⟩
  have hhessian : (hessianCheck f x d).Settles fun _ => True := by
    unfold hessianCheck
    rw [hx]
    refine settles_bind (settles_lift (hf.hessian x d hx hd)) fun v hv => ?_
    exact differenceReport_settlesVec _ hf.gradient hx hd hv
  have hsymmetry : (hessianSymmetryCheck f x d e).Settles fun _ => True := by
    unfold hessianSymmetryCheck
    rw [hx]
    refine settles_bind (settles_lift (hf.hessian x d hx hd)) fun u hu => ?_
    refine settles_bind (settles_lift (hf.hessian x e hx he)) fun v hv => ?_
    refine settles_bind (settles_lift (answers_inner hu he)) fun a _ => ?_
    exact settles_bind (settles_lift (answers_inner hd hv)) fun b _ => errorReport_settles _ _
  unfold checkObjective
  refine settles_bind (settles_note trivial) fun _ _ => settles_bind hgradient fun first _ => ?_
  split
  · exact settles_pure trivial
  · exact settles_bind hhessian fun _ _ => settles_bind hsymmetry fun _ _ => settles_pure trivial

theorem checkConstraint_settles (name : String) {c : Option (Constraint F)} (hc : ∀ c', c = some c' → c'.Fills c'.rows n)
    (second : Bool) (hx : x.length = n) (hd : d.length = n) (g : Generator) :
    (checkConstraint name c second x d g).Settles fun _ => True := by
  unfold checkConstraint
  split
  · exact settles_pure trivial
  case h_2 c =>
    have hc := hc c rfl
    have hw := Generator.length_vector (F := F) c.rows g
    dsimp only
    have hforward : (derivativeCheck c x d).Settles fun _ => True :=
      settles_bind (settles_lift (hc.forward x d hx hd)) fun v hv => differenceReport_settlesVec _ hc.value hx hd hv
    have hadjoint : (adjointCheck c x d (g.vector c.rows).1).Settles fun _ => True := by
      unfold adjointCheck
      rw [hc.cols]
      refine settles_bind (settles_lift (hc.forward x d hx hd)) fun u hu => ?_
      refine settles_bind (settles_lift (hc.adjoint x _ hx hw)) fun v hv => ?_
      refine settles_bind (settles_lift (answers_inner hu hw)) fun a _ => ?_
      exact settles_bind (settles_lift (answers_inner hd hv)) fun b _ => errorReport_settles _ _
    have hsecond : (secondDerivativeCheck c x d (g.vector c.rows).1).Settles fun _ => True := by
      unfold secondDerivativeCheck
      rw [hc.cols]
      refine settles_bind (settles_lift (hc.second x d _ hx hd hw)) fun v hv => ?_
      exact differenceReport_settlesVec _ (fun x hx => hc.adjoint x _ hx hw) hx hd hv
    refine settles_bind (settles_note trivial) fun _ _ => settles_bind hforward fun _ _ => ?_
    refine settles_bind hadjoint fun _ _ => ?_
    split
    · exact settles_pure trivial
    · exact settles_bind hsecond fun _ _ => settles_pure trivial

/-! ### The vector space and its algebra -/

theorem spaceCheck_settles (hx : x.length = n) (hy : y.length = n) : (spaceCheck x y).Settles fun _ => True := by
  have hscale : ∀ (a : F) {v : Vec F}, v.length = n → (Vec.scale a v).length = n := fun a v hv =>
    (Vec.length_scale a v).trans hv
  have hzero : (Vec.zerosLike x).length = n := (Vec.length_zerosLike x).trans hx
  unfold spaceCheck
  refine settles_bind (settles_lift (answers_add 1 hy hx)) fun xy hxy => ?_
  refine settles_bind (settles_lift (answers_add 1 hx hy)) fun yx hyx => ?_
  refine settles_bind (settles_lift (answers_relativeErrorVec hxy hyx)) fun _ _ => ?_
  refine settles_bind (errorReport_settles _ _) fun commutes _ => ?_
  refine settles_bind (settles_lift (answers_add _ hy (hscale _ hx))) fun right hright => ?_
  refine settles_bind (settles_lift (answers_relativeErrorVec (hscale _ hxy) hright)) fun _ _ => ?_
  refine settles_bind (errorReport_settles _ _) fun distributes _ => ?_
  refine settles_bind (settles_lift (answers_copy hx hzero)) ?_
  rintro _ rfl
  refine settles_bind (settles_lift (answers_relativeErrorVec hx hx)) fun _ _ => ?_
  refine settles_bind (errorReport_settles _ _) fun copies _ => settles_bind (errorReport_settles _ _) fun clears _ => ?_
  refine settles_bind (settles_lift (answers_inner hx hy)) fun a _ => ?_
  refine settles_bind (settles_lift (answers_inner hy hx)) fun b _ => ?_
  refine settles_bind (errorReport_settles _ _) fun symmetric _ => settles_bind (errorReport_settles _ _) fun normed _ => ?_
  exact settles_pure trivial

theorem jordanCheck_settles (hx : x.length = n) (hy : y.length = n) : (jordanCheck x y).Settles fun _ => True := by
  have hone : (Vec.ones x.length : Vec F).length = n := (Vec.length_ones _).trans hx
  unfold jordanCheck
  refine settles_bind (settles_lift (answers_prod hx hy)) fun xy hxy => ?_
  refine settles_bind (settles_lift (answers_prod hy hx)) fun yx hyx => ?_
  refine settles_bind (settles_lift (answers_relativeErrorVec hxy hyx)) fun _ _ => ?_
  refine settles_bind (errorReport_settles _ _) fun commutes _ => ?_
  refine settles_bind (settles_lift (answers_prod hone hx)) fun ex hex => ?_
  refine settles_bind (settles_lift (answers_relativeErrorVec hex hx)) fun _ _ => ?_
  refine settles_bind (errorReport_settles _ _) fun identity _ => ?_
  refine settles_bind (settles_lift (answers_prod hx hx)) fun xx hxx => ?_
  refine settles_bind (settles_lift (answers_add 1 hone hxx)) fun p hp => ?_
  refine settles_bind (settles_lift (answers_prod hp hy)) fun py hpy => ?_
  refine settles_bind (settles_lift (answers_quotient hp hpy)) fun q hq => ?_
  refine settles_bind (settles_lift (answers_relativeErrorVec hq hy)) fun _ _ => ?_
  refine settles_bind (errorReport_settles _ _) fun inverse _ => ?_
  have hroot : (Vec.sqrt p).length = n := (List.length_map _).trans hp
  refine settles_bind (settles_lift (answers_prod hroot hroot)) fun square hsquare => ?_
  refine settles_bind (settles_lift (answers_relativeErrorVec hsquare hp)) fun _ _ => ?_
  refine settles_bind (errorReport_settles _ _) fun squared _ => settles_bind (errorReport_settles _ _) fun barrier _ => ?_
  refine settles_bind (settles_lift (answers_boundaryLength ((Vec.length_scale _ _).trans hone) hone)) fun reach _ => ?_
  exact settles_bind (errorReport_settles _ _) fun search _ => settles_pure trivial

/-! ### All of them -/

variable {p : Problem F}

theorem checkSpace_settles (p : Problem F) (checks : SpaceChecks) (k : Nat) (hd : d.length = n) (he : e.length = n)
    (g : Generator) : (checkSpace p checks k d e g).Settles fun _ => True := by
  unfold checkSpace
  split
  · exact settles_pure trivial
  refine settles_bind (settles_note trivial) fun _ _ => settles_bind (spaceCheck_settles hd he) fun _ _ => ?_
  split
  · exact settles_pure trivial
  · refine settles_bind (settles_note trivial) fun _ _ => ?_
    refine settles_bind (jordanCheck_settles (Generator.length_vector _ _) (Generator.length_vector _ _)) fun _ _ => ?_
    exact settles_pure trivial

theorem run_settles (hp : p.Fills n) (hx : x.length = n) (functions : FunctionChecks) (space : SpaceChecks) :
    (run p x functions space).Settles fun _ => True := by
  have hrows : ∀ {c : Constraint F} {m : Nat}, c.Fills m n → c.Fills c.rows n := fun h => h.rows.symm ▸ h
  have hd : ((Generator.ofSeed seed).vector x.length : Vec F × Generator).1.length = n :=
    (Generator.length_vector _ _).trans hx
  have he : ∀ g : Generator, (g.vector x.length : Vec F × Generator).1.length = n := fun g =>
    (Generator.length_vector _ g).trans hx
  unfold run
  refine settles_bind (P := fun _ => True) ?_ fun r _ => ?_
  · unfold checkFunctions
    split
    · exact settles_pure trivial
    · refine settles_bind (checkObjective_settles hp.objective _ hx hd (he _)) fun _ _ => ?_
      refine settles_bind (checkConstraint_settles _ (fun c hc => hrows (hp.equality c hc)) _ hx hd _) fun r _ => ?_
      refine settles_bind (checkConstraint_settles _ (fun c hc => hrows (hp.inequality c hc)) _ hx hd _) fun r' _ => ?_
      exact settles_pure trivial
  · exact settles_bind (checkSpace_settles p space _ hd (he _) _) fun _ _ => settles_pure trivial

end Diagnostics
end ConstrainedOpt
