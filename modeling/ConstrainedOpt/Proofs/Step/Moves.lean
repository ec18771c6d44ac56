import ConstrainedOpt.Proofs.Step.Effort

/-! # How a pass of truncated conjugate gradients moves

Whatever the operators of a model answer, a pass leaves the step where it is, or it moves along one direction: by the
length to the boundary of the trust region or to the minimum of the model, and by what the safeguard leaves of it. `Move`
lists the ways with the computations behind them, so that what holds of every step is proved by its cases.
-/
namespace ConstrainedOpt
open Journaled

theorem TruncatedStop.not_isBoundary {reason : TruncatedStop} (h : reason.isNumericalFailure = true) :
    reason.isBoundary = false := by
  cases reason <;> first | rfl | cases h

namespace TruncatedCG
variable {F : Type} [Scalar F] {k : Model F} {start it : Iterate F} {z p hp : Vec F} {rz κ : F}

/-- A pass from `it` comes to the direction `p`, which the Hessian takes to `hp`, with the curvature `κ`. -/
structure Heads (k : Model F) (it : Iterate F) (z p hp : Vec F) (rz κ : F) : Prop where
  preconditioned : Vec.isFinite z = true
  slope : Checked.inner it.r z = .ok rz
  direction : TruncatedCG.direction it z rz = .ok p
  image : (k.H.apply 1 p 0 (Vec.zerosLike p)).Returns hp
  finite : Vec.isFinite hp = true
  curvature : Checked.inner p hp = .ok κ

/-- A direction that curves upwards is followed by the length `α`, to the target or to the boundary before it. -/
structure Stride (k : Model F) (it : Iterate F) (p : Vec F) (rz κ : F) (target : Vec F) (α : F) : Prop where
  curved : ¬ κ ≤ 0
  ends : Checked.add (rz / κ) p it.x = .ok target
  length : (if decide (k.δ ≤ Vec.norm target) = true then Sphere.exit 0 it.x p k.δ else .ok (rz / κ)) = .ok α

/-- What the safeguard may leave of the move by `α` along `p`. -/
def Leaves (k : Model F) (it : Iterate F) (p : Vec F) (α θ : F) : Prop :=
  ∃ call, (k.safeguard.fraction call it.x (Vec.scale α p)).Returns θ

/-- The ways of a pass from `it`. -/
inductive Move (k : Model F) (it : Iterate F) : Progress F → Prop
  /-- It stops where it is. -/
  | stay {reason : TruncatedStop} {it' : Iterate F} (hreason : reason.isBoundary = false) (hs : it'.s = it.s)
      (hmodel : it'.model = it.model) : Move k it (.stop reason it')
  /-- A direction that does not curve upwards is followed to the boundary. -/
  | flat {z p hp : Vec F} {rz κ σ θ : F} {it' : Iterate F} (hheads : Heads k it z p hp rz κ)
      (hσ : (if Scalar.isFinite k.δ then Sphere.exit 0 it.x p k.δ
        else if Vec.norm it.s == 0 then .ok 1 else .ok 0) = .ok σ)
      (hθ : Leaves k it p σ θ) (hs : Checked.add (σ * θ) p it.s = .ok it'.s)
      (hmodel : ∃ rp, it'.model = modelAfter it.model (σ * θ) rp κ) (hflat : κ ≤ 0) :
      Move k it (.stop .negativeCurvature it')
  /-- The safeguard cuts the move, once too often. -/
  | stuck {z p hp target : Vec F} {rz κ α θ : F} {it' : Iterate F} (hheads : Heads k it z p hp rz κ)
      (hstride : Stride k it p rz κ target α) (hθ : Leaves k it p α θ) (hs : Checked.add (α * θ) p it.s = .ok it'.s)
      (hmodel : ∃ rp, it'.model = modelAfter it.model (α * θ) rp κ) : Move k it (.stop .tooManyFailedSafeguard it')
  /-- The safeguard cuts the move, and the residual is computed anew. -/
  | cut {z p hp target image gradient : Vec F} {rz κ α θ : F} {it' : Iterate F} (hheads : Heads k it z p hp rz κ)
      (hstride : Stride k it p rz κ target α) (hθ : Leaves k it p α θ) (hs : Checked.add (α * θ) p it.s = .ok it'.s)
      (hx : Checked.add (α * θ) p it.x = .ok it'.x) (himage : (k.H.apply 1 it'.s 0 (Vec.zerosLike it'.s)).Returns image)
      (hgradient : Checked.add 1 k.g image = .ok gradient) (hr : it'.r = Vec.scale (-1) gradient)
      (hprevious : it'.previous = none) (hmodel : ∃ rp, it'.model = modelAfter it.model (α * θ) rp κ) : Move k it (.next it')
  /-- The whole move ends on the boundary. -/
  | cross {z p hp target : Vec F} {rz κ α θ : F} {it' : Iterate F} (hheads : Heads k it z p hp rz κ)
      (hstride : Stride k it p rz κ target α) (hout : k.δ ≤ Vec.norm target) (hθ : Leaves k it p α θ) (hfull : ¬ θ < 1)
      (hs : Checked.add α p it.s = .ok it'.s) (hmodel : ∃ rp, it'.model = modelAfter it.model α rp κ) :
      Move k it (.stop .trustRegionViolated it')
  /-- The whole move ends at the target. -/
  | full {z p hp target : Vec F} {rz κ α θ : F} {it' : Iterate F} (hheads : Heads k it z p hp rz κ)
      (hstride : Stride k it p rz κ target α) (hθ : Leaves k it p α θ) (hfull : ¬ θ < 1)
      (hs : Checked.add α p it.s = .ok it'.s) (hx : Checked.add α p it.x = .ok it'.x)
      (hr : Checked.add (-α) hp it.r = .ok it'.r) (hprevious : it'.previous = some ⟨it.r, z, p, hp, rz⟩)
      (hmodel : ∃ rp, it'.model = modelAfter it.model α rp κ) : Move k it (.next it')

/-- Until it moves a pass keeps the step, the residual, the model and what it remembers of the last one. -/
structure Iterate.Keeps (start it : Iterate F) : Prop where
  s : it.s = start.s
  x : it.x = start.x
  r : it.r = start.r
  model : it.model = start.model
  previous : it.previous = start.previous

section Follow
variable (hkeeps : start.Keeps it) (hheads : Heads k start z p hp rz κ)
include hkeeps hheads

theorem followNegative_moves (hflat : κ ≤ 0) (rp : F) : (followNegative k it p rp κ).Ensures (Move k start) := by
  unfold followNegative
  refine ensures_bind (ensures_lift fun σ hσ => hσ) fun σ hσ => ?_
  refine ensures_bind (ensures_returns _) fun θ hθ => ?_
  refine ensures_bind (ensures_lift fun s hs => hs) fun s hs => ?_
  rw [hkeeps.s, hkeeps.x] at hσ
  rw [hkeeps.x] at hθ
  rw [hkeeps.s] at hs
  exact ensures_pure (.flat hheads hσ ⟨_, hθ⟩ hs ⟨rp, congrArg (modelAfter · _ rp κ) hkeeps.model⟩ hflat)

theorem restart_moves {target : Vec F} {α θ : F} (hstride : Stride k start p rz κ target α) (hθ : Leaves k start p α θ)
    (rp : F) : (restart k it p α θ rp κ).Ensures (Move k start) := by
  unfold restart
  refine ensures_bind (ensures_lift fun s hs => hs) fun s hs => ?_
  refine ensures_bind (ensures_lift fun x hx => hx) fun x hx => ?_
  rw [hkeeps.s] at hs
  rw [hkeeps.x] at hx
  dsimp only
  split
  · exact ensures_pure (.stuck hheads hstride hθ hs ⟨rp, congrArg (modelAfter · _ rp κ) hkeeps.model⟩)
  · refine ensures_bind (ensures_true _) fun _ _ => ensures_bind (ensures_returns _) fun image himage => ?_
    refine ensures_bind (ensures_lift fun r hr => hr) fun gradient hgradient => ?_
    exact ensures_pure (.cut hheads hstride hθ hs hx himage hgradient rfl rfl
      ⟨rp, congrArg (modelAfter · _ rp κ) hkeeps.model⟩)

theorem followPositive_moves (hcurved : ¬ κ ≤ 0) (rp : F) :
    (followPositive k it z p hp rz rp κ).Ensures (Move k start) := by
  unfold followPositive
  refine ensures_bind (ensures_lift fun target htarget => htarget) fun target htarget => ?_
  dsimp only
  refine ensures_bind (ensures_lift fun α hα => hα) fun α hα => ?_
  rw [hkeeps.x] at htarget hα
  have hstride : Stride k start p rz κ target α := ⟨hcurved, htarget, hα⟩
  split
  · exact ensures_pure (.stay rfl hkeeps.s hkeeps.model)
  · refine ensures_bind (ensures_returns _) fun θ hθ => ?_
    rw [hkeeps.x] at hθ
    have hkeeps' : start.Keeps { it with calls := it.calls + 1 } :=
      ⟨hkeeps.s, hkeeps.x, hkeeps.r, hkeeps.model, hkeeps.previous⟩
    split
    case isTrue => exact restart_moves hkeeps' hheads hstride ⟨_, hθ⟩ rp
    case isFalse hfull =>
      refine ensures_bind (ensures_lift fun s hs => hs) fun s hs => ?_
      refine ensures_bind (ensures_lift fun x hx => hx) fun x hx => ?_
      rw [hkeeps.s] at hs
      rw [hkeeps.x] at hx
      split
      case isTrue hout =>
        exact ensures_pure (.cross hheads hstride (of_decide_eq_true hout) ⟨_, hθ⟩ hfull hs
          ⟨rp, congrArg (modelAfter · _ rp κ) hkeeps.model⟩)
      case isFalse =>
        refine ensures_bind (ensures_lift fun r hr => hr) fun r hr => ?_
        rw [hkeeps.r] at hr
        refine ensures_pure (.full hheads hstride ⟨_, hθ⟩ hfull hs hx hr ?_
          ⟨rp, congrArg (modelAfter · _ rp κ) hkeeps.model⟩)
        dsimp only
        rw [hkeeps.r]

end Follow

theorem follow_moves (hkeeps : start.Keeps it) (hz : Vec.isFinite z = true) (hslope : Checked.inner start.r z = .ok rz)
    (hp : direction start z rz = .ok p) {d : Vec F} (hd : (k.H.apply 1 p 0 (Vec.zerosLike p)).Returns d)
    (hfin : Vec.isFinite d = true) (normZ : F) : (follow k it z p d rz normZ).Ensures (Move k start) := by
  have hkeeps' : start.Keeps { it with iter := it.iter + 1 } :=
    ⟨hkeeps.s, hkeeps.x, hkeeps.r, hkeeps.model, hkeeps.previous⟩
  unfold follow
  refine ensures_bind (ensures_lift fun κ hκ => hκ) fun κ hκ => ?_
  refine ensures_bind (ensures_true _) fun rp _ => ensures_bind (ensures_true _) fun _ _ => ?_
  have hheads : Heads k start z p d rz κ := ⟨hz, hslope, hp, hd, hfin, hκ⟩
  split
  case isTrue hflat => exact followNegative_moves hkeeps' hheads hflat rp
  case isFalse hcurved => exact followPositive_moves hkeeps' hheads hcurved rp

theorem precondition_finite (r : Vec F) : (precondition k r).Ensures fun out =>
    ∀ z, out = .ok z → Vec.isFinite z = true := by
  unfold precondition
  refine ensures_bind (ensures_true _) fun _ _ => ensures_bind (ensures_true _) fun _ _ =>
    ensures_bind (ensures_true _) fun _ _ => ?_
  dsimp only
  split
  · exact ensures_pure nofun
  · split
    · exact ensures_pure nofun
    · refine ensures_bind (ensures_true _) fun _ _ => ensures_bind (ensures_true _) fun z _ => ?_
      split
      · exact ensures_pure nofun
      case isFalse hz =>
        refine ensures_pure ?_
        rintro _ ⟨⟩
        simpa using hz

theorem pass_moves (it : Iterate F) : (pass k it).Ensures (Move k it) := by
  unfold pass
  refine ensures_bind ((precondition_fault it.r).and (precondition_finite it.r)) fun out hout => ?_
  obtain ⟨hfault, hfinite⟩ := hout
  split
  · exact ensures_pure (.stay (TruncatedStop.not_isBoundary (hfault _ rfl)) rfl rfl)
  case h_2 z =>
    dsimp only
    have hkeeps : it.Keeps (if it.iter = 0 then { it with normZ0 := Vec.norm z } else it) := by
      split <;> exact ⟨rfl, rfl, rfl, rfl, rfl⟩
    generalize (if it.iter = 0 then { it with normZ0 := Vec.norm z } else it) = scaled at hkeeps
    split
    · exact ensures_pure (.stay rfl hkeeps.s hkeeps.model)
    · refine ensures_bind (ensures_lift fun rz hrz => hrz) fun rz hrz => ?_
      refine ensures_bind (ensures_lift fun fault hfault => residualFault_fails z rz hfault) fun fault hfault => ?_
      split
      case h_1 fault => exact ensures_pure (.stay (TruncatedStop.not_isBoundary (hfault _ rfl)) hkeeps.s hkeeps.model)
      case h_2 =>
        refine ensures_bind (ensures_lift fun p hp => hp) fun p hp => ?_
        refine ensures_bind (ensures_returns _) fun d hd => ?_
        have hp : direction it z rz = .ok p := by
          unfold direction at hp ⊢
          rwa [← hkeeps.previous]
        rw [hkeeps.r] at hrz
        split
        · exact ensures_pure (.stay rfl hkeeps.s hkeeps.model)
        case isFalse hfin =>
          refine ensures_bind (ensures_lift fun fault hfault => directionFault_fails p d hfault) fun fault hfault => ?_
          split
          · exact ensures_pure (.stay (TruncatedStop.not_isBoundary (hfault _ rfl)) hkeeps.s hkeeps.model)
          · refine follow_moves ?_ (hfinite z rfl) hrz hp hd (by simpa using hfin) _
            exact ⟨hkeeps.s, hkeeps.x, hkeeps.r, hkeeps.model, hkeeps.previous⟩

end TruncatedCG
end ConstrainedOpt
