import ConstrainedOpt.Scalar.Binary64
import ConstrainedOpt.Proofs.Matrix.Products
import ConstrainedOpt.Proofs.Sizes.Solvers
import ConstrainedOpt.Proofs.Step.Moves
import ConstrainedOpt.Proofs.Step.Unguarded

/-! # Steps that overflow

The step solvers look at their vectors for values that are not finite, but not at the lengths they move by nor at the sums
they come to. A truncated solve loses a finite step only in a move along a finite direction. If it is the length that is not
finite, then the value of the model is lost too and the solve ends there, or in the preconditioner of the next pass. A
quasinormal step is lost only with its residual.
-/
namespace ConstrainedOpt
open Journaled Propagating
variable {F : Type} [Scalar F]

namespace TruncatedCG
variable {k : Model F} {offset : Vec F} {it it' : Iterate F} {σ : F} {n : Nat}

/-- The iterates that the loop of a solve from `offset` may come to. -/
inductive Reaches (k : Model F) (offset : Vec F) : Iterate F → Prop
  | start : Reaches k offset (start k.g offset)
  | next {it it' : Iterate F} (hit : Reaches k offset it) (hpass : (pass k it).Returns (.next it')) : Reaches k offset it'

/-- A finite step is moved by the length `σ` along a finite direction, to a step that is not finite. -/
structure Strays (k : Model F) (it : Iterate F) (σ : F) (it' : Iterate F) : Prop where
  start : Vec.isFinite it.s = true
  move : ∃ z p hp rz κ, Heads k it z p hp rz κ ∧ Vec.isFinite p = true ∧ Checked.add σ p it.s = .ok it'.s
  model : ∃ rp κ, it'.model = modelAfter it.model σ rp κ
  lost : Vec.isFinite it'.s = false

/-- The ends of a solve that has moved by a length that is not finite. -/
def strayStops : List TruncatedStop :=
  [.negativeCurvature, .trustRegionViolated, .tooManyFailedSafeguard, .nanPreconditioner, .maxItersExceeded]

/-- The step and the residual have `n` components. -/
structure Iterate.Level (n : Nat) (it : Iterate F) : Prop where
  s : it.s.length = n
  r : it.r.length = n

/-- A pass from `it` keeps the step finite, or strays: then by a length that is not finite it loses the residual or stops. -/
def Progress.Strays (k : Model F) (it : Iterate F) (n : Nat) : Progress F → Prop
  | .next it' => it'.Level n ∧ (Vec.isFinite it'.s = true ∨
      ∃ σ, TruncatedCG.Strays k it σ it' ∧ (Scalar.isFinite σ = false → Vec.isFinite it'.r = false))
  | .stop reason it' => Vec.isFinite it'.s = true ∨
      ∃ σ, TruncatedCG.Strays k it σ it' ∧ (Scalar.isFinite σ = false → reason ∈ strayStops)

variable [Propagating F]

/-- The model is lost with the length. -/
theorem Strays.model_lost (h : Strays k it σ it') (hσ : Scalar.isFinite σ = false) : Scalar.isFinite it'.model = false := by
  obtain ⟨rp, κ, hmodel⟩ := h.model
  rw [hmodel]
  refine Bool.eq_false_iff.mpr fun hfinite => ?_
  have hslope := isFinite_of_sub_right _ _ (Absorbing.isFinite_of_add _ _ hfinite)
  exact Bool.false_ne_true (hσ.symm.trans (isFinite_of_mul_left _ _ hslope))

omit [Propagating F] in
/-- A move keeps the step finite or loses it along a finite direction. -/
theorem Heads.strays {z p hp : Vec F} {rz κ : F} (hheads : Heads k it z p hp rz κ) (hH : k.H.Reveals) (hcols : k.H.cols = n)
    (hlen : it.s.length = n) (hfinite : Vec.isFinite it.s = true) (hs : Checked.add σ p it.s = .ok it'.s)
    (hmodel : ∃ rp, it'.model = modelAfter it.model σ rp κ) : Vec.isFinite it'.s = true ∨ Strays k it σ it' := by
  have hp : p.length = k.H.cols := ((Checked.add_eq_ok.mp hs).1.trans hlen).trans hcols.symm
  have hdirection := hheads.image.ensured (hH p 0 _ hp) hheads.finite
  cases hlost : Vec.isFinite it'.s with
  | true => exact .inl rfl
  | false =>
    obtain ⟨rp, hmodel⟩ := hmodel
    exact .inr ⟨hfinite, ⟨z, p, _, rz, κ, hheads, hdirection, hs⟩, ⟨rp, κ, hmodel⟩, hlost⟩

omit [Propagating F] in
theorem length_pos_of_lost {x : Vec F} (h : Vec.isFinite x = false) : 0 < x.length := by
  refine List.length_pos_iff.mpr ?_
  rintro rfl
  cases h

/-- What a move does to a finite step. -/
theorem Move.strays (hH : k.H.Reveals) (hcols : k.H.cols = n) (hg : k.g.length = n) (hlevel : it.Level n)
    (hfinite : Vec.isFinite it.s = true) {out : Progress F} (h : Move k it out) : out.Strays k it n := by
  cases h with
  | stay hreason hs => exact .inl (hs ▸ hfinite)
  | flat hheads hσ hθ hs hmodel =>
    exact (hheads.strays hH hcols hlevel.s hfinite hs hmodel).imp_right fun h => ⟨_, h, fun _ => by decide⟩
  | stuck hheads hstride hθ hs hmodel =>
    exact (hheads.strays hH hcols hlevel.s hfinite hs hmodel).imp_right fun h => ⟨_, h, fun _ => by decide⟩
  | cross hheads hstride hout hθ hfull hs hmodel =>
    exact (hheads.strays hH hcols hlevel.s hfinite hs hmodel).imp_right fun h => ⟨_, h, fun _ => by decide⟩
  | @cut z p hp target image gradient rz κ α θ it' hheads hstride hθ hs hx himage hgradient hr hprevious hmodel =>
    have hlen : it'.s.length = n := (Checked.add_length hs).trans hlevel.s
    obtain ⟨himagelen, -⟩ := Checked.add_eq_ok.mp hgradient
    refine ⟨⟨hlen, ?_⟩, (hheads.strays hH hcols hlevel.s hfinite hs hmodel).imp_right fun h => ⟨_, h, fun _ => ?_⟩⟩
    · rw [hr, Vec.length_scale, Checked.add_length hgradient, ← himagelen, hg]
    · -- the residual is computed anew at the step that was lost
      refine Bool.eq_false_iff.mpr fun hresidual => ?_
      rw [hr] at hresidual
      have hproduct := (Checked.isFinite_of_add hgradient (Vec.isFinite_of_scale hresidual)).2
      have hstep := himage.ensured (hH _ 0 _ (hlen.trans hcols.symm)) hproduct
      exact Bool.false_ne_true (h.lost.symm.trans hstep)
  | @full z p hp target rz κ α θ it' hheads hstride hθ hfull hs hx hr hprevious hmodel =>
    have hlen : it'.s.length = n := (Checked.add_length hs).trans hlevel.s
    refine ⟨⟨hlen, (Checked.add_length hr).trans hlevel.r⟩,
      (hheads.strays hH hcols hlevel.s hfinite hs hmodel).imp_right fun h => ⟨_, h, fun hα => ?_⟩⟩
    obtain ⟨hrlen, hsum⟩ := Checked.add_eq_ok.mp hr
    have hpos : 0 < hp.length := by
      rw [hrlen, hlevel.r, ← hlen]
      exact length_pos_of_lost h.lost
    refine Bool.eq_false_iff.mpr fun hresidual => ?_
    rw [hsum] at hresidual
    have hfactor := isFinite_of_neg _ (Vec.isFinite_factor hrlen hpos hresidual)
    exact Bool.false_ne_true (hα.symm.trans hfactor)

/-! ### The loop -/

/-- A residual that is not finite is a fault of the preconditioner. -/
theorem pass_blocked (hC : k.C.Reveals) (hr : it.r.length = k.C.cols) (hlost : Vec.isFinite it.r = false) :
    (pass k it).Ensures fun out => out = .stop .nanPreconditioner it := by
  have hprecondition : (precondition k it.r).Ensures fun out => out = .error .nanPreconditioner := by
    unfold precondition
    refine ensures_bind (hC it.r 0 _ hr) fun once honce => ?_
    refine ensures_bind (ensures_true _) fun _ _ => ensures_bind (ensures_true _) fun _ _ => ?_
    have hnorm : ¬ Scalar.isFinite (Vec.norm once) = true := fun h =>
      Bool.false_ne_true (hlost.symm.trans (honce (Vec.isFinite_of_norm h)))
    rw [if_pos (by simpa using hnorm)]
    exact ensures_pure rfl
  unfold pass
  refine ensures_bind hprecondition ?_
  rintro _ rfl
  exact ensures_pure rfl

/-- No pass goes on from a residual that is not finite. -/
theorem iterate_blocked (hC : k.C.Reveals) (hr : it.r.length = k.C.cols) (hlost : Vec.isFinite it.r = false) (budget : Nat) :
    (iterate k budget it).Ensures fun out => out.2 = it ∧ out.1 ∈ strayStops := by
  cases budget with
  | zero => exact ensures_pure ⟨rfl, (by decide : TruncatedStop.maxItersExceeded ∈ strayStops)⟩
  | succ budget =>
    refine ensures_bind (pass_blocked hC hr hlost) ?_
    rintro _ rfl
    exact ensures_pure ⟨rfl, (by decide : TruncatedStop.nanPreconditioner ∈ strayStops)⟩

/-- A result has a finite step, or comes of a move that has lost it; if that was by its length, it has lost the model too. -/
def Traces (k : Model F) (offset : Vec F) (reason : TruncatedStop) (it : Iterate F) : Prop :=
  Vec.isFinite it.s = true ∨ ∃ u σ v, Reaches k offset u ∧
    ((pass k u).Returns (.next v) ∨ ∃ reason, (pass k u).Returns (.stop reason v)) ∧ Strays k u σ v ∧
    (Scalar.isFinite σ = false → Scalar.isFinite it.model = false ∧ reason ∈ strayStops)

theorem iterate_traces (hH : k.H.Reveals) (hC : k.C.Reveals) (hcols : k.H.cols = n) (hccols : k.C.cols = n)
    (hg : k.g.length = n) (budget : Nat) (hreach : Reaches k offset it) (hlevel : it.Level n)
    (hfinite : Vec.isFinite it.s = true) : (iterate k budget it).Ensures fun out => Traces k offset out.1 out.2 := by
  induction budget generalizing it with
  | zero => exact ensures_pure (.inl hfinite)
  | succ budget ih =>
    have hstep := (pass_moves it).mono fun _ hmove => hmove.strays hH hcols hg hlevel hfinite
    refine ensures_bind ((ensures_returns _).and hstep) ?_
    rintro (v | ⟨reason, v⟩) ⟨hpass, hv⟩
    · obtain ⟨hlevel', hkept | ⟨σ, hstrays, hresidual⟩⟩ := hv
      · exact ih (hreach.next hpass) hlevel' hkept
      · cases hσ : Scalar.isFinite σ with
        | true =>
          refine (ensures_true _).mono fun out _ => .inr ⟨it, σ, v, hreach, .inl hpass, hstrays, fun hlost => ?_⟩
          exact absurd (hlost.symm.trans hσ) Bool.false_ne_true
        | false =>
          refine (iterate_blocked hC (hlevel'.r.trans hccols.symm) (hresidual hσ) budget).mono ?_
          rintro ⟨reason, _⟩ ⟨rfl, hreason⟩
          exact .inr ⟨it, σ, _, hreach, .inl hpass, hstrays, fun hlost => ⟨hstrays.model_lost hlost, hreason⟩⟩
    · refine ensures_pure (hv.imp_right ?_)
      rintro ⟨σ, hstrays, hreason⟩
      exact ⟨it, σ, v, hreach, .inr ⟨reason, hpass⟩, hstrays, fun hlost => ⟨hstrays.model_lost hlost, hreason hlost⟩⟩

/-- What a truncated solve answers with. -/
theorem solve_traces (hH : k.H.Reveals) (hC : k.C.Reveals) (offset s : Vec F) (work : Nat) :
    (solve k offset s work).Ensures fun out => ∀ r, out = .ok r → ∃ reason it, r = result reason it ∧
      Traces k offset reason it := by
  have hzero : Vec.isFinite (start k.g offset).s = true := Vec.isFinite_zeros _
  refine ensures_solve (fun _ _ _ => .inl hzero) fun hadmits _ => ?_
  refine iterate_traces hH hC (Prod.ext_iff.mp hadmits.hessian).2 (Prod.ext_iff.mp hadmits.projector).2 rfl k.par.iterMax
    .start ⟨?_, ?_⟩ hzero
  · exact Vec.length_zerosLike _
  · exact Vec.length_scale _ _

end TruncatedCG

namespace Quasinormal
variable {par : QuasinormalParam F} {A : Operator F} {g : Vec F}

/-- A step whose residual is finite is finite itself. -/
def Discloses (A : Operator F) (r : QuasinormalStep F) : Prop :=
  ∀ report, r.outcome = .ok report → Scalar.isFinite report.residual = true → r.step.length = A.cols →
    Vec.isFinite r.step = true

variable [Propagating F]

theorem finish_discloses (hA : A.Reveals) (g : Vec F) (normG : F) (step cauchy : Vec F) (stop : QuasinormalStop) (iter : Nat) :
    (finish A g normG step cauchy stop iter).Ensures (Discloses A) := by
  refine ensures_bind (P := fun res => step.length = A.cols → Scalar.isFinite res = true → Vec.isFinite step = true) ?_ ?_
  · refine ensures_forall fun hlen => ensures_bind (hA step 1 g hlen) fun v hv => ?_
    exact ensures_pure fun hfinite => hv (Vec.isFinite_of_norm hfinite)
  · intro res hres
    refine ensures_bind (ensures_true _) fun _ _ => ensures_pure ?_
    rintro _ ⟨⟩ hfinite hlen
    exact hres hlen hfinite

theorem fromCauchy_discloses (hA : A.Reveals) (δ : F) (safeguard : Safeguard F) (normG : F) (cauchy : Vec F) :
    (fromCauchy par A g δ safeguard normG cauchy).Ensures (Discloses A) := by
  refine ensures_fromCauchy ((ensures_true _).mono ?_) fun _ _ _ => finish_discloses hA _ _ _ _ _ _
  rintro _ - _ - _ ⟨⟩

theorem solve_discloses (hA : A.rows ≠ 0 → A.Reveals) (g : Vec F) (δ : F) (safeguard : Safeguard F) (step cauchy : Vec F)
    (work : Nat) : (solve par A g δ safeguard step cauchy work).Ensures (Discloses A) := by
  exact ensures_solve (fun _ _ _ _ => nofun) (fun _ _ _ _ _ _ _ => Vec.isFinite_zeros _) fun hrows _ =>
    fromCauchy_discloses (hA hrows) _ _ _ _

omit [Propagating F] in
/-- A quasinormal solve that answers has been given what fits. -/
theorem solve_fits (par : QuasinormalParam F) (A : Operator F) (g : Vec F) (δ : F) (safeguard : Safeguard F)
    (step cauchy : Vec F) (work : Nat) : (solve par A g δ safeguard step cauchy work).Ensures fun r =>
      ∀ report, r.outcome = .ok report → (g.length = A.rows ∧ step.length = A.cols ∧ cauchy.length = A.cols) ∧
        workLength A.rows A.cols ≤ work := by
  unfold solve
  split
  · exact ensures_bind (ensures_true _) fun _ _ => ensures_pure nofun
  case isFalse hfits =>
    split
    · exact ensures_bind (ensures_true _) fun _ _ => ensures_pure nofun
    case isFalse hroom =>
      simp only [not_or, Classical.not_not] at hfits
      exact (ensures_true _).mono fun _ _ _ _ => ⟨hfits, Nat.not_lt.mp hroom⟩

end Quasinormal

/-- A truncated solve answers with a finite step, or one of its moves has lost it along a finite direction. If the length of
that move was not finite, the value of the model is not either, and the solve ends as `strayStops` has it. A quasinormal
solve answers with a finite step where the residual it reports is finite. -/
theorem steps_finite_or_overflown [Propagating F] :
    (∀ (k : TruncatedCG.Model F) (offset s : Vec F) (work : Nat), k.H.Reveals → k.C.Reveals →
      (TruncatedCG.solve k offset s work).Ensures fun out => ∀ r, out = .ok r → Vec.isFinite r.step = true ∨
        ∃ u σ v, TruncatedCG.Reaches k offset u ∧
          ((TruncatedCG.pass k u).Returns (.next v) ∨ ∃ reason, (TruncatedCG.pass k u).Returns (.stop reason v)) ∧
          TruncatedCG.Strays k u σ v ∧
          (Scalar.isFinite σ = false → Scalar.isFinite r.model = false ∧ r.stop ∈ TruncatedCG.strayStops)) ∧
    ∀ (par : QuasinormalParam F) (A : Operator F) (g : Vec F) (δ : F) (safeguard : Safeguard F) (step cauchy : Vec F)
      (work m n : Nat), A.Fills m n → safeguard.Fills n → (m ≠ 0 → A.Reveals) →
      (Quasinormal.solve par A g δ safeguard step cauchy work).Ensures fun r => ∀ report, r.outcome = .ok report →
        Scalar.isFinite report.residual = true → Vec.isFinite r.step = true := by
  refine ⟨fun k offset s work hH hC => ?_, fun par A g δ safeguard step cauchy work m n hA hsafeguard hreveals => ?_⟩
  · refine (TruncatedCG.solve_traces hH hC offset s work).mono fun out hout r hr => ?_
    obtain ⟨reason, it, rfl, htraces⟩ := hout r hr
    exact htraces
  · intro notes r rest hrun report hreport hfinite
    obtain ⟨⟨hg, hstep, hcauchy⟩, hroom⟩ := Quasinormal.solve_fits par A g δ safeguard step cauchy work notes r rest hrun
      report hreport
    have hsized : (Quasinormal.solve par A g δ safeguard step cauchy work).Yields fun r => r.Sized n :=
      Quasinormal.solve_sized hA (hg.trans hA.rows) hsafeguard δ (hstep.trans hA.cols) (hcauchy.trans hA.cols)
        (hA.rows ▸ hA.cols ▸ hroom)
    have hlen := (hsized.ensures notes r rest hrun).step
    exact Quasinormal.solve_discloses (fun h => hreveals (hA.rows ▸ h)) g δ safeguard step cauchy work notes r rest hrun
      report hreport hfinite (hlen.trans hA.cols.symm)

/-! ### Lengths that overflow -/

/-- A gradient along a direction that hardly curves. -/
def TruncatedCG.almostFlat : TruncatedCG.Model Float where
  par := .default
  H := (⟨.diagonal 2, #[1e-310, 1], rfl⟩ : Matrix Float).operator
  B := .identity 2
  C := .identity 2
  g := [1, 0]
  δ := 1
  safeguard := .unlimited

/-- A row whose square and that of its Cauchy point are out of range. -/
def Quasinormal.faintRow : Matrix Float := ⟨.diagonal 1, #[1e-155], rfl⟩

theorem TruncatedCG.solve_almostFlat : ∃ r, (solve almostFlat [0, 0] [0, 0] 25).answer = .ok (.ok r) ∧
    r.stop = .nanPreconditioner ∧ Vec.isFinite r.step = false := by
  have hfound : (match (solve almostFlat [0, 0] [0, 0] 25).answer with
      | .ok (.ok r) => decide (r.stop = .nanPreconditioner) && !Vec.isFinite r.step
      | _ => false) = true := by decide +kernel
  split at hfound
  case h_1 r hr =>
    obtain ⟨hstop, hstep⟩ := Bool.and_eq_true_iff.mp hfound
    exact ⟨r, hr, of_decide_eq_true hstop, by simpa using hstep⟩
  case h_2 => cases hfound

theorem Quasinormal.solve_faintRow :
    ∃ r report, (solve .default faintRow.operator [1e153] 1 .unlimited [0] [0] 11).answer = .ok r ∧
      r.outcome = .ok report ∧ report.stop = .cauchyTrustRegion ∧ Vec.isFinite r.step = false := by
  have hfound : (match (solve .default faintRow.operator [1e153] 1 .unlimited [0] [0] 11).answer with
      | .ok ⟨step, _, .ok report⟩ => decide (report.stop = .cauchyTrustRegion) && !Vec.isFinite step
      | _ => false) = true := by decide +kernel
  split at hfound
  case h_1 step cauchy report hr =>
    obtain ⟨hstop, hstep⟩ := Bool.and_eq_true_iff.mp hfound
    exact ⟨_, report, hr, rfl, of_decide_eq_true hstop, by simpa using hstep⟩
  case h_2 => cases hfound

/-- Everything is finite but the steps. -/
theorem steps_not_finite :
    ((Vec.isFinite TruncatedCG.almostFlat.g = true ∧ Scalar.isFinite TruncatedCG.almostFlat.δ = true) ∧
      ∃ r, (TruncatedCG.solve TruncatedCG.almostFlat [0, 0] [0, 0] 25).answer = .ok (.ok r) ∧
        Vec.isFinite r.step = false) ∧
    (Vec.isFinite Quasinormal.faintRow.entries.toList = true ∧ Vec.isFinite [(1e153 : Float)] = true) ∧
      ∃ r report, (Quasinormal.solve .default Quasinormal.faintRow.operator [1e153] 1 .unlimited [0] [0] 11).answer =
        .ok r ∧ r.outcome = .ok report ∧ Vec.isFinite r.step = false := by
  obtain ⟨r, hr, -, hstep⟩ := TruncatedCG.solve_almostFlat
  obtain ⟨r', report, hr', hreport, -, hstep'⟩ := Quasinormal.solve_faintRow
  exact ⟨⟨⟨by decide +kernel, by decide +kernel⟩, r, hr, hstep⟩, ⟨by decide +kernel, by decide +kernel⟩, r', report, hr',
    hreport, hstep'⟩

theorem steps_finite_or_overflown_almostFlat :
    (TruncatedCG.almostFlat.H.Reveals ∧ TruncatedCG.almostFlat.C.Reveals ∧
      ∃ u σ v, TruncatedCG.Reaches TruncatedCG.almostFlat [0, 0] u ∧ TruncatedCG.Strays TruncatedCG.almostFlat u σ v) ∧
    (Quasinormal.faintRow.operator.Reveals ∧
      ∃ r report, (Quasinormal.solve .default Quasinormal.faintRow.operator [1e153] 1 .unlimited [0] [0] 11).answer =
        .ok r ∧ r.outcome = .ok report ∧ Scalar.isFinite report.residual = false) := by
  obtain ⟨htruncated, hquasinormal⟩ := steps_finite_or_overflown (F := Float)
  have hH : TruncatedCG.almostFlat.H.Reveals := Matrix.operator_reveals (by decide)
  have hC : TruncatedCG.almostFlat.C.Reveals := Operator.identity_reveals 2
  have hA : Quasinormal.faintRow.operator.Reveals := Matrix.operator_reveals (by decide)
  refine ⟨⟨hH, hC, ?_⟩, hA, ?_⟩
  · obtain ⟨r, hr, -, hstep⟩ := TruncatedCG.solve_almostFlat
    rcases (htruncated _ [0, 0] [0, 0] 25 hH hC).answer hr r rfl with hfinite | ⟨u, σ, v, hreach, -, hstrays, -⟩
    · exact absurd (hstep.symm.trans hfinite) Bool.false_ne_true
    · exact ⟨u, σ, v, hreach, hstrays⟩
  · obtain ⟨r, report, hr, hreport, -, hstep⟩ := Quasinormal.solve_faintRow
    refine ⟨r, report, hr, hreport, Bool.eq_false_iff.mpr fun hfinite => ?_⟩
    have hfills : Quasinormal.faintRow.operator.Fills 1 1 := Matrix.operator_fills _
    have hsolve := hquasinormal .default _ [1e153] 1 .unlimited [0] [0] 11 1 1 hfills (Safeguard.unlimited_fills 1) fun _ => hA
    exact Bool.false_ne_true (hstep.symm.trans (hsolve.answer hr report hreport hfinite))

end ConstrainedOpt
