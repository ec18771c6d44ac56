import ConstrainedOpt.Proofs.Step.Cauchy

/-! # Segments between two starts

A safeguard that cuts a step makes the recurrence start again, but the slots of the ring stay filled. Within the
segment that follows, the directions are conjugate, and of the slots only those are read that the segment has filled:
so a symmetric positive semidefinite preconditioner and an orthogonal projector raise no alarm, however often a
safeguard cuts. Without one there is a single segment, and each of its passes adds a dimension to the space of the
directions: there are no more of them than the preconditioner has rank.
-/
namespace ConstrainedOpt
open Exact Journaled

/-- The stops that blame neither the operators nor the safeguard. -/
def TruncatedStop.Harmless (stop : TruncatedStop) : Prop :=
  stop.isNumericalFailure = false ∧ stop.isSafeguard = false

namespace TruncatedCG

/-! ### The slots a segment has filled -/

section Slots
variable {F : Type} {size seq : ℕ} {e u : Slot F} {slots : List (Slot F)}

theorem le_length_record (h : min size seq ≤ slots.length) : min size (seq + 1) ≤ (record size seq e slots).length := by
  unfold record
  by_cases hsize : size = 0
  · simp [hsize]
  · have hindex : seq % size < size := Nat.mod_lt _ (Nat.pos_of_ne_zero hsize)
    have hearly : seq < size → seq % size = seq := Nat.mod_eq_of_lt
    rw [if_neg hsize]
    split
    · rw [List.length_set]
      omega
    · rw [List.length_append, List.length_singleton]
      omega

/-- The slots a segment has filled after a pass are the new one and those it had filled before. -/
theorem mem_take_record (h : min size seq ≤ slots.length)
    (hu : u ∈ (record size seq e slots).take (min size (seq + 1))) : u = e ∨ u ∈ slots.take (min size seq) := by
  by_cases hsize : size = 0
  · simp [hsize] at hu
  · have hindex : seq % size < size := Nat.mod_lt _ (Nat.pos_of_ne_zero hsize)
    have hearly : seq < size → seq % size = seq := Nat.mod_eq_of_lt
    unfold record at hu
    rw [if_neg hsize] at hu
    obtain ⟨i, hi, hu⟩ := List.mem_take_iff_getElem.mp hu
    by_cases hnew : i = seq % size
    · left
      split at hu <;> grind
    · right
      refine List.mem_take_iff_getElem.mpr ⟨i, ?_, ?_⟩ <;> (split at hu <;> grind)

end Slots

variable {ε : Set.Ioi (0 : ℝ)} {n : ℕ} {H M B C : Euclidean n →ₗ[ℝ] Euclidean n} {k : Model (Exact ε)}
  {V W : Submodule ℝ (Euclidean n)} {g o s r z p : Euclidean n} {it it' : Iterate (Exact ε)}

theorem Remembers.take_record {size seq : ℕ} {slots : List (Slot (Exact ε))} (h : Remembers V (slots.take (min size seq)))
    (hfilled : min size seq ≤ slots.length) (hVW : V ≤ W) (hz : z ∈ W) (c : ℝ) :
    Remembers W ((TruncatedCG.record size seq ⟨vec z, real c⟩ slots).take (min size (seq + 1))) := by
  intro e he
  rcases mem_take_record hfilled he with rfl | he
  · exact ⟨z, hz, c, rfl⟩
  · obtain ⟨z, hz, c, rfl⟩ := h e he
    exact ⟨z, hVW hz, c, rfl⟩

/-! ### Directions of a segment -/

/-- The directions of a segment that has come to the residual `r` span a space. -/
inductive Past (H M : Euclidean n →ₗ[ℝ] Euclidean n) (r : Euclidean n) (it : Iterate (Exact ε)) :
    Submodule ℝ (Euclidean n) → Prop
  | first (hprevious : it.previous = none) : Past H M r it ⊥
  | later {K : Submodule ℝ (Euclidean n)} {r' q : Euclidean n} (hconj : Conjugacy H M K r' q r)
      (hprevious : it.previous = some ⟨vec r', vec (M r'), vec q, vec (H q), real (inner ℝ r' (M r'))⟩) :
      Past H M r it (K ⊔ Submodule.span ℝ {q})

/-- The direction `p` from the residual `r` leads out of the space `W` of the directions before, to which it is
conjugate. -/
structure Extends (H M : Euclidean n →ₗ[ℝ] Euclidean n) (W : Submodule ℝ (Euclidean n)) (r p : Euclidean n) : Prop where
  slope : inner ℝ r p = inner ℝ r (M r)
  orthogonal : ∀ v ∈ W, inner ℝ r v = 0
  mem : p ∈ W ⊔ Submodule.span ℝ {M r}
  seen : M r ∈ W ⊔ Submodule.span ℝ {p}
  conjugacy : 0 < inner ℝ p (H p) → Conjugacy H M W r p (r - (inner ℝ r (M r) / inner ℝ p (H p)) • H p)

theorem Past.extends (hpast : Past H M r it W) (hH : H.IsSymmetric) (hM : M.IsSymmetric) (hslope : 0 < inner ℝ r (M r))
    (hp : it.HeadsFor r (M r) p) : Extends H M W r p := by
  cases hpast with
  | first hprevious =>
    obtain rfl := hp.first hprevious
    exact ⟨rfl, by simp, mem_sup_span_self _ _, mem_sup_span_self _ _, .start hH hslope⟩
  | @later K r' q hconj hprevious =>
    have heq := hp.later hprevious rfl rfl hconj.slope.ne'
    have hq := Submodule.smul_mem (K ⊔ Submodule.span ℝ {q}) (inner ℝ r (M r) / inner ℝ r' (M r')) (mem_sup_span_self K q)
    refine ⟨?_, hconj.orthogonal, ?_, ?_, hconj.advance hH hM hslope heq⟩
    · rw [heq, hconj.slope_next]
    · rw [heq]
      exact Submodule.add_mem _ (Submodule.mem_sup_left hq) (mem_sup_span_self _ _)
    · rw [eq_sub_of_add_eq' heq.symm]
      exact Submodule.sub_mem _ (mem_sup_span_self _ p) (Submodule.mem_sup_left hq)

namespace Extends
variable (h : Extends H M W r p) (hslope : 0 < inner ℝ r (M r))
include h hslope

theorem ne_zero : p ≠ 0 := by
  rintro rfl
  have hzero := h.slope
  rw [inner_zero_right] at hzero
  exact hslope.ne hzero

/-- A direction adds a dimension. -/
theorem finrank_lt : Module.finrank ℝ W < Module.finrank ℝ (W ⊔ Submodule.span ℝ {p} : Submodule ℝ (Euclidean n)) := by
  refine Submodule.finrank_lt_finrank_of_lt (lt_of_le_of_ne le_sup_left fun heq => ?_)
  have hp : p ∈ W := heq ▸ mem_sup_span_self W p
  exact hslope.ne' (h.slope.symm.trans (h.orthogonal p hp))

end Extends

/-- A direction stays in a space with the directions before and the preconditioned residual. -/
theorem Extends.mem_of_le (h : Extends H M W r p) (hW : W ≤ LinearMap.range M) : p ∈ LinearMap.range M :=
  sup_le hW ((Submodule.span_singleton_le_iff_mem _ _).mpr (LinearMap.mem_range_self M r)) h.mem

/-! ### Faults -/

section Linear
variable (hk : Linear { k with safeguard := .unlimited } H B C)
include hk

/-- A segment shows no fault. -/
theorem Past.sound (hpast : Past H (projected B C) r it W) (hr : it.r = vec r)
    (hslots : Remembers W (it.slots.take (min k.par.orthogMax it.seq))) {reason : TruncatedStop} :
    ¬ Fault k H C r (projected B C r) it reason := by
  intro hfault
  cases hpast with
  | first hprevious => exact hk.not_fault_of_none hprevious hfault
  | later hconj hprevious =>
    cases hfault with
    | projector h => exact hk.not_projector_fault h
    | residual h =>
      unfold residualFault? at h
      rw [hprevious, hr] at h
      obtain ⟨found, hfound, h⟩ := Checked.bind_eq_ok.mp h
      obtain rfl := asymmetric_eq_false hk.epsSym (hk.projected_symmetric r _) hfound
      rw [if_neg (by simp)] at h
      obtain ⟨lost, hlost, h⟩ := Checked.bind_eq_ok.mp h
      have hkept : ∀ found ∈ lost, found = false := by
        intro found hmem
        obtain ⟨e, he, hfound⟩ := Checked.mem_of_mapM hlost found hmem
        obtain ⟨z, hz, c, rfl⟩ := hslots e he
        exact notOrthogonal_eq_false hk.epsOrth (hconj.orthogonal z hz) hfound
      rw [if_neg (by simpa using hkept)] at h
      cases h
    | undefined hd hfin =>
      unfold direction at hd
      rw [hprevious] at hd
      dsimp only at hd
      rw [real_div hconj.slope.ne', scale_vec] at hd
      exact hfin (checked_add_eq_ok (a := 1) hd ▸ isFinite_vec)
    | direction h =>
      unfold directionFault? at h
      rw [hprevious] at h
      obtain ⟨found, hfound, h⟩ := Checked.bind_eq_ok.mp h
      obtain rfl := asymmetric_eq_false hk.epsSym (hk.symmetric _ _) hfound
      rw [if_neg (by simp)] at h
      cases h

end Linear

/-! ### The invariant -/

/-- A line goes no further than to the minimum along it, and stays in the trust region. -/
theorem Line.bounds {a : ℝ} (hline : Line k H o s r z it p a) (hin : real ‖o + s‖ ≤ k.δ) (hslope : 0 < inner ℝ r z) :
    0 ≤ a ∧ a ≤ inner ℝ r z / inner ℝ p (H p) ∧ real ‖o + s + a • p‖ ≤ k.δ := by
  have hpos : 0 < inner ℝ r z / inner ℝ p (H p) := div_pos hslope hline.curved
  have hp : p ≠ 0 := by
    rintro rfl
    exact hline.curved.ne' (inner_zero_left _)
  have hlength := hline.length
  rcases bound_cases hin with hδ | ⟨δ, hδ, hin⟩ <;> rw [hδ] at hlength ⊢
  · rw [if_neg (by simp)] at hlength
    obtain rfl := real_inj.mp (Except.ok.inj hlength)
    exact ⟨hpos.le, le_rfl, le_infinite⟩
  · obtain ⟨a', heq, h0, hmin, hend, -⟩ := length_spec hin hpos hp hlength
    rw [real_inj.mp heq]
    exact ⟨h0, hmin, real_le.mpr hend⟩

/-- What is cut from a line within the trust region is within. -/
theorem within_cut {δ : Exact ε} {x : Euclidean n} {a u : ℝ} (hx : real ‖x‖ ≤ δ) (hxp : real ‖x + a • p‖ ≤ δ)
    (hu0 : 0 ≤ u) (hu1 : u ≤ 1) : real ‖x + (a * u) • p‖ ≤ δ := by
  rcases bound_cases hx with hδ | ⟨d, hδ, hx⟩ <;> rw [hδ] at hxp ⊢
  · exact le_infinite
  · rw [mul_comm, ← smul_smul]
    exact real_le.mpr (Sphere.norm_add_smul_le hx (real_le.mp hxp) hu0 hu1)

/-- The space `W` of the directions of a segment that has come to the step `s`, and the slots it has filled. -/
structure Segment (k : Model (Exact ε)) (H B C : Euclidean n →ₗ[ℝ] Euclidean n) (g s : Euclidean n)
    (it : Iterate (Exact ε)) (W : Submodule ℝ (Euclidean n)) : Prop where
  past : Past H (projected B C) (steepest H g s) it W
  slots : Remembers W (it.slots.take (min k.par.orthogMax it.seq))
  range : W ≤ LinearMap.range (projected B C)
  count : it.seq ≤ Module.finrank ℝ W

theorem Segment.start (hseq : it.seq = 0) (hprevious : it.previous = none) : Segment k H B C g s it ⊥ where
  past := .first hprevious
  slots := by
    rw [hseq, Nat.min_zero, List.take_zero]
    nofun
  range := bot_le
  count := hseq ▸ Nat.zero_le _

/-- An iterate at a step, with its segment. -/
structure Segmented (k : Model (Exact ε)) (H B C : Euclidean n →ₗ[ℝ] Euclidean n) (g o s : Euclidean n)
    (it : Iterate (Exact ε)) : Prop where
  at_step : it.At H g o s
  mem : s ∈ LinearMap.range (projected B C)
  scale : it.iter = 0 ∨ Nonneg it.normZ0
  filled : min k.par.orthogMax it.seq ≤ it.slots.length
  single : k.safeguard = .unlimited → it.iter = it.seq
  segment : ∃ W, Segment k H B C g s it W

/-- A pass that goes on leaves a slot for its segment. -/
theorem Segmented.next_filled (h : Segmented k H B C g o s it) (hrecords : Records k r z it it') {seq : ℕ}
    (hseq : seq ≤ it.seq + 1) : min k.par.orthogMax seq ≤ it'.slots.length := by
  rw [hrecords.slots]
  exact (min_le_min_left _ hseq).trans (le_length_record h.filled)

theorem steepest_add (a : ℝ) : steepest H g (s + a • p) = steepest H g s - a • H p := by
  unfold steepest
  rw [map_add, map_smul]
  abel

/-- A whole step along a direction that extends the segment adds the direction to it. -/
theorem Segment.advance {a : ℝ} (hW : Segment k H B C g s it W)
    (hext : Extends H (projected B C) W (steepest H g s) p)
    (hslope : 0 < inner ℝ (steepest H g s) (projected B C (steepest H g s)))
    (hfilled : min k.par.orthogMax it.seq ≤ it.slots.length)
    (hline : Line k H o s (steepest H g s) (projected B C (steepest H g s)) it p a)
    (ha : a = inner ℝ (steepest H g s) (projected B C (steepest H g s)) / inner ℝ p (H p))
    (hrecords : Records k (steepest H g s) (projected B C (steepest H g s)) it it') (hseq : it'.seq = it.seq + 1)
    (hprevious : it'.previous = some ⟨vec (steepest H g s), vec (projected B C (steepest H g s)), vec p, vec (H p),
      real (inner ℝ (steepest H g s) (projected B C (steepest H g s)))⟩) :
    Segment k H B C g (s + a • p) it' (W ⊔ Submodule.span ℝ {p}) where
  past := by
    have hconj := hext.conjugacy hline.curved
    rw [← ha, ← steepest_add] at hconj
    exact .later hconj hprevious
  slots := by
    rw [hrecords.slots, hseq]
    exact hW.slots.take_record hfilled le_sup_left hext.seen _
  range := sup_le hW.range ((Submodule.span_singleton_le_iff_mem _ _).mpr (hext.mem_of_le hW.range))
  count := by
    rw [hseq]
    exact hW.count.trans_lt (hext.finrank_lt hslope)

section Linear
variable (hk : Linear { k with safeguard := .unlimited } H B C)
include hk

/-- The direction a segment heads for extends it. -/
theorem Segmented.heads (h : Segmented k H B C g o s it)
    (hlarge : ¬ k.Settles it (projected B C (steepest H g s)))
    (hp : it.HeadsFor (steepest H g s) (projected B C (steepest H g s)) p) :
    0 < inner ℝ (steepest H g s) (projected B C (steepest H g s)) ∧
      ∃ W, Segment k H B C g s it W ∧ Extends H (projected B C) W (steepest H g s) p := by
  have hslope := hk.slope_pos h.scale hlarge
  obtain ⟨W, hW⟩ := h.segment
  exact ⟨hslope, W, hW, hW.past.extends hk.symmetric hk.projected_symmetric hslope hp⟩

theorem Segmented.heads_mem (h : Segmented k H B C g o s it)
    (hlarge : ¬ k.Settles it (projected B C (steepest H g s)))
    (hp : it.HeadsFor (steepest H g s) (projected B C (steepest H g s)) p) : p ∈ LinearMap.range (projected B C) := by
  obtain ⟨-, W, hW, hext⟩ := h.heads hk hlarge hp
  exact hext.mem_of_le hW.range

/-- A step along a line does not raise the model. -/
theorem Segmented.down (h : Segmented k H B C g o s it) (hin : real ‖o + s‖ ≤ k.δ) {a : ℝ}
    (hline : Line k H o s (steepest H g s) (projected B C (steepest H g s)) it p a) :
    quadratic H g (s + a • p) ≤ quadratic H g s := by
  obtain ⟨hslope, W, hW, hext⟩ := h.heads hk hline.unsettled hline.heads
  obtain ⟨h0, hmin, -⟩ := hline.bounds hin hslope
  have halong : Along H g s p (vec (H p)) (inner ℝ (steepest H g s) (projected B C (steepest H g s)))
      (real (inner ℝ (steepest H g s) p)) (real (inner ℝ p (H p)) : Exact ε) :=
    ⟨rfl, hext.slope, hslope.le, congrArg real hext.slope, rfl⟩
  simpa using halong.quadratic_le_of_curved hk.symmetric hline.curved (t := 0) hmin (.inr h0)

/-- A pass that goes on leaves a step with its segment, within the trust region if it starts there. -/
theorem Segmented.next (h : Segmented k H B C g o s it)
    (hturn : Turn k H C g o s (projected B C (steepest H g s)) it (.next it')) :
    ∃ s', Segmented k H B C g o s' it' ∧ (real ‖o + s‖ ≤ k.δ → real ‖o + s'‖ ≤ k.δ) := by
  cases hturn with
  | @cut p a u _ hline hdown hu hcut hit hrecords hseq hprevious =>
    obtain ⟨hslope, -⟩ := h.heads hk hline.unsettled hline.heads
    have hmem := h.heads_mem hk hline.unsettled hline.heads
    refine ⟨s + (a * u) • p, ⟨hit, Submodule.add_mem _ h.mem (Submodule.smul_mem _ _ hmem), hrecords.scale_nonneg h.scale,
      h.next_filled hrecords (hseq ▸ Nat.zero_le _), fun hsafe => absurd (hu.full hsafe) hcut.ne, ⊥,
      .start hseq hprevious⟩, fun hin => ?_⟩
    rw [← add_assoc]
    exact within_cut hin (hline.bounds hin hslope).2.2 hu.nonneg hu.le_one
  | @full p a _ hline ha hdown hit hrecords hseq hprevious =>
    obtain ⟨hslope, W, hW, hext⟩ := h.heads hk hline.unsettled hline.heads
    have hmem := hext.mem_of_le hW.range
    refine ⟨s + a • p, ⟨hit, Submodule.add_mem _ h.mem (Submodule.smul_mem _ _ hmem), hrecords.scale_nonneg h.scale,
      h.next_filled hrecords hseq.le, fun hsafe => by rw [hrecords.iter, hseq, h.single hsafe],
      W ⊔ Submodule.span ℝ {p}, hW.advance hext hslope h.filled hline ha hrecords hseq hprevious⟩, fun hin => ?_⟩
    rw [← add_assoc]
    exact (hline.bounds hin hslope).2.2

theorem segmented_invariant (hg : k.g = vec g) (o : Euclidean n) : Invariant k H B C g o (Segmented k H B C g o) where
  at_step h := h.at_step
  recalls h prev hprev := by
    obtain ⟨W, hW⟩ := h.segment
    cases hW.past with
    | first hprevious => exact absurd (hprevious.symm.trans hprev) nofun
    | later hconj hprevious =>
      cases hprevious.symm.trans hprev
      exact ⟨_, _, rfl, rfl, fun hzero => absurd hzero hconj.slope.ne'⟩
  start := ⟨start_at hg o, Submodule.zero_mem _, .inl rfl, by simp [TruncatedCG.start], fun _ => rfl, ⊥, .start rfl rfl⟩
  next h hturn := by
    obtain ⟨s', hs', -⟩ := h.next hk hturn
    exact ⟨s', hs'⟩

theorem inside_invariant (hg : k.g = vec g) (ho : real ‖o‖ ≤ k.δ) :
    Invariant k H B C g o fun s it => Segmented k H B C g o s it ∧ real ‖o + s‖ ≤ k.δ where
  at_step h := h.1.at_step
  recalls h := (segmented_invariant hk hg o).recalls h.1
  start := ⟨(segmented_invariant hk hg o).start, by rwa [add_zero]⟩
  next h hturn := by
    obtain ⟨s', hs', hin⟩ := h.1.next hk hturn
    exact ⟨s', hs', hin h.2⟩

/-- A segment stops for no alarm. -/
theorem Segmented.no_alarm (h : Segmented k H B C g o s it) (hin : real ‖o + s‖ ≤ k.δ) {reason : TruncatedStop}
    (hturn : Turn k H C g o s (projected B C (steepest H g s)) it (.stop reason it')) :
    reason.isNumericalFailure = false ∧ reason ≠ .objectiveIncrease := by
  cases hturn with
  | fault hfault =>
    obtain ⟨W, hW⟩ := h.segment
    exact absurd hfault (hW.past.sound hk h.at_step.residual hW.slots)
  | rise hline hrise => exact absurd (h.down hk hin hline) hrise.not_ge
  | small | flat | stuck | cross => exact ⟨rfl, nofun⟩

/-- From an offset in the trust region a solve with a symmetric positive semidefinite preconditioner and an orthogonal
projector ends neither in a numerical failure nor in an increase of the model, whatever its safeguard cuts. -/
theorem solve_raises_no_alarm (hfit : k.Fits n) (hg : k.g = vec g) (hcut : k.safeguard.Cuts n) (ho : real ‖o‖ ≤ k.δ)
    {w : Vec (Exact ε)} (hw : w.length = n) {work : ℕ} (hwork : workLength n k.par.orthogMax ≤ work) :
    (solve k (vec o) w work).Yields fun out => ∃ r, out = .ok r ∧
      r.stop.isNumericalFailure = false ∧ r.stop ≠ .objectiveIncrease := by
  refine ((inside_invariant hk hg ho).solve (hk.acts hg hcut) hfit hw hwork).mono ?_
  rintro out ⟨r, rfl, hanswer⟩
  refine ⟨r, rfl, ?_⟩
  cases hanswer with
  | refused hchecks => rcases hchecks.blames with rfl | rfl <;> exact ⟨rfl, nofun⟩
  | spent => exact ⟨rfl, nofun⟩
  | stopped _ hs hturn => exact hs.1.no_alarm hk hs.2 hturn

end Linear

/-! ### A model with a minimum -/

/-- A model with its minimum at minus the first axis, in an unbounded trust region. -/
noncomputable def bowl (safeguard : Safeguard (Exact ε)) : Model (Exact ε) where
  par := ⟨3, 0, 1, 1, 0, 0, 0⟩
  H := .identity 2
  B := .identity 2
  C := .identity 2
  g := vec (EuclideanSpace.single 0 1 : Euclidean 2)
  δ := infinite false
  safeguard := safeguard

theorem bowl_linear :
    Linear (n := 2) (bowl .unlimited : Model (Exact ε)) LinearMap.id LinearMap.id LinearMap.id where
  hessian := Operator.identity_acts 2
  symmetric _ _ := rfl
  preconditioner := Operator.identity_acts 2
  preconditioner_symmetric _ _ := rfl
  preconditioner_nonneg _ := real_inner_self_nonneg
  projector := Operator.identity_acts 2
  projector_symmetric _ _ := rfl
  idempotent _ := rfl
  safeguard := rfl
  eps := ⟨0, rfl, le_rfl⟩
  epsSym := ⟨0, rfl, le_rfl⟩
  epsProj := ⟨0, rfl, le_rfl⟩
  epsOrth := ⟨0, rfl, le_rfl⟩

theorem bowl_fits {safeguard : Safeguard (Exact ε)} (h : safeguard.Fills 2) : (bowl safeguard).Fits 2 where
  hessian := Operator.identity_fills 2
  preconditioner := Operator.identity_fills 2
  projector := Operator.identity_fills 2
  gradient := length_vec
  safeguard := h

/-- The offset is safe, and half of the first step. -/
noncomputable def halving : Safeguard (Exact ε) := .ofFractions [1, real (1 / 2)]

theorem halving_cuts : (halving : Safeguard (Exact ε)).Cuts n := by
  rintro (_ | _ | call) x d
  · exact ensures_pure ⟨1, rfl, zero_le_one, le_rfl⟩
  · exact ensures_pure ⟨1 / 2, rfl, by norm_num, by norm_num⟩
  · exact ensures_pure ⟨1, rfl, zero_le_one, le_rfl⟩

theorem solve_raises_no_alarm_halving :
    let k : Model (Exact ⟨1, Set.mem_Ioi.mpr one_pos⟩) := bowl halving
    let g : Euclidean 2 := EuclideanSpace.single 0 1
    let o : Euclidean 2 := EuclideanSpace.single 1 (1 / 2)
    let I : Euclidean 2 →ₗ[ℝ] Euclidean 2 := LinearMap.id
    (Linear { k with safeguard := .unlimited } I I I ∧ k.Fits 2 ∧ k.g = vec g ∧ k.safeguard.Cuts 2 ∧ real ‖o‖ ≤ k.δ) ∧
    (solve k (vec o) (Vec.zeros 2) 25).Yields fun out => ∃ r, out = .ok r ∧
      r.stop.isNumericalFailure = false ∧ r.stop ≠ .objectiveIncrease := by
  intro k g o I
  have hfit : k.Fits 2 := bowl_fits fun _ _ _ _ _ => yields_pure trivial
  exact ⟨⟨bowl_linear, hfit, rfl, halving_cuts, le_infinite⟩,
    solve_raises_no_alarm bowl_linear hfit rfl halving_cuts le_infinite (Vec.length_zeros 2) (by decide)⟩

/-! ### A single segment -/

/-- Without a safeguard each pass has added a dimension to the directions. -/
theorem Segmented.iter_le (h : Segmented k H B C g o s it) (hsafe : k.safeguard = .unlimited) :
    it.iter ≤ Module.finrank ℝ (LinearMap.range (projected B C)) := by
  obtain ⟨W, hW⟩ := h.segment
  rw [h.single hsafe]
  exact hW.count.trans (Submodule.finrank_mono hW.range)

/-- Without tolerance a small residual vanishes. -/
theorem Segmented.eq_zero (h : Segmented k H B C g o s it) (heps : k.par.eps = 0) (hsmall : k.Settles it z) : z = 0 := by
  unfold Model.Settles at hsmall
  rw [heps, zero_eq] at hsmall
  have hle : ‖z‖ ≤ 0 := by
    split at hsmall
    case isTrue => simpa using hsmall
    case isFalse h0 =>
      obtain ⟨c, hc, -⟩ := h.scale.resolve_left h0
      simpa [hc] using hsmall
  exact norm_le_zero_iff.mp hle

/-- Where the residual of a point of a space is orthogonal to the space, and the Hessian is positive definite on it, the
model has its minimum over the space. -/
theorem quadratic_lt_of_orthogonal (hH : H.IsSymmetric) (hs : s ∈ V) (horth : ∀ v ∈ V, inner ℝ (steepest H g s) v = 0)
    (hpos : ∀ v ∈ V, v ≠ 0 → 0 < inner ℝ v (H v)) {v : Euclidean n} (hv : v ∈ V) (hne : v ≠ s) :
    quadratic H g s < quadratic H g v := by
  have hd : v - s ∈ V := Submodule.sub_mem V hv hs
  have hsplit := quadratic_add (g := g) (s := s) (p := v - s) hH 1
  rw [one_smul, add_sub_cancel, horth _ hd] at hsplit
  rw [hsplit]
  linarith [hpos _ hd (sub_ne_zero.mpr hne)]

section Linear
variable (hk : Linear k H B C)
include hk

theorem Linear.unlimited : Linear { k with safeguard := .unlimited } H B C := by
  have heq : ({ k with safeguard := .unlimited } : Model (Exact ε)) = k := by rw [← hk.safeguard]
  rwa [heq]

theorem Segmented.iter_lt (h : Segmented k H B C g o s it) (hlarge : ¬ k.Settles it (projected B C (steepest H g s)))
    (hp : it.HeadsFor (steepest H g s) (projected B C (steepest H g s)) p) :
    it.iter < Module.finrank ℝ (LinearMap.range (projected B C)) := by
  obtain ⟨hslope, W, hW, hext⟩ := h.heads hk.unlimited hlarge hp
  have hle : W ⊔ Submodule.span ℝ {p} ≤ LinearMap.range (projected B C) :=
    sup_le hW.range ((Submodule.span_singleton_le_iff_mem _ _).mpr (hext.mem_of_le hW.range))
  rw [h.single hk.safeguard]
  exact (hW.count.trans_lt (hext.finrank_lt hslope)).trans_le (Submodule.finrank_mono hle)

/-- No direction is flat where the Hessian is positive definite on the range of the projector. -/
theorem Segmented.curved (h : Segmented k H B C g o s it) (hlarge : ¬ k.Settles it (projected B C (steepest H g s)))
    (hp : it.HeadsFor (steepest H g s) (projected B C (steepest H g s)) p)
    (hpos : ∀ v, C v ≠ 0 → 0 < inner ℝ (C v) (H (C v))) : 0 < inner ℝ p (H p) := by
  obtain ⟨hslope, W, hW, hext⟩ := h.heads hk.unlimited hlarge hp
  obtain ⟨v, rfl⟩ := hext.mem_of_le hW.range
  exact hpos _ (hext.ne_zero hslope)

/-- A solve without a safeguard meets no numerical failure, and no safeguard, wherever its offset is. -/
theorem solve_harmless (hg : k.g = vec g) (o : Euclidean n) (w : Vec (Exact ε)) (work : ℕ) :
    (solve k (vec o) w work).Ensures fun out => ∀ r, out = .ok r → r.stop.Harmless := by
  have hcut : k.safeguard.Cuts n := hk.safeguard ▸ Safeguard.unlimited_cuts
  refine ((segmented_invariant hk.unlimited hg o).answers (hk.unlimited.acts hg hcut) w work).mono fun out hout r hr => ?_
  cases hout r hr with
  | refused hchecks =>
    rcases hchecks.cases with rfl | ⟨-, hguarded⟩
    · exact ⟨rfl, rfl⟩
    · exact absurd hk.safeguard hguarded
  | spent => exact ⟨rfl, rfl⟩
  | stopped _ hs hturn =>
    cases hturn with
    | fault hfault =>
      obtain ⟨W, hW⟩ := hs.segment
      exact absurd hfault (hW.past.sound hk.unlimited hs.at_step.residual hW.slots)
    | stuck _ _ hu hcut => exact absurd (hu.full hk.safeguard) hcut.ne
    | small | flat | rise | cross => exact ⟨rfl, rfl⟩

/-- A single segment stops where the residual is small, along a direction without curvature, or at the boundary. -/
inductive Ends (k : Model (Exact ε)) (H B C : Euclidean n →ₗ[ℝ] Euclidean n) (g s : Euclidean n) (it : Iterate (Exact ε)) :
    TruncatedStop → Euclidean n → Prop
  | small (h : k.Settles it (projected B C (steepest H g s))) : Ends k H B C g s it .relativeErrorSmall s
  | flat {s' : Euclidean n} (h : ¬ ∀ v, C v ≠ 0 → 0 < inner ℝ (C v) (H (C v))) : Ends k H B C g s it .negativeCurvature s'
  | cross {s' : Euclidean n} (h : k.δ ≠ infinite false) : Ends k H B C g s it .trustRegionViolated s'

theorem Segmented.ends (h : Segmented k H B C g o s it) (hin : real ‖o + s‖ ≤ k.δ) {reason : TruncatedStop}
    (hturn : Turn k H C g o s (projected B C (steepest H g s)) it (.stop reason it')) :
    it'.iter ≤ Module.finrank ℝ (LinearMap.range (projected B C)) ∧
      ∃ s', Values H g s' it' ∧ Ends k H B C g s it reason s' := by
  cases hturn with
  | fault hfault =>
    obtain ⟨W, hW⟩ := h.segment
    exact absurd hfault (hW.past.sound hk.unlimited h.at_step.residual hW.slots)
  | small hsmall hit hiter => exact ⟨hiter ▸ h.iter_le hk.safeguard, s, hit, .small hsmall⟩
  | flat hlarge hp hκ _ _ hit hiter =>
    exact ⟨hiter ▸ h.iter_lt hk hlarge hp, _, hit, .flat fun hpos => (h.curved hk hlarge hp hpos).not_ge hκ⟩
  | rise hline hrise => exact absurd (h.down hk.unlimited hin hline) hrise.not_ge
  | stuck _ _ hu hcut => exact absurd (hu.full hk.safeguard) hcut.ne
  | cross hline _ hout hit hiter =>
    refine ⟨hiter ▸ h.iter_lt hk hline.unsettled hline.heads, _, hit, .cross fun hδ => ?_⟩
    exact not_infinite_le (hδ ▸ hout)

/-- Without a safeguard a solve with more iterations than dimensions stops after as many as the preconditioner has
rank: where the residual is small, along a direction without curvature, or at the boundary of the trust region. In an
unbounded trust region and with a Hessian that is positive definite on the range of the projector the residual is
small, and without tolerance the step is the minimum over the range of the preconditioner. -/
theorem solve_terminates (hfit : k.Fits n) (hg : k.g = vec g) (ho : real ‖o‖ ≤ k.δ) (hiter : n < k.par.iterMax)
    {w : Vec (Exact ε)} (hw : w.length = n) {work : ℕ} (hwork : workLength n k.par.orthogMax ≤ work) :
    (solve k (vec o) w work).Yields fun out => ∃ r s, out = .ok r ∧ r.step = vec s ∧
      r.iter ≤ Module.finrank ℝ (LinearMap.range (projected B C)) ∧ r.iter ≤ n ∧
      (r.stop = .relativeErrorSmall ∨ r.stop = .negativeCurvature ∨ r.stop = .trustRegionViolated) ∧
      ((∀ v, C v ≠ 0 → 0 < inner ℝ (C v) (H (C v))) → k.δ = infinite false → r.stop = .relativeErrorSmall ∧
        (k.par.eps = 0 → s ∈ LinearMap.range (projected B C) ∧
          ∀ v ∈ LinearMap.range (projected B C), v ≠ s → quadratic H g s < quadratic H g v)) := by
  have hrank : Module.finrank ℝ (LinearMap.range (projected B C)) ≤ n :=
    (Submodule.finrank_le _).trans_eq finrank_euclideanSpace_fin
  have hcut : k.safeguard.Cuts n := hk.safeguard ▸ Safeguard.unlimited_cuts
  refine ((inside_invariant hk.unlimited hg ho).solve (hk.unlimited.acts hg hcut) hfit hw hwork).mono ?_
  rintro out ⟨r, rfl, hanswer⟩
  cases hanswer with
  | refused hchecks => exact absurd (hchecks.eq_none hk.safeguard ho) nofun
  | spent hs hcount =>
    have hle := hs.1.iter_le hk.safeguard
    omega
  | stopped _ hs hturn =>
    obtain ⟨hs, hin⟩ := hs
    obtain ⟨hcount, s', hit, hends⟩ := hs.ends hk hin hturn
    refine ⟨_, s', rfl, hit.step, hcount, hcount.trans hrank, ?_, fun hpos hδ => ?_⟩
    · cases hends with
      | small => exact .inl rfl
      | flat => exact .inr (.inl rfl)
      | cross => exact .inr (.inr rfl)
    · cases hends with
      | flat h => exact absurd hpos h
      | cross h => exact absurd hδ h
      | small hsmall =>
        refine ⟨rfl, fun heps => ⟨hs.mem, fun v hv hne => ?_⟩⟩
        have hzero := hs.eq_zero heps hsmall
        refine quadratic_lt_of_orthogonal hk.symmetric hs.mem ?_ ?_ hv hne
        · rintro _ ⟨u, rfl⟩
          rw [← hk.projected_symmetric, hzero, inner_zero_left]
        · rintro _ ⟨u, rfl⟩ hu
          exact hpos _ hu

end Linear

theorem solve_terminates_bowl :
    let k : Model (Exact ⟨1, Set.mem_Ioi.mpr one_pos⟩) := bowl .unlimited
    let g : Euclidean 2 := EuclideanSpace.single 0 1
    let o : Euclidean 2 := EuclideanSpace.single 1 (1 / 2)
    let I : Euclidean 2 →ₗ[ℝ] Euclidean 2 := LinearMap.id
    (Linear k I I I ∧ k.Fits 2 ∧ k.g = vec g ∧ real ‖o‖ ≤ k.δ ∧ 2 < k.par.iterMax ∧
      (∀ v, I v ≠ 0 → 0 < inner ℝ (I v) (I (I v))) ∧ k.δ = infinite false ∧ k.par.eps = 0) ∧
    (solve k (vec o) (Vec.zeros 2) 25).Yields fun out => ∃ r s, out = .ok r ∧ r.step = vec s ∧
      r.iter ≤ Module.finrank ℝ (LinearMap.range (projected I I)) ∧ r.iter ≤ 2 ∧
      (r.stop = .relativeErrorSmall ∨ r.stop = .negativeCurvature ∨ r.stop = .trustRegionViolated) ∧
      ((∀ v, I v ≠ 0 → 0 < inner ℝ (I v) (I (I v))) → k.δ = infinite false → r.stop = .relativeErrorSmall ∧
        (k.par.eps = 0 → s ∈ LinearMap.range (projected I I) ∧
          ∀ v ∈ LinearMap.range (projected I I), v ≠ s → quadratic I g s < quadratic I g v)) := by
  intro k g o I
  have hfit : k.Fits 2 := bowl_fits (Safeguard.unlimited_fills 2)
  have hpos : ∀ v, I v ≠ 0 → 0 < inner ℝ (I v) (I (I v)) := fun v hv => real_inner_self_pos.mpr hv
  have hiter : 2 < k.par.iterMax := by decide
  exact ⟨⟨bowl_linear, hfit, rfl, le_infinite, hiter, hpos, rfl, rfl⟩,
    solve_terminates bowl_linear hfit rfl le_infinite hiter (Vec.length_zeros 2) (by decide)⟩

end TruncatedCG
end ConstrainedOpt
