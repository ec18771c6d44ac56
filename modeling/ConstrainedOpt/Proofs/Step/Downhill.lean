import ConstrainedOpt.Proofs.Step.Segments

/-! # Unbounded solves go downhill

Without a trust region and without a safeguard the directions of a solve from zero form a single segment, and the step is
in their space. Each direction is conjugate to that space, so the gradient has the same slope along it as the residual has:
a negative one. Whatever stops the solve after a first direction, the step descends.
-/
namespace ConstrainedOpt.TruncatedCG
open Exact Journaled
variable {ε : Set.Ioi (0 : ℝ)} {n : ℕ} {H M B C : Euclidean n →ₗ[ℝ] Euclidean n} {k : Model (Exact ε)}
  {W : Submodule ℝ (Euclidean n)} {g s r p : Euclidean n} {it it' : Iterate (Exact ε)}

/-- The direction a segment heads for is conjugate to those before. -/
theorem Past.conjugate (hpast : Past H M r it W) (hM : M.IsSymmetric) (hp : it.HeadsFor r (M r) p) :
    ∀ v ∈ W, inner ℝ p (H v) = 0 := by
  cases hpast with
  | first => simp
  | later hconj hprevious =>
    rw [hp.later hprevious rfl rfl hconj.slope.ne']
    exact hconj.conjugate_next hM

/-- The iterate of a solve from zero, whose step is in the space of the directions, and descends once there is one. -/
structure Downhill (k : Model (Exact ε)) (H B C : Euclidean n →ₗ[ℝ] Euclidean n) (g s : Euclidean n)
    (it : Iterate (Exact ε)) : Prop where
  segmented : Segmented k H B C g 0 s it
  spanned : ∃ W, Segment k H B C g s it W ∧ s ∈ W
  slope : it.iter = 0 ∧ s = 0 ∨ inner ℝ g s < 0

theorem Downhill.slope_nonpos (h : Downhill k H B C g s it) : inner ℝ g s ≤ 0 := by
  rcases h.slope with ⟨-, rfl⟩ | h
  · rw [inner_zero_right]
  · exact h.le

section Linear
variable (hk : Linear k H B C)
include hk

/-- The next direction descends, seen from zero as from the step. -/
theorem Downhill.heads (h : Downhill k H B C g s it) (hlarge : ¬ k.Settles it (projected B C (steepest H g s)))
    (hp : it.HeadsFor (steepest H g s) (projected B C (steepest H g s)) p) : inner ℝ g p < 0 := by
  obtain ⟨W, hW, hs⟩ := h.spanned
  have hslope := hk.unlimited.slope_pos h.segmented.scale hlarge
  have hext := hW.past.extends hk.symmetric hk.projected_symmetric hslope hp
  have hconj := hW.past.conjugate hk.projected_symmetric hp s hs
  have hsplit : inner ℝ g p = -inner ℝ (steepest H g s) p - inner ℝ p (H s) := by
    rw [inner_neg_left, inner_add_left, real_inner_comm p (H s)]
    ring
  rw [hsplit, hconj, hext.slope, sub_zero]
  exact neg_lt_zero.mpr hslope

theorem Downhill.next (h : Downhill k H B C g s it)
    (hturn : Turn k H C g 0 s (projected B C (steepest H g s)) it (.next it')) : ∃ s', Downhill k H B C g s' it' := by
  obtain ⟨s', hs', -⟩ := h.segmented.next hk.unlimited hturn
  cases hturn with
  | cut _ _ hu hcut => exact absurd (hu.full hk.safeguard) hcut.ne
  | @full p a _ hline ha _ hit hrecords hseq hprevious =>
    obtain rfl := vec_inj.mp (hs'.at_step.step.symm.trans hit.step)
    obtain ⟨W, hW, hs⟩ := h.spanned
    have hslope := hk.unlimited.slope_pos h.segmented.scale hline.unsettled
    have hext := hW.past.extends hk.symmetric hk.projected_symmetric hslope hline.heads
    refine ⟨_, hs', ⟨_, hW.advance hext hslope h.segmented.filled hline ha hrecords hseq hprevious, ?_⟩, .inr ?_⟩
    · exact Submodule.add_mem _ (Submodule.mem_sup_left hs) (Submodule.smul_mem _ _ (mem_sup_span_self W p))
    · have ha0 : 0 < a := ha ▸ div_pos hslope hline.curved
      have hdown := mul_neg_of_pos_of_neg ha0 (h.heads hk hline.unsettled hline.heads)
      rw [inner_add_right, inner_smul_right]
      linarith [h.slope_nonpos]

theorem downhill_invariant (hg : k.g = vec g) : Invariant k H B C g 0 (Downhill k H B C g) where
  at_step h := h.segmented.at_step
  recalls h := (segmented_invariant hk.unlimited hg 0).recalls h.segmented
  start := ⟨(segmented_invariant hk.unlimited hg 0).start, ⟨⊥, .start rfl rfl, Submodule.zero_mem _⟩, .inl ⟨rfl, rfl⟩⟩
  next h hturn := h.next hk hturn

variable (hδ : k.δ = infinite false)
include hδ

/-- A small residual is not the first one, and a flat direction is followed from zero only: the step that a solve stops
with descends. -/
theorem Downhill.stops (h : Downhill k H B C g s it) {e : ℝ} (heps : k.par.eps = real e) (he : e < 1)
    (hpos : 0 < inner ℝ g (projected B C g)) {reason : TruncatedStop}
    (hturn : Turn k H C g 0 s (projected B C (steepest H g s)) it (.stop reason it')) :
    reason.isNumericalFailure = false ∧ ∃ d, it'.s = vec d ∧ inner ℝ g d < 0 := by
  have hin : real ‖0 + s‖ ≤ k.δ := hδ ▸ le_infinite
  refine ⟨(h.segmented.no_alarm hk.unlimited hin hturn).1, ?_⟩
  cases hturn with
  | fault hfault =>
    obtain ⟨W, hW⟩ := h.segmented.segment
    exact absurd hfault (hW.past.sound hk.unlimited h.segmented.at_step.residual hW.slots)
  | rise hline hrise => exact absurd (h.segmented.down hk.unlimited hin hline) hrise.not_ge
  | stuck _ _ hu hcut => exact absurd (hu.full hk.safeguard) hcut.ne
  | cross _ _ hout => exact absurd (hδ ▸ hout) not_infinite_le
  | small hsmall hit =>
    refine ⟨s, hit.step, ?_⟩
    rcases h.slope with ⟨hiter, rfl⟩ | hneg
    · unfold Model.Settles at hsmall
      rw [if_pos hiter, heps, real_mul, real_le, steepest, map_zero, add_zero, map_neg, norm_neg] at hsmall
      have hz : projected B C g ≠ 0 := by
        intro hz
        rw [hz, inner_zero_right] at hpos
        exact hpos.false
      nlinarith [norm_pos_iff.mpr hz]
    · exact hneg
  | @flat p σ u _ hlarge hp _ hσ hu hit =>
    refine ⟨_, hit.step, ?_⟩
    have hdown := h.heads hk hlarge hp
    rw [hδ, if_neg nofun] at hσ
    rw [hu.full hk.safeguard, mul_one]
    split at hσ
    case isTrue hzero =>
      obtain rfl := real_inj.mp (Except.ok.inj hσ)
      obtain rfl := norm_eq_zero.mp (real_beq.mp hzero)
      rwa [one_smul, zero_add]
    case isFalse hne =>
      obtain rfl := real_inj.mp (Except.ok.inj hσ)
      rw [zero_smul, add_zero]
      refine h.slope.resolve_left ?_
      rintro ⟨-, rfl⟩
      exact hne (real_beq.mpr norm_zero)

/-- A solve from zero without bounds that makes a first pass at a gradient with a slope comes to a step that descends. -/
theorem solve_descends (hfit : k.Fits n) (hg : k.g = vec g) (hiter : 1 ≤ k.par.iterMax) {e : ℝ}
    (heps : k.par.eps = real e) (he : e < 1) (hpos : 0 < inner ℝ g (projected B C g)) {w : Vec (Exact ε)}
    (hw : w.length = n) {work : ℕ} (hwork : workLength n k.par.orthogMax ≤ work) :
    (solve k (vec (0 : Euclidean n)) w work).Yields fun out => ∃ r d, out = .ok r ∧ r.step = vec d ∧
      inner ℝ g d < 0 ∧ r.stop.isNumericalFailure = false := by
  have hcut : k.safeguard.Cuts n := hk.safeguard ▸ Safeguard.unlimited_cuts
  refine ((downhill_invariant hk hg).solve (hk.unlimited.acts hg hcut) hfit hw hwork).mono ?_
  rintro out ⟨r, rfl, hanswer⟩
  cases hanswer with
  | refused hchecks => exact absurd (hchecks.eq_none hk.safeguard (hδ ▸ le_infinite)) nofun
  | @spent s it hs hcount =>
    refine ⟨_, s, rfl, hs.segmented.at_step.step, hs.slope.resolve_left fun h => ?_, rfl⟩
    omega
  | stopped _ hs hturn =>
    obtain ⟨hreason, d, hd, hneg⟩ := hs.stops hk hδ heps he hpos hturn
    exact ⟨_, d, rfl, hd, hneg, hreason⟩

end Linear

end ConstrainedOpt.TruncatedCG
