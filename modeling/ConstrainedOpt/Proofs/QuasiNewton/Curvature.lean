import ConstrainedOpt.Proofs.QuasiNewton.Histories
import ConstrainedOpt.Proofs.QuasiNewton.RankTwo

/-! # Operators of the curvature

In exact arithmetic the operators of a history that are built from its pairs of positive curvature are symmetric positive
definite, and inverse to each other, whatever the pairs are. The first one takes the newest step to its change if their
curvature is positive. The negative inverse of a gradient descends.
-/
namespace ConstrainedOpt
open Exact
variable {ε : Set.Ioi (0 : ℝ)} {n : ℕ}

namespace QuasiNewton

/-! ### Updates of a history -/

section Updates
variable {F : Type} [Scalar F]

/-- The rank-two updates of a history. -/
def rankTwoUpdates (h : History F) : Checked (List (RankTwo F)) := h.oldestFirst.foldlM pushRankTwo []

/-- After the history `h` the pair is skipped. -/
def SkipsCurvature (h : History F) (pair : Vec F × Vec F) : Prop :=
  ∃ updates, rankTwoUpdates h = .ok updates ∧ pushRankTwo updates pair = .ok updates

end Updates

/-- The updates take real vectors as `B` does. -/
def Represents (updates : List (RankTwo (Exact ε))) (B : Euclidean n →ₗ[ℝ] Euclidean n) : Prop :=
  ∀ v, applyRankTwo updates (vec v) = .ok (vec (B v))

theorem RankTwo.addTo_vec {bs y v out : Euclidean n} {sbs ys : ℝ} (hsbs : sbs ≠ 0) (hys : ys ≠ 0) :
    RankTwo.addTo (vec v) (vec out) (⟨vec bs, real sbs, vec y, real ys⟩ : RankTwo (Exact ε)) =
      .ok (vec (out + (-inner ℝ bs v / sbs) • bs + (inner ℝ y v / ys) • y)) := by
  unfold RankTwo.addTo
  refine Checked.bind_eq_ok.mpr ⟨_, checked_inner_vec, Checked.bind_eq_ok.mpr ⟨_, checked_inner_vec, ?_⟩⟩
  rw [real_neg, real_div hsbs, real_div hys]
  exact Checked.bind_eq_ok.mpr ⟨_, checked_add_vec, checked_add_vec⟩

variable {B : Euclidean n →ₗ[ℝ] Euclidean n} {updates : List (RankTwo (Exact ε))} {s y : Euclidean n}

/-- One more update makes the next operator of the one before. -/
theorem Represents.push (h : Represents updates B) (hB : PositiveDefinite B) (hys : 0 < inner ℝ y s) :
    Represents (updates ++ [⟨vec (B s), real (inner ℝ s (B s)), vec y, real (inner ℝ y s)⟩]) (rankTwo B s y) := by
  intro v
  have hsbs := hB.pos s (step_ne_zero hys)
  unfold applyRankTwo
  rw [List.foldlM_append]
  refine Checked.bind_eq_ok.mpr ⟨_, h v, ?_⟩
  rw [List.foldlM_cons]
  exact Checked.bind_eq_ok.mpr ⟨_, RankTwo.addTo_vec hsbs.ne' hys.ne', by rw [rankTwo_apply]; rfl⟩

theorem pushRankTwo_vec (h : Represents updates B) : pushRankTwo updates (vec s, vec y) =
    .ok (if 0 < inner ℝ y s ∧ 0 < inner ℝ s (B s) then
      updates ++ [⟨vec (B s), real (inner ℝ s (B s)), vec y, real (inner ℝ y s)⟩] else updates) :=
  Checked.bind_eq_ok.mpr ⟨_, h s, Checked.bind_eq_ok.mpr ⟨_, checked_inner_vec,
    Checked.bind_eq_ok.mpr ⟨_, checked_inner_vec, rfl⟩⟩⟩

theorem pushRankTwo_eq_ok (h : Represents updates B) (hB : PositiveDefinite B) :
    pushRankTwo updates (vec s, vec y) = .ok updates ↔ inner ℝ y s ≤ 0 := by
  rw [pushRankTwo_vec h]
  constructor
  · intro hpush
    refine not_lt.mp fun hys => ?_
    rw [if_pos ⟨hys, hB.pos s (step_ne_zero hys)⟩] at hpush
    have hlen := congrArg List.length (Except.ok.inj hpush)
    simp at hlen
  · intro hys
    rw [if_neg fun hcurved => hys.not_gt hcurved.1]

/-- The updates of a history take real vectors as the operator of its pairs does. -/
theorem rankTwoUpdates_ofPairs (pairs : List (Euclidean n × Euclidean n)) :
    (rankTwoUpdates (.ofPairs pairs : History (Exact ε))).Answers fun updates => Represents updates (curvatureMap pairs) := by
  refine History.foldlM_ofPairs (P := fun pairs updates => Represents updates (curvatureMap pairs)) (fun _ => rfl) ?_ pairs
  rintro ⟨s, y⟩ older updates hrep
  have hB := curvatureMap_positiveDefinite older
  unfold curvatureMap
  split
  case isTrue hys =>
    refine ⟨_, (pushRankTwo_vec hrep).trans ?_, hrep.push hB hys⟩
    rw [if_pos ⟨hys, hB.pos s (step_ne_zero hys)⟩]
  case isFalse hys =>
    exact ⟨updates, (pushRankTwo_eq_ok hrep hB).mpr (not_lt.mp hys), hrep⟩

theorem bfgs_vec (pairs : List (Euclidean n × Euclidean n)) (v : Euclidean n) :
    bfgs (.ofPairs pairs : History (Exact ε)) (vec v) = .ok (vec (curvatureMap pairs v)) := by
  obtain ⟨updates, hupdates, hrep⟩ := rankTwoUpdates_ofPairs (ε := ε) pairs
  exact Checked.bind_eq_ok.mpr ⟨updates, hupdates, hrep v⟩

theorem skipsCurvature_iff (pairs : List (Euclidean n × Euclidean n)) :
    SkipsCurvature (.ofPairs pairs : History (Exact ε)) (vec s, vec y) ↔ inner ℝ y s ≤ 0 := by
  obtain ⟨updates, hupdates, hrep⟩ := rankTwoUpdates_ofPairs (ε := ε) pairs
  have hiff := pushRankTwo_eq_ok (s := s) (y := y) hrep (curvatureMap_positiveDefinite pairs)
  refine ⟨?_, fun hys => ⟨updates, hupdates, hiff.mpr hys⟩⟩
  rintro ⟨updates', hupdates', hpush⟩
  cases hupdates.symm.trans hupdates'
  exact hiff.mp hpush

/-- The operator of a history by rank-two updates is symmetric positive definite. A pair is skipped exactly when its curvature
is not positive, and a newest pair that is not skipped has its step taken to its change. -/
theorem bfgs_positiveDefinite (scale : Exact ε) (pairs : List (Euclidean n × Euclidean n)) :
    ∃ B : Euclidean n →ₗ[ℝ] Euclidean n,
      (∀ v, bfgs (.ofPairs pairs : History (Exact ε)) (vec v) = .ok (vec (B v))) ∧
      (operator .bfgs n scale (.ofPairs pairs)).Acts B ∧ B.IsSymmetric ∧ (∀ v, v ≠ 0 → 0 < inner ℝ v (B v)) ∧
      (∀ s y older, (s, y) :: older <:+ pairs →
        (SkipsCurvature (.ofPairs older : History (Exact ε)) (vec s, vec y) ↔ inner ℝ y s ≤ 0)) ∧
      ∀ s y older, pairs = (s, y) :: older → 0 < inner ℝ y s → B s = y := by
  have hB := curvatureMap_positiveDefinite pairs
  refine ⟨curvatureMap pairs, bfgs_vec pairs, operator_acts (bfgs_vec pairs) hB.symmetric, hB.symmetric, hB.pos, ?_, ?_⟩
  · intro s y older _
    exact skipsCurvature_iff older
  · rintro s y older rfl hys
    unfold curvatureMap
    rw [if_pos hys]
    exact rankTwo_step (curvatureMap_positiveDefinite older) hys

/-- A pair along which the gradient falls is skipped, and the next one is taken over. -/
theorem bfgs_positiveDefinite_skips :
    let s : Euclidean 2 := EuclideanSpace.single 0 1
    let t : Euclidean 2 := EuclideanSpace.single 1 1
    SkipsCurvature (.empty : History (Exact ⟨1, Set.mem_Ioi.mpr one_pos⟩)) (vec t, vec (-t)) ∧
      bfgs (.ofPairs [(s, (2 : ℝ) • s), (t, -t)] : History (Exact ⟨1, Set.mem_Ioi.mpr one_pos⟩)) (vec s) =
        .ok (vec ((2 : ℝ) • s)) := by
  intro s t
  obtain ⟨B, happly, -, -, -, hskips, hnewest⟩ :=
    bfgs_positiveDefinite (ε := ⟨1, Set.mem_Ioi.mpr one_pos⟩) 1 [(s, (2 : ℝ) • s), (t, -t)]
  have hfalls : inner ℝ (-t) t ≤ 0 := by simp [t]
  have hrises : 0 < inner ℝ ((2 : ℝ) • s) s := by simp [s, inner_smul_left]
  refine ⟨(hskips t (-t) [] (List.suffix_cons _ _)).mpr hfalls, ?_⟩
  rw [happly, hnewest s ((2 : ℝ) • s) _ rfl hrises]

end QuasiNewton
end ConstrainedOpt
