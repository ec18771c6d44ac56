import ConstrainedOpt.Proofs.QuasiNewton.Histories
import ConstrainedOpt.Proofs.QuasiNewton.RankOne

/-! # Operators that reproduce another one

In exact arithmetic the operators of a history by rank-one updates are symmetric, and take over the newest pair if its
denominator passes the test. If all pairs come from one symmetric operator and none is skipped that leaves a residual, they
take over every pair. So from steps that span the space they are that operator or its inverse.
-/
namespace ConstrainedOpt
open Exact
variable {ε : Set.Ioi (0 : ℝ)} {n : ℕ}

namespace QuasiNewton

/-! ### Updates of a history -/

/-- A pair in the direction of an operator: the inverse takes changes to steps. -/
def oriented {α : Type} (inverse : Bool) (pair : α × α) : α × α := if inverse then (pair.2, pair.1) else pair

section Updates
variable {F : Type} [Scalar F]

/-- The rank-one updates of a history. -/
def rankOneUpdates (inverse : Bool) (h : History F) : Checked (List (RankOne F)) :=
  (h.oldestFirst.map (oriented inverse)).foldlM pushRankOne []

/-- What the updates leave of `w` for a pair `(u, w)`. -/
def residual (updates : List (RankOne F)) (pair : Vec F × Vec F) : Checked (Vec F) := do
  updates.foldlM (RankOne.addTo true pair.1) (← Checked.add (-1) pair.1 pair.2)

/-- After the history `h` the residual of the pair is `r`. -/
def Leaves (inverse : Bool) (h : History F) (pair : Vec F × Vec F) (r : Vec F) : Prop :=
  ∃ updates, rankOneUpdates inverse h = .ok updates ∧ residual updates (oriented inverse pair) = .ok r

/-- After the history `h` the denominator of the pair passes the test. -/
def Passes (inverse : Bool) (h : History F) (pair : Vec F × Vec F) : Prop :=
  ∃ r ru, Leaves inverse h pair r ∧ Checked.inner r (oriented inverse pair).1 = .ok ru ∧
    Scalar.sqrt Scalar.epsilon * Vec.norm r * Vec.norm (oriented inverse pair).1 < Scalar.abs ru

/-- After the history `h` the pair is skipped. -/
def SkipsRankOne (inverse : Bool) (h : History F) (pair : Vec F × Vec F) : Prop :=
  ∃ updates, rankOneUpdates inverse h = .ok updates ∧ pushRankOne updates (oriented inverse pair) = .ok updates

theorem pushRankOne_eq (updates : List (RankOne F)) (pair : Vec F × Vec F) : pushRankOne updates pair = do
    let r ← residual updates pair
    let ru ← Checked.inner r pair.1
    return if Scalar.sqrt Scalar.epsilon * Vec.norm r * Vec.norm pair.1 < Scalar.abs ru then updates ++ [⟨r, ru⟩]
      else updates := by
  unfold residual
  rw [bind_assoc]
  rfl

end Updates

theorem oriented_storedPair (inverse : Bool) (q : Euclidean n × Euclidean n) :
    oriented inverse (storedPair q : Vec (Exact ε) × Vec (Exact ε)) = storedPair (oriented inverse q) := by
  cases inverse <;> rfl

/-- The updates add to a vector what `M` does to another one, or take it away. -/
def Adds (updates : List (RankOne (Exact ε))) (M : Euclidean n →ₗ[ℝ] Euclidean n) : Prop :=
  ∀ (negative : Bool) (u out : Euclidean n), updates.foldlM (RankOne.addTo negative (vec u)) (vec out) =
    .ok (vec (out + (if negative then -1 else 1 : ℝ) • (M u - u)))

theorem RankOne.addTo_vec {negative : Bool} {r u out : Euclidean n} {ru : ℝ} (hru : ru ≠ 0) :
    RankOne.addTo negative (vec u) (vec out) (⟨vec r, real ru⟩ : RankOne (Exact ε)) =
      .ok (vec (out + (if negative then -1 else 1 : ℝ) • (inner ℝ r u / ru) • r)) := by
  refine Checked.bind_eq_ok.mpr ⟨_, checked_inner_vec, ?_⟩
  rw [real_div hru]
  cases negative with
  | true =>
    rw [if_pos rfl, neg_one_smul, ← neg_smul]
    exact checked_add_vec
  | false =>
    rw [if_neg Bool.false_ne_true, one_smul]
    exact checked_add_vec

variable {M : Euclidean n →ₗ[ℝ] Euclidean n} {updates : List (RankOne (Exact ε))} {u w : Euclidean n}

theorem Adds.push (h : Adds updates M) (hru : inner ℝ (w - M u) u ≠ 0) :
    Adds (updates ++ [⟨vec (w - M u), real (inner ℝ (w - M u) u)⟩]) (rankOneUpdate M u w) := by
  intro negative v out
  rw [List.foldlM_append]
  refine Checked.bind_eq_ok.mpr ⟨_, h negative v out, ?_⟩
  rw [List.foldlM_cons]
  refine Checked.bind_eq_ok.mpr ⟨_, RankOne.addTo_vec hru, ?_⟩
  rw [List.foldlM_nil, rankOneUpdate_apply, add_sub_right_comm, smul_add, add_assoc]
  rfl

theorem Adds.residual (h : Adds updates M) : residual updates (vec u, vec w) = .ok (vec (w - M u)) := by
  refine Checked.bind_eq_ok.mpr ⟨vec (w + (-1 : ℝ) • u), checked_add_vec, ?_⟩
  have hleft : w - M u = w + (-1 : ℝ) • u + (-1 : ℝ) • (M u - u) := by module
  rw [hleft]
  exact h true u _

/-- The test of the denominator is that of the real numbers. -/
theorem test_iff {r : Euclidean n} {c : ℝ} :
    Scalar.sqrt Scalar.epsilon * Vec.norm (vec r) * Vec.norm (vec u) < Scalar.abs (real c : Exact ε) ↔
      √ε * ‖r‖ * ‖u‖ < |c| := by
  have hsqrt : Scalar.sqrt (Scalar.epsilon : Exact ε) = real √ε := sqrt_real (le_of_lt ε.2)
  rw [hsqrt, norm_vec, norm_vec]
  exact Iff.rfl

/-- A pair extends the updates if it is admitted. -/
theorem Adds.extends (h : Adds updates M) (hadmits : Admits √ε M u w) : pushRankOne updates (vec u, vec w) =
    .ok (updates ++ [⟨vec (w - M u), real (inner ℝ (w - M u) u)⟩]) := by
  rw [pushRankOne_eq]
  refine Checked.bind_eq_ok.mpr ⟨_, h.residual, Checked.bind_eq_ok.mpr ⟨_, checked_inner_vec, ?_⟩⟩
  rw [if_pos (test_iff.mpr hadmits)]
  rfl

theorem Adds.skips (h : Adds updates M) (hadmits : ¬ Admits √ε M u w) : pushRankOne updates (vec u, vec w) = .ok updates := by
  rw [pushRankOne_eq]
  refine Checked.bind_eq_ok.mpr ⟨_, h.residual, Checked.bind_eq_ok.mpr ⟨_, checked_inner_vec, ?_⟩⟩
  rw [if_neg (mt test_iff.mp hadmits)]
  rfl

theorem Adds.skips_iff (h : Adds updates M) : pushRankOne updates (vec u, vec w) = .ok updates ↔ ¬ Admits √ε M u w := by
  refine ⟨fun hpush hadmits => ?_, h.skips⟩
  have hlen := congrArg List.length (Except.ok.inj ((h.extends hadmits).symm.trans hpush))
  simp at hlen

/-- The operator of a history, its pairs in the direction of the operator. -/
noncomputable def secantMap (ε : Set.Ioi (0 : ℝ)) (inverse : Bool) (pairs : List (Euclidean n × Euclidean n)) :
    Euclidean n →ₗ[ℝ] Euclidean n := rankOneMap √ε (pairs.map (oriented inverse))

/-- The updates of a history add what the operator of its pairs does. -/
theorem rankOneUpdates_ofPairs (inverse : Bool) (pairs : List (Euclidean n × Euclidean n)) :
    (rankOneUpdates inverse (.ofPairs pairs : History (Exact ε))).Answers fun updates =>
      Adds updates (secantMap ε inverse pairs) := by
  have hid : Adds ([] : List (RankOne (Exact ε))) (LinearMap.id : Euclidean n →ₗ[ℝ] Euclidean n) := by
    intro negative u out
    rw [LinearMap.id_apply, sub_self, smul_zero, add_zero]
    rfl
  unfold rankOneUpdates
  rw [List.foldlM_map]
  refine History.foldlM_ofPairs (P := fun pairs updates => Adds updates (secantMap ε inverse pairs)) hid ?_ pairs
  intro q older updates hadds
  rw [oriented_storedPair]
  unfold secantMap at hadds ⊢
  rw [List.map_cons]
  unfold rankOneMap
  split
  case isTrue hadmits => exact ⟨_, hadds.extends hadmits, hadds.push (hadmits.ne_zero (Real.sqrt_nonneg _))⟩
  case isFalse hadmits => exact ⟨updates, hadds.skips hadmits, hadds⟩

theorem sr1_vec (inverse : Bool) (pairs : List (Euclidean n × Euclidean n)) (v : Euclidean n) :
    sr1 inverse (.ofPairs pairs : History (Exact ε)) (vec v) = .ok (vec (secantMap ε inverse pairs v)) := by
  obtain ⟨updates, hupdates, hadds⟩ := rankOneUpdates_ofPairs (ε := ε) inverse pairs
  refine Checked.bind_eq_ok.mpr ⟨updates, hupdates, (hadds false v v).trans ?_⟩
  rw [if_neg Bool.false_ne_true, one_smul, add_sub_cancel]

/-! ### What becomes of a pair -/

section Pair
variable (inverse : Bool) (older : List (Euclidean n × Euclidean n)) (q : Euclidean n × Euclidean n)

theorem leaves_iff {r : Vec (Exact ε)} : Leaves inverse (.ofPairs older) (storedPair q) r ↔
    r = vec ((oriented inverse q).2 - secantMap ε inverse older (oriented inverse q).1) := by
  obtain ⟨updates, hupdates, hadds⟩ := rankOneUpdates_ofPairs (ε := ε) inverse older
  unfold Leaves
  rw [oriented_storedPair]
  constructor
  · rintro ⟨updates', hupdates', hr⟩
    cases hupdates.symm.trans hupdates'
    exact Except.ok.inj (hr.symm.trans hadds.residual)
  · rintro rfl
    exact ⟨updates, hupdates, hadds.residual⟩

theorem passes_iff : Passes inverse (.ofPairs older : History (Exact ε)) (storedPair q) ↔
    Admits √ε (secantMap ε inverse older) (oriented inverse q).1 (oriented inverse q).2 := by
  unfold Passes
  rw [oriented_storedPair]
  constructor
  · rintro ⟨r, ru, hleaves, hru, htest⟩
    cases (leaves_iff inverse older q).mp hleaves
    rw [checked_inner_eq_ok hru] at htest
    exact test_iff.mp htest
  · intro hadmits
    exact ⟨_, _, (leaves_iff inverse older q).mpr rfl, checked_inner_vec, test_iff.mpr hadmits⟩

theorem skipsRankOne_iff : SkipsRankOne inverse (.ofPairs older : History (Exact ε)) (storedPair q) ↔
    ¬ Passes inverse (.ofPairs older : History (Exact ε)) (storedPair q) := by
  obtain ⟨updates, hupdates, hadds⟩ := rankOneUpdates_ofPairs (ε := ε) inverse older
  rw [passes_iff]
  unfold SkipsRankOne
  rw [oriented_storedPair]
  constructor
  · rintro ⟨updates', hupdates', hpush⟩
    cases hupdates.symm.trans hupdates'
    exact hadds.skips_iff.mp hpush
  · intro hadmits
    exact ⟨updates, hupdates, hadds.skips_iff.mpr hadmits⟩

end Pair

/-! ### Pairs of one operator -/

section Reproduction
variable {inverse : Bool} {pairs : List (Euclidean n × Euclidean n)} {G : Euclidean n →ₗ[ℝ] Euclidean n}

/-- When a pair is considered, it passes the test or leaves nothing. -/
def NoneLost (ε : Set.Ioi (0 : ℝ)) (inverse : Bool) (pairs : List (Euclidean n × Euclidean n)) : Prop :=
  ∀ q older, q :: older <:+ pairs → Passes inverse (.ofPairs older : History (Exact ε)) (storedPair q) ∨
    Leaves inverse (.ofPairs older : History (Exact ε)) (storedPair q) (vec (0 : Euclidean n))

theorem NoneLost.regular (h : NoneLost ε inverse pairs) : Regular √ε (pairs.map (oriented inverse)) := by
  intro p rest hsuffix
  obtain ⟨taken, htaken, hmap⟩ := List.suffix_map_iff.mp hsuffix
  obtain ⟨q, older, rfl, rfl, rfl⟩ := List.map_eq_cons_iff.mp hmap.symm
  refine (h q older htaken).imp (passes_iff inverse older q).mp fun hleaves => ?_
  exact (vec_inj.mp ((leaves_iff inverse older q).mp hleaves)).symm

theorem agree_of_isSymmetric (inverse : Bool) (hG : G.IsSymmetric) (hpairs : ∀ q ∈ pairs, q.2 = G q.1) :
    Agree (pairs.map (oriented inverse)) := by
  have hagree : ∀ p ∈ pairs, ∀ q ∈ pairs, inner ℝ p.2 q.1 = inner ℝ p.1 q.2 := by
    intro p hp q hq
    rw [hpairs p hp, hpairs q hq]
    exact hG p.1 q.1
  rintro _ hp' _ hq'
  obtain ⟨p, hp, rfl⟩ := List.mem_map.mp hp'
  obtain ⟨q, hq, rfl⟩ := List.mem_map.mp hq'
  cases inverse with
  | false => exact hagree p hp q hq
  | true => exact (hagree p hp q hq).symm

theorem secantMap_reproduces (hlost : NoneLost ε inverse pairs) (hG : G.IsSymmetric) (hpairs : ∀ q ∈ pairs, q.2 = G q.1) :
    ∀ q ∈ pairs, secantMap ε inverse pairs (oriented inverse q).1 = (oriented inverse q).2 := fun q hq =>
  rankOneMap_reproduces (Real.sqrt_nonneg _) hlost.regular (agree_of_isSymmetric inverse hG hpairs) (oriented inverse q)
    (List.mem_map_of_mem hq)

/-- The operator of a history by rank-one updates is symmetric. It takes over the newest pair if its denominator passes the
test, and all pairs of one symmetric operator unless one of them is lost. From steps that span the space it is that operator,
and the inverse undoes it. -/
theorem sr1_reproduces (inverse : Bool) (scale : Exact ε) (pairs : List (Euclidean n × Euclidean n)) :
    ∃ M : Euclidean n →ₗ[ℝ] Euclidean n,
      (∀ v, sr1 inverse (.ofPairs pairs : History (Exact ε)) (vec v) = .ok (vec (M v))) ∧
      (operator (if inverse then .invSr1 else .sr1) n scale (.ofPairs pairs)).Acts M ∧ M.IsSymmetric ∧
      (∀ q older, q :: older <:+ pairs → (SkipsRankOne inverse (.ofPairs older : History (Exact ε)) (storedPair q) ↔
        ¬ Passes inverse (.ofPairs older : History (Exact ε)) (storedPair q))) ∧
      (∀ q older, pairs = q :: older → Passes inverse (.ofPairs older : History (Exact ε)) (storedPair q) →
        M (oriented inverse q).1 = (oriented inverse q).2) ∧
      ∀ G : Euclidean n →ₗ[ℝ] Euclidean n, G.IsSymmetric → (∀ q ∈ pairs, q.2 = G q.1) → NoneLost ε inverse pairs →
        (∀ q ∈ pairs, M (oriented inverse q).1 = (oriented inverse q).2) ∧
        (Submodule.span ℝ {s | ∃ q ∈ pairs, q.1 = s} = ⊤ →
          (inverse = false → M = G) ∧ (inverse = true → ∀ v, M (G v) = v)) := by
  have hM : (secantMap ε inverse pairs).IsSymmetric := rankOneMap_isSymmetric _ _
  refine ⟨secantMap ε inverse pairs, sr1_vec inverse pairs, ?_, hM, ?_, ?_, ?_⟩
  · cases inverse with
    | false => exact operator_acts (sr1_vec false pairs) hM
    | true => exact operator_acts (sr1_vec true pairs) hM
  · intro q older _
    exact skipsRankOne_iff inverse older q
  · rintro q older rfl hpasses
    exact rankOneMap_newest (Real.sqrt_nonneg _) ((passes_iff inverse older q).mp hpasses)
  · intro G hG hpairs hlost
    have hall := secantMap_reproduces hlost hG hpairs
    refine ⟨hall, fun hspan => ⟨?_, ?_⟩⟩
    · rintro rfl
      refine LinearMap.ext_on hspan ?_
      rintro _ ⟨q, hq, rfl⟩
      exact (hall q hq).trans (hpairs q hq)
    · rintro rfl
      have hid : secantMap ε true pairs ∘ₗ G = LinearMap.id := by
        refine LinearMap.ext_on hspan ?_
        rintro _ ⟨q, hq, rfl⟩
        rw [LinearMap.comp_apply, ← hpairs q hq]
        exact hall q hq
      exact LinearMap.congr_fun hid

end Reproduction

/-! ### A stretch along an axis -/

section Stretch

noncomputable abbrev axis (i : Fin 2) : Euclidean 2 := EuclideanSpace.single i 1

theorem inner_axis (i j : Fin 2) : inner ℝ (axis i) (axis j) = if i = j then 1 else 0 := by
  simp [EuclideanSpace.inner_single_left]

theorem norm_axis (i : Fin 2) : ‖axis i‖ = 1 := by simp

/-- Twice the part along the first axis, and four times the one along the second. -/
noncomputable def stretch : Euclidean 2 →ₗ[ℝ] Euclidean 2 := along (1 / 2) (axis 0) (axis 0) + along (1 / 4) (axis 1) (axis 1)

theorem stretch_apply (v : Euclidean 2) :
    stretch v = (2 * inner ℝ (axis 0) v) • axis 0 + (4 * inner ℝ (axis 1) v) • axis 1 := by
  rw [stretch, LinearMap.add_apply, along_apply, along_apply]
  congr 2 <;> ring

theorem stretch_isSymmetric : stretch.IsSymmetric := (along_isSymmetric _ _).add (along_isSymmetric _ _)

/-- A step along the first axis, and after it one between the axes. -/
noncomputable def stretchPairs : List (Euclidean 2 × Euclidean 2) :=
  [(axis 0 + axis 1, stretch (axis 0 + axis 1)), (axis 0, stretch (axis 0))]

theorem span_stretchPairs : Submodule.span ℝ {s | ∃ q ∈ stretchPairs, q.1 = s} = ⊤ := by
  refine Submodule.eq_top_iff'.mpr fun v => ?_
  have hboth : axis 0 + axis 1 ∈ Submodule.span ℝ {s | ∃ q ∈ stretchPairs, q.1 = s} :=
    Submodule.subset_span ⟨_, List.mem_cons_self, rfl⟩
  have hfirst : axis 0 ∈ Submodule.span ℝ {s | ∃ q ∈ stretchPairs, q.1 = s} :=
    Submodule.subset_span ⟨_, List.mem_cons_of_mem _ List.mem_cons_self, rfl⟩
  have hv : v = v 1 • (axis 0 + axis 1) + (v 0 - v 1) • axis 0 := by
    ext i
    fin_cases i <;> simp
  rw [hv]
  exact Submodule.add_mem _ (Submodule.smul_mem _ _ hboth) (Submodule.smul_mem _ _ hfirst)

/-- The older pair leaves a residual along the first axis, the newer one along the second. -/
theorem noneLost_stretchPairs (hε : √(ε : ℝ) = 1 / 10) : NoneLost ε false stretchPairs := by
  have hid : ∀ v : Euclidean 2, secantMap ε false [] v = v := fun _ => rfl
  have hfirst : stretch (axis 0) - secantMap ε false [] (axis 0) = axis 0 := by
    rw [hid, stretch_apply, inner_axis, inner_axis, if_pos rfl, if_neg one_ne_zero]
    module
  have holder : Admits √ε (secantMap ε false []) (axis 0) (stretch (axis 0)) := by
    unfold Admits
    rw [hfirst, hε, inner_axis, if_pos rfl, norm_axis]
    norm_num
  have hupdate : secantMap ε false [(axis 0, stretch (axis 0))] =
      rankOneUpdate (secantMap ε false []) (axis 0) (stretch (axis 0)) := if_pos holder
  have hsecond : stretch (axis 0 + axis 1) - secantMap ε false [(axis 0, stretch (axis 0))] (axis 0 + axis 1) =
      (3 : ℝ) • axis 1 := by
    rw [hupdate, rankOneUpdate_apply, hfirst, hid, stretch_apply, inner_add_right, inner_add_right]
    simp only [inner_axis, if_pos, one_ne_zero, zero_ne_one, if_false]
    module
  have hnewer : Admits √ε (secantMap ε false [(axis 0, stretch (axis 0))]) (axis 0 + axis 1) (stretch (axis 0 + axis 1)) := by
    have hnorm : ‖axis 0 + axis 1‖ ≤ 2 := by
      refine (norm_add_le _ _).trans ?_
      rw [norm_axis, norm_axis]
      norm_num
    unfold Admits
    rw [hsecond, hε, inner_smul_left, inner_add_right, inner_axis, inner_axis, norm_smul, norm_axis]
    norm_num
    linarith
  intro q older hsuffix
  refine .inl ((passes_iff false older q).mpr ?_)
  rcases List.suffix_cons_iff.mp hsuffix with hall | hrest
  · cases hall
    exact hnewer
  · rcases List.suffix_cons_iff.mp hrest with hone | hnone
    · cases hone
      exact holder
    · exact absurd (List.suffix_nil.mp hnone) (List.cons_ne_nil q older)

theorem sr1_reproduces_stretch :
    let ε : Set.Ioi (0 : ℝ) := ⟨(1 / 10) ^ 2, Set.mem_Ioi.mpr (by norm_num)⟩
    stretch.IsSymmetric ∧ NoneLost ε false stretchPairs ∧
      ∀ v, sr1 false (.ofPairs stretchPairs : History (Exact ε)) (vec v) = .ok (vec (stretch v)) := by
  intro ε
  have hlost : NoneLost ε false stretchPairs := noneLost_stretchPairs (Real.sqrt_sq (by norm_num))
  have hpairs : ∀ q ∈ stretchPairs, q.2 = stretch q.1 := by simp [stretchPairs]
  obtain ⟨M, happly, -, -, -, -, hreproduces⟩ := sr1_reproduces false (1 : Exact ε) stretchPairs
  have hM : M = stretch := (hreproduces stretch stretch_isSymmetric hpairs hlost).2 span_stretchPairs |>.1 rfl
  exact ⟨stretch_isSymmetric, hlost, fun v => (happly v).trans (by rw [hM])⟩

end Stretch

end QuasiNewton
end ConstrainedOpt
