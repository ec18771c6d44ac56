import Mathlib.Analysis.Convex.Basic
import ConstrainedOpt.Step.Safeguard
import ConstrainedOpt.Proofs.Exact.Operator
import ConstrainedOpt.Proofs.Step.Sphere

/-! # Safe steps, exactly

A safeguard guards a convex set of steps when it takes a safe step no further than to another one, and all the
way to a safe one. In exact arithmetic the safeguard of a linearised constraint guards the steps that keep
their part of the slack.
-/
namespace ConstrainedOpt
open Exact Journaled
variable {ε : Set.Ioi (0 : ℝ)} {n m : ℕ}

/-- The fractions of the path from `x` along `p` that end in the set. -/
def fractions (S : Set (Euclidean n)) (x p : Euclidean n) : Set ℝ := {t | 0 ≤ t ∧ t ≤ 1 ∧ x + t • p ∈ S}

theorem isGreatest_one {S : Set (Euclidean n)} {x p : Euclidean n} (h : x + p ∈ S) : IsGreatest (fractions S x p) 1 :=
  ⟨⟨zero_le_one, le_rfl, by rwa [one_smul]⟩, fun _ ht => ht.2.1⟩

structure Safeguard.Guards (sg : Safeguard (Exact ε)) (safe : Set (Euclidean n)) : Prop where
  convex : Convex ℝ safe
  fraction : ∀ call x d, x ∈ safe → (sg.fraction call (vec x) (vec d)).Ensures fun θ =>
    ∃ t, θ = real t ∧ 0 ≤ t ∧ t ≤ 1 ∧ x + t • d ∈ safe ∧ (x + d ∈ safe → t = 1)

/-- From a safe base the safeguard answers with the largest safe fraction. -/
def Safeguard.Measures (sg : Safeguard (Exact ε)) (safe : Set (Euclidean n)) : Prop :=
  ∀ call x d, x ∈ safe → (sg.fraction call (vec x) (vec d)).Ensures fun θ =>
    ∃ t, θ = real t ∧ IsGreatest (fractions safe x d) t

theorem Safeguard.Measures.guards {sg : Safeguard (Exact ε)} {safe : Set (Euclidean n)} (hsg : sg.Measures safe)
    (hconvex : Convex ℝ safe) : sg.Guards safe where
  convex := hconvex
  fraction call x d hx := by
    refine (hsg call x d hx).mono ?_
    rintro _ ⟨t, rfl, hgreatest⟩
    obtain ⟨h0, h1, hmem⟩ := hgreatest.1
    exact ⟨t, rfl, h0, h1, hmem, fun hd => hgreatest.unique (isGreatest_one hd)⟩

theorem Safeguard.unlimited_guards : (unlimited : Safeguard (Exact ε)).Guards (Set.univ : Set (Euclidean n)) where
  convex := convex_univ
  fraction _ _ _ _ := ensures_pure ⟨1, rfl, zero_le_one, le_rfl, trivial, fun _ => rfl⟩

/-- Between two safe steps every step is safe. -/
theorem Safeguard.Guards.between {sg : Safeguard (Exact ε)} {safe : Set (Euclidean n)} (hsg : sg.Guards safe)
    {x d : Euclidean n} {θ : ℝ} (hx : x ∈ safe) (hd : x + d ∈ safe) (h0 : 0 ≤ θ) (h1 : θ ≤ 1) :
    x + θ • d ∈ safe := by
  have h := hsg.convex.add_smul_sub_mem hx hd ⟨h0, h1⟩
  rwa [add_sub_cancel_left] at h

/-- The steps of norm at most `δ`, possibly infinite, that are safe. -/
structure Within (safe : Set (Euclidean n)) (δ : Exact ε) (x : Euclidean n) : Prop where
  norm : real ‖x‖ ≤ δ
  safe : x ∈ safe

/-- A part of a step that stays in a ball stays in it, also when the ball is the whole space. -/
theorem Exact.norm_part_le {δ : Exact ε} {x d : Euclidean n} {θ : ℝ} (hx : real ‖x‖ ≤ δ) (hd : real ‖x + d‖ ≤ δ)
    (h0 : 0 ≤ θ) (h1 : θ ≤ 1) : real ‖x + θ • d‖ ≤ δ := by
  cases δ with
  | nan => exact absurd hx not_le_nan
  | infinite s => exact real_le_infinite.mpr (real_le_infinite.mp hx)
  | real δ => exact real_le.mpr (Sphere.norm_add_smul_le (real_le.mp hx) (real_le.mp hd) h0 h1)

/-- A step cut to its safe part stays within the bounds. -/
theorem Within.cut {safe : Set (Euclidean n)} {δ : Exact ε} {x d : Euclidean n} {θ : ℝ} (hx : Within safe δ x)
    (hd : real ‖x + d‖ ≤ δ) (hsafe : x + θ • d ∈ safe) (h0 : 0 ≤ θ) (h1 : θ ≤ 1) : Within safe δ (x + θ • d) :=
  ⟨norm_part_le hx.norm hd h0 h1, hsafe⟩

/-- Up to the bounds on the way along `p` every step stays within them. -/
theorem Within.upTo {sg : Safeguard (Exact ε)} {safe : Set (Euclidean n)} (hsg : sg.Guards safe) {δ : Exact ε}
    {x p : Euclidean n} {t u θ : ℝ} (hx : Within safe δ x) (ht : real ‖x + t • p‖ ≤ δ) (hu : x + u • p ∈ safe)
    (h0 : 0 ≤ θ) (hθt : θ ≤ t) (hθu : θ ≤ u) : Within safe δ (x + θ • p) := by
  rcases h0.eq_or_lt with hθ | hθ
  · rw [← hθ, zero_smul, add_zero]
    exact hx
  · have hpart : ∀ v, θ ≤ v → 0 ≤ θ / v ∧ θ / v ≤ 1 ∧ θ • p = (θ / v) • v • p := by
      intro v hv
      have hv0 : 0 < v := hθ.trans_le hv
      exact ⟨div_nonneg h0 hv0.le, (div_le_one hv0).mpr hv, by rw [smul_smul, div_mul_cancel₀ θ hv0.ne']⟩
    constructor
    · obtain ⟨h0, h1, hp⟩ := hpart t hθt
      exact hp ▸ norm_part_le hx.norm ht h0 h1
    · obtain ⟨h0, h1, hp⟩ := hpart u hθu
      exact hp ▸ hsg.between hx.safe hu h0 h1

/-! ### The boundary of the orthant -/

namespace Exact

/-- The values a length to the boundary may have: none, or a real one. -/
def IsReach (a : Exact ε) : Prop := a = infinite false ∨ ∃ x, a = real x

theorem IsReach.not_nan {a : Exact ε} (h : IsReach a) : Scalar.isNaN a = false := by
  rcases h with rfl | ⟨x, rfl⟩ <;> rfl

theorem infinite_minNum (y : ℝ) : Scalar.minNum (infinite false) (real y) = (real y : Exact ε) := by
  have hlt : real y < (infinite false : Exact ε) := rfl
  unfold Scalar.minNum
  rw [if_neg nofun, if_neg nofun, if_pos hlt]

theorem IsReach.minNum {a : Exact ε} (h : IsReach a) (y : ℝ) :
    ∃ z, Scalar.minNum a (real y) = real z ∧ ∀ t, t ≤ z ↔ real t ≤ a ∧ t ≤ y := by
  rcases h with rfl | ⟨x, rfl⟩
  · exact ⟨y, infinite_minNum y, fun t => ⟨fun ht => ⟨rfl, ht⟩, And.right⟩⟩
  · exact ⟨min x y, minNum_real, fun t => le_min_iff⟩

/-- One step of the search for the first boundary. -/
noncomputable def cutReach (a : Exact ε) (p : Exact ε × Exact ε) : Exact ε :=
  if p.1 < 0 then Scalar.minNum a (-p.2 / p.1) else a

theorem IsReach.foldl {a : Exact ε} (h : IsReach a) (l : List (ℝ × ℝ)) :
    IsReach ((l.map fun p => (real p.1, real p.2)).foldl cutReach a) ∧
    ∀ t, real t ≤ (l.map fun p => (real p.1, real p.2)).foldl cutReach a ↔
      real t ≤ a ∧ ∀ p ∈ l, p.1 < 0 → t ≤ -p.2 / p.1 := by
  induction l generalizing a with
  | nil => exact ⟨h, by simp⟩
  | cons p l ih =>
    rw [List.map_cons, List.foldl_cons]
    by_cases hp : p.1 < 0
    · obtain ⟨z, hz, hle⟩ := h.minNum (-p.2 / p.1)
      have hcut : cutReach a (real p.1, real p.2) = real z := by
        unfold cutReach
        rw [zero_eq, if_pos (real_lt.mpr hp), real_neg, real_div hp.ne, hz]
      rw [hcut]
      obtain ⟨hreach, hiff⟩ := ih (.inr ⟨z, rfl⟩)
      refine ⟨hreach, fun t => ?_⟩
      rw [hiff, real_le, hle]
      simp [hp, and_assoc]
    · have hcut : cutReach a (real p.1, real p.2) = a := by
        unfold cutReach
        rw [zero_eq, if_neg (mt real_lt.mp hp)]
      rw [hcut]
      obtain ⟨hreach, hiff⟩ := ih h
      refine ⟨hreach, fun t => ?_⟩
      rw [hiff]
      simp [hp]

/-- Up to the length to the boundary no entry along the ray has become negative. -/
theorem boundaryLength_spec (d y : Euclidean m) :
    IsReach (Vec.boundaryLength (vec d) (vec y : Vec (Exact ε))) ∧
    ∀ t, real t ≤ Vec.boundaryLength (vec d) (vec y : Vec (Exact ε)) ↔ ∀ i, d i < 0 → t ≤ -y i / d i := by
  have hnan : ∀ v : Euclidean m, (vec v : Vec (Exact ε)).any Scalar.isNaN = false := by
    intro v
    simp [vec]
  have hzip : (vec d : Vec (Exact ε)).zip (vec y : Vec (Exact ε)) =
      (List.ofFn fun i => (d i, y i)).map fun p => ((real p.1, real p.2) : Exact ε × Exact ε) := by
    rw [List.map_ofFn, vec, vec, List.zip, zipWith_ofFn]
    rfl
  have hfold : Vec.boundaryLength (vec d) (vec y : Vec (Exact ε)) =
      ((List.ofFn fun i => (d i, y i)).map fun p => (real p.1, real p.2)).foldl cutReach (infinite false) := by
    unfold Vec.boundaryLength
    rw [hnan, hnan, if_neg (by decide), hzip]
    rfl
  obtain ⟨hreach, hiff⟩ := IsReach.foldl (ε := ε) (.inl rfl) (List.ofFn fun i => (d i, y i))
  rw [hfold]
  refine ⟨hreach, fun t => (hiff t).trans ⟨fun h i => ?_, fun h => ⟨rfl, ?_⟩⟩⟩
  · exact h.2 (d i, y i) (List.mem_ofFn.mpr ⟨i, rfl⟩)
  · intro p hp
    obtain ⟨i, rfl⟩ := List.mem_ofFn.mp hp
    exact h i

theorem neg_ones_eq : Vec.scale (-1) (Vec.ones m) = (vec (WithLp.toLp 2 fun _ => -1 : Euclidean m) : Vec (Exact ε)) := by
  unfold Vec.scale Vec.ones vec
  rw [← List.ofFn_const, List.map_ofFn]
  congr 1
  funext i
  simp

/-- Against the identity the length to the boundary is the least entry, if there is one. -/
theorem boundaryLength_neg_ones (y : Euclidean m) :
    (∃ i, Vec.boundaryLength (Vec.scale (-1) (Vec.ones m)) (vec y : Vec (Exact ε)) = real (y i) ∧ ∀ j, y i ≤ y j) ∨
    m = 0 ∧ Vec.boundaryLength (Vec.scale (-1) (Vec.ones m)) (vec y : Vec (Exact ε)) = infinite false := by
  obtain ⟨hreach, hiff⟩ := boundaryLength_spec (ε := ε) (WithLp.toLp 2 fun _ => -1 : Euclidean m) y
  rw [← neg_ones_eq] at hreach hiff
  have hle : ∀ t, real t ≤ Vec.boundaryLength (Vec.scale (-1) (Vec.ones m)) (vec y : Vec (Exact ε)) ↔ ∀ i, t ≤ y i := by
    intro t
    rw [hiff]
    simp
  rcases Nat.eq_zero_or_pos m with rfl | hm
  · refine .inr ⟨rfl, hreach.resolve_right ?_⟩
    rintro ⟨x, hx⟩
    have hmore : real (x + 1) ≤ (real x : Exact ε) := hx ▸ (hle (x + 1)).mpr fun i => i.elim0
    exact absurd (real_le.mp hmore) (by linarith)
  · have : Nonempty (Fin m) := ⟨⟨0, hm⟩⟩
    obtain ⟨i, hi⟩ := Finite.exists_min y
    refine .inl ⟨i, ?_, hi⟩
    rcases hreach with hinf | ⟨x, hx⟩
    · have hmore := (hle (y i + 1)).mp (hinf ▸ le_infinite) i
      exact absurd hmore (by linarith)
    · have hlow : real (y i) ≤ (real x : Exact ε) := hx ▸ (hle (y i)).mpr hi
      have hhigh : ∀ j, x ≤ y j := (hle x).mp (hx ▸ real_le.mpr le_rfl)
      rw [hx, le_antisymm (hhigh i) (real_le.mp hlow)]

end Exact

/-! ### Linearised constraints -/

/-- The steps that leave at least `1 - κ` of the slack `h` along the linearised constraint. -/
def safeSteps (J : Euclidean n →ₗ[ℝ] Euclidean m) (h : Euclidean m) (κ : ℝ) : Set (Euclidean n) :=
  {s | ∀ i, 0 ≤ κ * h i + J s i}

theorem convex_safeSteps (J : Euclidean n →ₗ[ℝ] Euclidean m) (h : Euclidean m) (κ : ℝ) :
    Convex ℝ (safeSteps J h κ) := by
  intro x hx y hy a b ha hb hab i
  have hsplit : κ * h i + J (a • x + b • y) i = a * (κ * h i + J x i) + b * (κ * h i + J y i) := by
    rw [map_add, map_smul, map_smul]
    simp only [PiLp.add_apply, PiLp.smul_apply, smul_eq_mul]
    linear_combination (-κ * h i) * hab
  rw [hsplit]
  exact add_nonneg (mul_nonneg ha (hx i)) (mul_nonneg hb (hy i))

theorem zero_mem_safeSteps {J : Euclidean n →ₗ[ℝ] Euclidean m} {h : Euclidean m} {κ : ℝ} (hh : ∀ i, 0 ≤ h i)
    (hκ : 0 ≤ κ) : 0 ∈ safeSteps J h κ := by
  intro i
  rw [map_zero]
  exact (mul_nonneg hκ (hh i)).trans_eq (add_zero _).symm

/-- Along a direction every component of the slack changes at a constant rate. -/
theorem slack_add_smul (J : Euclidean n →ₗ[ℝ] Euclidean m) (h : Euclidean m) (κ : ℝ) (base d : Euclidean n) (t : ℝ)
    (i : Fin m) : κ * h i + J (base + t • d) i = (κ • h + J base) i + t * J d i := by
  rw [map_add, map_smul]
  simp only [PiLp.add_apply, PiLp.smul_apply, smul_eq_mul]
  ring

/-- The safeguard of a linearised constraint stops at a base that leaves less than the tolerance of a component of the
slack, or it goes up to the first component that a direction takes to zero, but not back and no further than the
direction. -/
theorem Safeguard.linearFraction_spec {A : Operator (Exact ε)} {J : Euclidean n →ₗ[ℝ] Euclidean m} (hA : A.Acts J)
    (h : Euclidean m) (κ : ℝ) (base d : Euclidean n) :
    (linearFraction A (vec h) (real κ) (vec base) (vec d)).Ensures fun θ =>
      θ = real 0 ∧ (∃ i, κ * h i + J base i < -(√ε * κ * ‖h‖)) ∨
      (∀ i, -(√ε * κ * ‖h‖) ≤ κ * h i + J base i) ∧
        ∃ z, θ = real (max z 0) ∧ ∀ t, t ≤ z ↔ t ≤ 1 ∧ ∀ i, J d i < 0 → 0 ≤ κ * h i + J (base + t • d) i := by
  unfold linearFraction
  refine ensures_bind (hA.apply 1 κ base h) ?_
  rintro _ rfl
  refine ensures_bind (ensures_lift fun lowest hl => (Checked.boundaryLength_eq_ok.mp hl).2) ?_
  rintro _ rfl
  have hsqrt : Scalar.sqrt (Scalar.epsilon : Exact ε) = real √ε := sqrt_real (Set.mem_Ioi.mp ε.2).le
  have hslack : ∀ i, (J base + κ • h) i = κ * h i + J base i := fun i => add_comm _ _
  rw [one_smul, length_vec, hsqrt, norm_vec, real_mul, real_mul]
  have hlowest := boundaryLength_neg_ones (ε := ε) (J base + κ • h)
  dsimp only
  split
  case isTrue hfail =>
    refine ensures_pure (.inl ⟨rfl, ?_⟩)
    rcases hlowest with ⟨i, hi, -⟩ | ⟨-, hinf⟩
    · rw [hi, isNaN_real, Bool.false_or, decide_eq_true_iff, real_neg, real_lt, hslack] at hfail
      exact ⟨i, hfail⟩
    · rw [hinf, Bool.or_eq_true_iff, decide_eq_true_iff] at hfail
      rcases hfail with hnan | hlow
      · exact absurd hnan Bool.false_ne_true
      · exact absurd hlow Bool.false_ne_true
  case isFalse hpass =>
    have hzero : Vec.zerosLike (vec h : Vec (Exact ε)) = vec 0 := zerosLike_vec
    rw [hzero]
    refine ensures_bind (hA.apply 1 0 d 0) ?_
    rintro _ rfl
    refine ensures_bind (ensures_lift fun reach hl => (Checked.boundaryLength_eq_ok.mp hl).2) ?_
    rintro _ rfl
    rw [one_smul, smul_zero, add_zero]
    obtain ⟨hreach, hiff⟩ := boundaryLength_spec (ε := ε) (J d) (J base + κ • h)
    obtain ⟨z, hz, hle⟩ := hreach.minNum 1
    rw [if_neg (by simp [hreach.not_nan])]
    refine ensures_pure (.inr ⟨fun j => ?_, z, ?_, fun t => ?_⟩)
    · rcases hlowest with ⟨i, hi, hleast⟩ | ⟨rfl, -⟩
      · rw [hi, isNaN_real, Bool.false_or, decide_eq_true_iff, real_neg, real_lt, not_lt] at hpass
        exact hpass.trans ((hleast j).trans_eq (hslack j))
      · exact j.elim0
    · rw [one_eq, hz, zero_eq, maxNum_real]
    · rw [hle, hiff, and_comm]
      refine and_congr_right fun _ => forall_congr' fun i => forall_congr' fun hi => ?_
      rw [slack_add_smul, add_comm (κ • h), le_div_iff_of_neg hi, neg_le_iff_add_nonneg']

/-- What the fraction `α` of a direction has to do with the slack `y` it starts from and the change `d` of the slack along
it. -/
structure LargestFraction (y d : Euclidean m) (tolerance α : ℝ) : Prop where
  stops : (∃ i, y i < -tolerance) → α = 0
  greatest : (∀ i, 0 ≤ y i) → IsGreatest {t | 0 ≤ t ∧ t ≤ 1 ∧ ∀ i, 0 ≤ y i + t * d i} α
  keeps : ∀ i, min (y i) 0 ≤ y i + α * d i

/-- No movement keeps everything, and is the answer to a base beyond the tolerance. -/
theorem LargestFraction.zero {y d : Euclidean m} {tolerance : ℝ} (htol : 0 ≤ tolerance) {i : Fin m}
    (hi : y i < -tolerance) : LargestFraction y d tolerance 0 where
  stops _ := rfl
  greatest hy := absurd (hy i) (by linarith)
  keeps j := by simp

/-- Up to `z`, and no further than the direction, the falling components of the slack stay above zero. -/
theorem LargestFraction.of_reach {y d : Euclidean m} {tolerance z : ℝ} (hy : ∀ i, -tolerance ≤ y i)
    (hz : ∀ t, t ≤ z ↔ t ≤ 1 ∧ ∀ i, d i < 0 → 0 ≤ y i + t * d i) : LargestFraction y d tolerance (max z 0) where
  stops := fun ⟨i, hi⟩ => absurd hi (hy i).not_gt
  greatest hsafe := by
    have hz0 : 0 ≤ z := (hz 0).mpr ⟨zero_le_one, fun i _ => by simpa using hsafe i⟩
    obtain ⟨hz1, hfall⟩ := (hz z).mp le_rfl
    rw [max_eq_left hz0]
    refine ⟨⟨hz0, hz1, fun i => ?_⟩, fun t ⟨_, ht1, ht⟩ => (hz t).mpr ⟨ht1, fun i _ => ht i⟩⟩
    by_cases hi : d i < 0
    · exact hfall i hi
    · exact add_nonneg (hsafe i) (mul_nonneg hz0 (not_lt.mp hi))
  keeps i := by
    rcases le_total z 0 with hz0 | hz0
    · rw [max_eq_right hz0, zero_mul, add_zero]
      exact min_le_left _ _
    · rw [max_eq_left hz0]
      by_cases hi : d i < 0
      · exact (min_le_right _ _).trans (((hz z).mp le_rfl).2 i hi)
      · exact (min_le_left _ _).trans (le_add_of_nonneg_right (mul_nonneg hz0 (not_lt.mp hi)))

theorem Safeguard.linearFraction_largest {A : Operator (Exact ε)} {J : Euclidean n →ₗ[ℝ] Euclidean m} (hA : A.Acts J)
    (h : Euclidean m) {κ : ℝ} (hκ : 0 ≤ κ) (base d : Euclidean n) :
    (linearFraction A (vec h) (real κ) (vec base) (vec d)).Ensures fun θ =>
      ∃ α, θ = real α ∧ LargestFraction (κ • h + J base) (J d) (√ε * κ * ‖h‖) α := by
  have htol : 0 ≤ √ε * κ * ‖h‖ := by positivity
  refine (linearFraction_spec hA h κ base d).mono ?_
  rintro _ (⟨rfl, i, hi⟩ | ⟨hbase, z, rfl, hz⟩)
  · exact ⟨0, rfl, .zero htol hi⟩
  · refine ⟨max z 0, rfl, .of_reach hbase fun t => (hz t).trans ?_⟩
    refine and_congr_right fun _ => forall_congr' fun i => forall_congr' fun _ => ?_
    rw [slack_add_smul]

/-- From a safe base the safeguard of a linearised constraint answers with the largest safe fraction. -/
theorem Safeguard.linearFraction_ensures {A : Operator (Exact ε)}
    {J : Euclidean n →ₗ[ℝ] Euclidean m} (hA : A.Acts J) {h : Euclidean m} {κ : ℝ} (hκ : 0 ≤ κ)
    {base : Euclidean n} (d : Euclidean n) (hbase : base ∈ safeSteps J h κ) :
    (linearFraction A (vec h) (real κ) (vec base) (vec d)).Ensures fun θ =>
      ∃ t, θ = real t ∧ IsGreatest (fractions (safeSteps J h κ) base d) t := by
  refine (linearFraction_largest hA h hκ base d).mono ?_
  rintro _ ⟨α, rfl, hα⟩
  have hset : fractions (safeSteps J h κ) base d = {t | 0 ≤ t ∧ t ≤ 1 ∧ ∀ i, 0 ≤ (κ • h + J base) i + t * J d i} := by
    ext t
    simp only [fractions, safeSteps, Set.mem_ofPred_eq, slack_add_smul]
  exact ⟨α, rfl, hset ▸ hα.greatest hbase⟩

theorem Safeguard.linear_guards {A : Operator (Exact ε)}
    {J : Euclidean n →ₗ[ℝ] Euclidean m} (hA : A.Acts J) (h : Euclidean m) {κ : ℝ} (hκ : 0 ≤ κ)
    (work : ℕ) :
    (Safeguard.linear A (vec h) (real κ) work).Ensures fun r =>
      ∀ sg, r = .ok sg → sg.Guards (safeSteps J h κ) := by
  have hlinear : Measures ⟨fun _ base direction => linearFraction A (vec h) (real κ) base direction⟩
      (safeSteps J h κ) := fun _ _ d hbase => linearFraction_ensures hA hκ d hbase
  unfold linear
  split
  · exact ensures_bind (ensures_true _) fun _ _ => ensures_pure nofun
  · split
    · exact ensures_bind (ensures_true _) fun _ _ => ensures_pure nofun
    · refine ensures_pure ?_
      rintro _ ⟨⟩
      exact hlinear.guards (convex_safeSteps J h κ)

/-- The safeguard is one of the linearised constraint. -/
def Safeguard.IsLinear {F : Type} [Scalar F] (sg : Safeguard F) (A : Operator F) (h : Vec F) (κ : F) : Prop :=
  ∃ work, (linear A h κ work).Returns (.ok sg)

theorem Safeguard.isLinear {F : Type} [Scalar F] {A : Operator F} {h : Vec F} (κ : F) (hlen : h.length = A.rows) :
    IsLinear ⟨fun _ base direction => linearFraction A h κ base direction⟩ A h κ := by
  refine ⟨workLength A.rows, #[], #[], ?_⟩
  unfold linear
  rw [if_neg (not_not.mpr hlen), if_neg (lt_irrefl _)]
  rfl

theorem Safeguard.IsLinear.eq {F : Type} [Scalar F] {sg : Safeguard F} {A : Operator F} {h : Vec F} {κ : F}
    (hsg : sg.IsLinear A h κ) : sg = ⟨fun _ base direction => linearFraction A h κ base direction⟩ := by
  obtain ⟨work, hreturns⟩ := hsg
  refine hreturns.ensured (Q := fun r => ∀ sg, r = .ok sg → sg = _) ?_ sg rfl
  unfold linear
  split
  · exact ensures_bind (ensures_true _) fun _ _ => ensures_pure nofun
  · split
    · exact ensures_bind (ensures_true _) fun _ _ => ensures_pure nofun
    · refine ensures_pure ?_
      rintro _ ⟨⟩
      rfl

theorem Safeguard.IsLinear.guards {sg : Safeguard (Exact ε)} {A : Operator (Exact ε)}
    {J : Euclidean n →ₗ[ℝ] Euclidean m} {h : Euclidean m} {κ : ℝ} (hsg : sg.IsLinear A (vec h) (real κ)) (hA : A.Acts J)
    (hκ : 0 ≤ κ) : sg.Guards (safeSteps J h κ) := by
  obtain ⟨work, hreturns⟩ := hsg
  exact hreturns.ensured (linear_guards hA h hκ work) sg rfl

end ConstrainedOpt
