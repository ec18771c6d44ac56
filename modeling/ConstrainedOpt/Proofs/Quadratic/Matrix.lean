import ConstrainedOpt.Proofs.Exact.Strict
import ConstrainedOpt.Proofs.Matrix.Positions
import ConstrainedOpt.Proofs.Matrix.Products

/-! # Matrices of real numbers

A matrix with finite entries acts as the linear map of them whatever its layout, and its transpose as the adjoint of that
map. These are the entries that are read off it one by one.
-/
namespace ConstrainedOpt
open Exact
variable {ε : Set.Ioi (0 : ℝ)} {m n : ℕ}

/-! ### Linear maps by their entries -/

/-- The linear map with the given entries. -/
noncomputable def rowMap (M : Fin m → Fin n → ℝ) : Euclidean n →ₗ[ℝ] Euclidean m where
  toFun x := WithLp.toLp 2 fun i => ∑ j, M i j * x j
  map_add' x y := by
    ext i
    simp [mul_add, Finset.sum_add_distrib]
  map_smul' r x := by
    ext i
    simp [Finset.mul_sum, mul_left_comm]

@[simp] theorem rowMap_apply (M : Fin m → Fin n → ℝ) (x : Euclidean n) (i : Fin m) : rowMap M x i = ∑ j, M i j * x j := rfl

theorem adjoint_rowMap (M : Fin m → Fin n → ℝ) : LinearMap.adjoint (rowMap M) = rowMap fun j i => M i j := by
  symm
  rw [LinearMap.eq_adjoint_iff]
  intro w x
  simp only [PiLp.inner_apply, rowMap_apply]
  simp only [RCLike.inner_apply, conj_trivial, Finset.mul_sum, Finset.sum_mul]
  rw [Finset.sum_comm]
  refine Finset.sum_congr rfl fun i _ => Finset.sum_congr rfl fun j _ => ?_
  ring

theorem rowMap_symmetric {M : Fin n → Fin n → ℝ} (h : ∀ i j, M i j = M j i) : (rowMap M).IsSymmetric := by
  have hself : LinearMap.adjoint (rowMap M) = rowMap M := by
    rw [adjoint_rowMap]
    congr 1
    funext i j
    exact h j i
  intro u v
  rw [← LinearMap.adjoint_inner_left, hself]

/-- The real number that stands for a scalar, zero for one that is not real. -/
def Exact.toReal : Exact ε → ℝ
  | real x => x
  | _ => 0

theorem Exact.eq_real {a : Exact ε} (h : Scalar.isFinite a = true) : a = real a.toReal := by
  obtain ⟨x, rfl⟩ := isFinite_iff.mp h
  rfl

/-! ### Entries -/

namespace Matrix
variable {a : Matrix (Exact ε)}

/-- All entries are real numbers. -/
def Finite (a : Matrix (Exact ε)) : Prop := ∀ u ∈ a.entries.toList, Scalar.isFinite u = true

/-- The linear map of `m` rows and `n` columns with the entries of a matrix. -/
noncomputable def linear (a : Matrix (Exact ε)) (m n : ℕ) : Euclidean n →ₗ[ℝ] Euclidean m :=
  rowMap fun (i : Fin m) (j : Fin n) => (a.get i j).toReal

theorem Finite.entryAt (ha : a.Finite) (i : ℕ) : Scalar.isFinite (Product.entryAt a.entries i) = true := by
  unfold Product.entryAt
  cases h : a.entries[i]? with
  | none => rfl
  | some u =>
    obtain ⟨hi, rfl⟩ := Array.getElem?_eq_some_iff.mp h
    exact ha _ (by simp)

theorem get_of_position {i : ℕ} {r c : ℕ} (h : a.layout.position? r c = some i) :
    a.get r c = Product.entryAt a.entries i := by
  unfold get entry? Product.entryAt
  rw [h]
  rfl

theorem Finite.get (ha : a.Finite) (r c : ℕ) : a.get r c = real (a.get r c).toReal := by
  refine eq_real ?_
  cases h : a.layout.position? r c with
  | none =>
    unfold Matrix.get entry?
    rw [h]
    rfl
  | some i =>
    rw [get_of_position h]
    exact ha.entryAt i

/-- A symmetric layout stores symmetric matrices. -/
theorem get_comm (h : a.isSymmetric = true) (r c : ℕ) : a.get r c = a.get c r := by
  unfold get entry?
  rw [Layout.position?_comm h]

theorem linear_symmetric (h : a.isSymmetric = true) (n : ℕ) : (a.linear n n).IsSymmetric :=
  rowMap_symmetric fun i j => by rw [get_comm h]

end Matrix

/-! ### Products -/

namespace Matrix.Product
variable {entry : ℕ → ℕ → Exact ε} {M : Fin m → Fin n → ℝ}

theorem blend_real (a v b y : ℝ) : blend (real a) (real v) (real b) (real y : Exact ε) = real (a * v + b * y) := by
  unfold blend
  rw [zero_eq]
  by_cases hb : b = 0
  · rw [if_pos (real_beq.mpr hb), hb, real_mul, zero_mul, add_zero]
  · rw [if_neg (mt real_beq.mp hb), real_mul, real_mul, real_add]

theorem mapIdx_ofFn {α β : Type} (f : ℕ → α → β) (g : Fin n → α) :
    (List.ofFn g).mapIdx f = List.ofFn fun i : Fin n => f i (g i) := List.ext_getElem (by simp) (by simp)

theorem row_vec (h : ∀ (i : Fin m) (j : Fin n), entry i j = real (M i j)) (x : Euclidean n) (i : Fin m) :
    row entry i (vec x) = real (rowMap M x i) := by
  unfold row vec
  rw [mapIdx_ofFn]
  simp only [h, real_mul]
  rw [sum_ofFn]
  rfl

theorem blendRows_row (h : ∀ (i : Fin m) (j : Fin n), entry i j = real (M i j)) (c d : ℝ) (x : Euclidean n)
    (y : Euclidean m) :
    blendRows (real c) (row entry · (vec x)) (real d) (vec y) = vec (c • rowMap M x + d • y) := by
  have hentry : ∀ i : Fin m, blend (real c) (row entry i (vec x)) (real d) (real (y i)) =
      real (c * rowMap M x i + d * y i) := fun i => by rw [row_vec h, blend_real]
  unfold blendRows
  rw [vec.eq_1 y, mapIdx_ofFn]
  simp only [hentry]
  rfl

end Matrix.Product

namespace Matrix
open Product
variable {a : Matrix (Exact ε)}

theorem get_general {r k i j : ℕ} (hl : a.layout = .general r k) (hi : i < r) (hj : j < k) :
    a.get i j = entryAt a.entries (j * r + i) :=
  get_of_position (hl ▸ Layout.position?_general hi hj)

theorem get_packed {r i j : ℕ} (hl : a.layout = .packed r) (hi : i < r) (hj : j < r) :
    a.get i j = packedAt a.entries i j :=
  get_of_position (hl ▸ Layout.position?_packed hi hj)

theorem get_diagonal {r i j : ℕ} (hl : a.layout = .diagonal r) (hi : i < r) (hj : j < r) :
    a.get i j = if i = j then entryAt a.entries i else 0 := by
  by_cases hij : i = j
  · subst hij
    rw [if_pos rfl]
    exact get_of_position (hl ▸ Layout.position?_diagonal hi)
  · rw [if_neg hij]
    unfold get entry?
    simp [hl, Layout.position?, hij]

/-- The linear map of a matrix, or of its transpose. -/
noncomputable def oriented (a : Matrix (Exact ε)) (transposed : Bool) (m n : ℕ) : Euclidean n →ₗ[ℝ] Euclidean m :=
  rowMap fun (i : Fin m) (j : Fin n) => (if transposed then a.get j i else a.get i j).toReal

/-- Where there are no entries only the second vector counts. -/
theorem scaled_vec (d : ℝ) (y : Euclidean m) :
    (if (real d : Exact ε) == 0 then Vec.zerosLike (vec y) else Vec.scale (real d) (vec y)) = (vec (d • y) : Vec (Exact ε)) := by
  rw [zero_eq]
  by_cases hd : d = 0
  · rw [if_pos (real_beq.mpr hd), hd, zero_smul, zerosLike_vec]
  · rw [if_neg (mt real_beq.mp hd), scale_vec]

theorem diagonal_vec (ha : a.Finite) (hl : a.layout = .diagonal n) (transposed : Bool) (c d : ℝ) (x y : Euclidean n) :
    Product.diagonal (real c) a.entries (vec x) (real d) (vec y) =
      .ok (vec (c • a.oriented transposed n n x + d • y)) := by
  have hsize : a.entries.size = n := by
    rw [a.size_entries, hl]
    rfl
  obtain ⟨e, he⟩ := exists_vec (n := n) (x := a.entries.toList) (by simpa using hsize) (List.all_eq_true.mpr ha)
  have hentry : ∀ i : Fin n, entryAt a.entries i = real (e i) := by
    intro i
    have hi : (i : ℕ) < a.entries.toList.length := by simp [hsize]
    unfold entryAt
    rw [← Array.getElem?_toList, List.getElem?_eq_getElem hi]
    simp [he, vec]
  have hget : ∀ i j : Fin n, (if transposed then a.get j i else a.get i j).toReal = if i = j then e i else 0 := by
    intro i j
    have hcomm : a.get j i = a.get i j := get_comm (by simp [isSymmetric, hl, Layout.isSymmetric]) j i
    rw [hcomm, ite_self, get_diagonal hl i.isLt j.isLt]
    by_cases hij : i = j
    · rw [if_pos hij, if_pos (congrArg Fin.val hij), hentry]
      rfl
    · rw [if_neg hij, if_neg (fun h => hij (Fin.ext h))]
      rfl
  have hx : ∀ i, a.oriented transposed n n x i = e i * x i := by
    intro i
    unfold oriented
    rw [rowMap_apply]
    simp [hget]
  unfold Product.diagonal
  rw [if_pos (by simp [hsize]), he]
  unfold vec
  rw [zipWith_ofFn, zipWith_ofFn]
  simp only [real_mul, blend_real, PiLp.add_apply, PiLp.smul_apply, smul_eq_mul, hx]

/-- The product with a matrix of real numbers, or with its transpose. -/
theorem product_oriented (ha : a.Finite) (transposed : Bool) (hout : (if transposed then a.cols else a.rows) = m)
    (hin : (if transposed then a.rows else a.cols) = n) (c d : ℝ) (x : Euclidean n) (y : Euclidean m) :
    a.product transposed (real c) (vec x) (real d) (vec y) = .ok (vec (c • a.oriented transposed m n x + d • y)) := by
  unfold product
  split
  case isTrue h =>
    have hzero : a.oriented transposed m n x = 0 := by
      have hempty : m = 0 ∨ n = 0 := by
        have hnone := rows_eq_zero_or_cols_eq_zero h
        cases transposed
        · exact hnone.imp hout.symm.trans hin.symm.trans
        · exact hnone.symm.imp hout.symm.trans hin.symm.trans
      rcases hempty with rfl | rfl
      · exact Subsingleton.elim _ _
      · rw [Subsingleton.elim x 0, map_zero]
    rw [scaled_vec, hzero, smul_zero, zero_add]
  case isFalse h =>
    unfold rows cols at hout hin
    split
    case h_1 r k hl =>
      have hsize : a.entries.size = r * k := by
        rw [a.size_entries, hl]
        rfl
      rw [hl] at hout hin
      unfold general
      cases transposed
      case false =>
        obtain rfl : r = m := hout
        obtain rfl : k = n := hin
        dsimp only
        rw [if_pos (by simp [hsize])]
        refine congrArg Except.ok (blendRows_row (fun i j => ?_) c d x y)
        rw [if_neg Bool.false_ne_true, ← ha.get, get_general hl i.isLt j.isLt]
        rfl
      case true =>
        obtain rfl : k = m := hout
        obtain rfl : r = n := hin
        dsimp only
        rw [if_pos (by simp [hsize])]
        refine congrArg Except.ok (blendRows_row (fun i j => ?_) c d x y)
        rw [if_pos rfl, ← ha.get, get_general hl j.isLt i.isLt]
        rfl
    case h_2 r hl =>
      have hsize : a.entries.size = r * (r + 1) / 2 := by
        rw [a.size_entries, hl]
        rfl
      rw [hl] at hout hin
      simp only [Layout.rows, Layout.cols, ite_self] at hout hin
      subst hout hin
      unfold packed
      rw [if_pos (by simp [hsize])]
      refine congrArg Except.ok (blendRows_row (fun i j => ?_) c d x y)
      have hcomm : a.get j i = a.get i j := get_comm (by simp [isSymmetric, hl, Layout.isSymmetric]) j i
      rw [hcomm, ite_self, ← ha.get, get_packed hl i.isLt j.isLt]
    case h_3 r hl =>
      rw [hl] at hout hin
      simp only [Layout.rows, Layout.cols, ite_self] at hout hin
      subst hout hin
      exact diagonal_vec ha hl transposed c d x y

theorem product_vec (ha : a.Finite) (hrows : a.rows = m) (hcols : a.cols = n) (c d : ℝ) (x : Euclidean n)
    (y : Euclidean m) :
    a.product false (real c) (vec x) (real d) (vec y) = .ok (vec (c • a.linear m n x + d • y)) :=
  product_oriented ha false hrows hcols c d x y

theorem product_transposed_vec (ha : a.Finite) (hrows : a.rows = m) (hcols : a.cols = n) (c d : ℝ) (w : Euclidean m)
    (z : Euclidean n) :
    a.product true (real c) (vec w) (real d) (vec z) = .ok (vec (c • LinearMap.adjoint (a.linear m n) w + d • z)) := by
  have hadjoint : LinearMap.adjoint (a.linear m n) = a.oriented true n m := by
    unfold linear oriented
    rw [adjoint_rowMap]
    rfl
  rw [hadjoint]
  exact product_oriented ha true hcols hrows c d w z

theorem operator_acts (ha : a.Finite) : a.operator.Acts (a.linear a.rows a.cols) where
  rows := rfl
  cols := rfl
  apply c d x y := Journaled.ensures_lift fun _ h =>
    Except.ok.inj (h.symm.trans (product_vec ha rfl rfl c d x y))
  applyTransposed c d w z := Journaled.ensures_lift fun _ h =>
    Except.ok.inj (h.symm.trans (product_transposed_vec ha rfl rfl c d w z))

end Matrix

/-! ### The dense matrix -/

namespace Matrix
open Product
variable {y y' : Vec (Exact ε)}

theorem Product.blend_zero (a v y : Exact ε) : blend a v (real 0) y = a * v := if_pos (real_beq.mpr rfl)

theorem Product.blendRows_zero (h : y.length = y'.length) (c : Exact ε) (value : ℕ → Exact ε) :
    blendRows c value 0 y = blendRows c value 0 y' :=
  List.ext_getElem (by simp [blendRows, h]) (by simp [blendRows, blend_zero])

theorem Product.zipWith_blend_zero (h : y.length = y'.length) (c : Exact ε) (x : Vec (Exact ε)) :
    List.zipWith (fun v w => blend c v 0 w) x y = List.zipWith (fun v w => blend c v 0 w) x y' :=
  List.ext_getElem (by simp [h]) (by simp [blend_zero])

/-- A product that is not added to anything does not look at what it is written over. -/
theorem product_overwrites (a : Matrix (Exact ε)) (transposed : Bool) (c : Exact ε) (x : Vec (Exact ε))
    (h : y.length = y'.length) : a.product transposed c x 0 y = a.product transposed c x 0 y' := by
  unfold product
  split
  · rw [zero_eq, if_pos (real_beq.mpr rfl), if_pos (real_beq.mpr rfl), Vec.zerosLike, Vec.zerosLike, h]
  · split
    · unfold general
      rw [h, blendRows_zero h]
    · unfold packed
      rw [h, blendRows_zero h]
    · unfold Product.diagonal
      rw [h, zipWith_blend_zero h]

/-- The operator of a matrix of real numbers multiplies by the dense matrix that is read off entry by entry, and its transpose
by the transposed one, so that they are adjoint. What a product is written over counts only if it is added. -/
theorem operator_dense (a : Matrix (Exact ε)) (ha : a.Finite) (hrows : a.rows = m) (hcols : a.cols = n) :
    ∃ M : Fin m → Fin n → ℝ, (∀ (i : Fin m) (j : Fin n), a.get i j = real (M i j)) ∧
      (∀ (c d : ℝ) (x : Euclidean n) (y : Euclidean m),
        (a.operator.apply (real c) (vec x) (real d) (vec y)).Yields fun z => z = vec (c • rowMap M x + d • y)) ∧
      (∀ (c d : ℝ) (w : Euclidean m) (z : Euclidean n),
        (a.operator.applyTransposed (real c) (vec w) (real d) (vec z)).Yields fun v =>
          v = vec (c • rowMap (fun j i => M i j) w + d • z)) ∧
      (∀ (x : Euclidean n) (w : Euclidean m), inner ℝ (rowMap M x) w = inner ℝ x (rowMap (fun j i => M i j) w)) ∧
      ∀ (c : Exact ε) (x y y' : Vec (Exact ε)), y.length = y'.length →
        a.operator.apply c x 0 y = a.operator.apply c x 0 y' ∧
        a.operator.applyTransposed c x 0 y = a.operator.applyTransposed c x 0 y' := by
  have hadjoint := adjoint_rowMap fun (i : Fin m) (j : Fin n) => (a.get i j).toReal
  refine ⟨fun i j => (a.get i j).toReal, fun i j => ha.get i j, ?_, ?_, ?_, ?_⟩
  · intro c d x y
    exact Journaled.yields_lift ⟨_, product_vec ha hrows hcols c d x y, rfl⟩
  · intro c d w z
    rw [← hadjoint]
    exact Journaled.yields_lift ⟨_, product_transposed_vec ha hrows hcols c d w z, rfl⟩
  · intro x w
    rw [← hadjoint, LinearMap.adjoint_inner_right]
  · intro c x y y' h
    have hover : ∀ transposed, (liftM (a.product transposed c x 0 y) : Journaled (Exact ε) (Vec (Exact ε))) =
        liftM (a.product transposed c x 0 y') := fun transposed => by rw [product_overwrites a transposed c x h]
    exact ⟨hover false, hover true⟩

/-- A column of a packed matrix, written over undefined entries. -/
theorem operator_dense_packed :
    let a : Matrix (Exact ⟨1, Set.mem_Ioi.mpr one_pos⟩) := ⟨.packed 2, #[real 1, real 2, real 3], rfl⟩
    a.Finite ∧ a.rows = 2 ∧ a.cols = 2 ∧
      (a.operator.apply (real 10) (vec (EuclideanSpace.single 1 1 : Euclidean 2)) 0 [nan, nan]).Yields fun z =>
        z = [real 20, real 30] := by
  intro a
  have hfinite : a.Finite := by simp [Matrix.Finite, a]
  obtain ⟨M, hget, happly, -, -, hover⟩ := operator_dense (m := 2) (n := 2) a hfinite rfl rfl
  refine ⟨hfinite, rfl, rfl, ?_⟩
  have hcolumn := happly 10 0 (EuclideanSpace.single 1 1) 0
  rw [← zero_eq, (hover _ _ (vec (0 : Euclidean 2)) [nan, nan] (by simp)).1] at hcolumn
  have hfirst : M 0 1 = 2 := real_inj.mp ((hget 0 1).symm.trans rfl)
  have hsecond : M 1 1 = 3 := real_inj.mp ((hget 1 1).symm.trans rfl)
  refine hcolumn.mono ?_
  rintro _ rfl
  norm_num [vec, hfirst, hsecond]

end Matrix
end ConstrainedOpt
