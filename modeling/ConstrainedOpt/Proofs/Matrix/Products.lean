import ConstrainedOpt.Proofs.Sizes.Operators
import ConstrainedOpt.Proofs.Vec.Propagating

/-! # Products with matrices

A product fills the vector it is written to, whatever the layout of the matrix. Where scalars propagate what is not finite, a
product with a matrix that has a row is finite for finite vectors only.
-/
namespace ConstrainedOpt
namespace Matrix

/-! ### Shapes -/

section Shapes
variable {F : Type} {a : Matrix F}

theorem rows_eq_zero_or_cols_eq_zero (h : a.layout.size = 0) : a.rows = 0 ∨ a.cols = 0 := by
  unfold rows cols
  cases hl : a.layout with
  | general r c =>
    rw [hl] at h
    exact Nat.mul_eq_zero.mp h
  | packed r =>
    rw [hl] at h
    have h : r * (r + 1) / 2 = 0 := h
    refine .inl (Nat.eq_zero_of_not_pos fun hr => ?_)
    change 0 < r at hr
    have hle : 1 * 2 ≤ r * (r + 1) := Nat.mul_le_mul hr (Nat.succ_le_succ hr)
    omega
  | diagonal r =>
    rw [hl] at h
    exact .inl h

theorem rows_eq_cols (h : a.isSymmetric = true) : a.rows = a.cols := by
  unfold isSymmetric at h
  unfold rows cols
  cases hl : a.layout with
  | general => simp [hl, Layout.isSymmetric] at h
  | packed | diagonal => rfl

/-- A product fills the vector it is written to. -/
theorem product_answers [Scalar F] (a : Matrix F) (transposed : Bool) (c d : F) {x y : Vec F}
    (hx : x.length = if transposed then a.rows else a.cols) (hy : y.length = if transposed then a.cols else a.rows) :
    (a.product transposed c x d y).Answers fun z => z.length = y.length := by
  unfold product
  split
  · refine ⟨_, rfl, ?_⟩
    split <;> simp
  · unfold rows cols at hx hy
    have hsize := a.size_entries
    split
    case h_1 r k hl =>
      rw [hl] at hx hy hsize
      unfold Product.general
      cases transposed <;> dsimp only
      · rw [if_pos ⟨hsize, hx, hy⟩]
        exact ⟨_, rfl, by simp [Product.blendRows]⟩
      · rw [if_pos ⟨hsize, hx, hy⟩]
        exact ⟨_, rfl, by simp [Product.blendRows]⟩
    case h_2 r hl =>
      rw [hl] at hx hy hsize
      simp only [Layout.rows, Layout.cols, ite_self] at hx hy
      unfold Product.packed
      rw [if_pos ⟨hsize, hx, hy⟩]
      exact ⟨_, rfl, by simp [Product.blendRows]⟩
    case h_3 r hl =>
      rw [hl] at hx hy hsize
      simp only [Layout.rows, Layout.cols, ite_self] at hx hy
      have hsize : a.entries.size = r := hsize
      unfold Product.diagonal
      rw [if_pos ⟨hsize.trans hx.symm, hsize.trans hy.symm⟩]
      exact ⟨_, rfl, by simp [hsize, hx, hy]⟩

theorem operator_fills [Scalar F] (a : Matrix F) : a.operator.Fills a.rows a.cols where
  rows := rfl
  cols := rfl
  apply c _ d _ hx hy := Journaled.yields_lift ((a.product_answers false c d hx hy).mono fun _ h => h.trans hy)
  applyTransposed c _ d _ hw hz := Journaled.yields_lift ((a.product_answers true c d hw hz).mono fun _ h => h.trans hz)

/-- A vector is stored as a matrix of one column, whatever its layout. -/
theorem size_of_column (h : a.cols = 1) : a.entries.size = a.rows := by
  have hsize := a.size_entries
  unfold cols at h
  unfold rows
  cases hl : a.layout with
  | general r k =>
    rw [hl] at h hsize
    have h : k = 1 := h
    rw [hsize, h]
    exact Nat.mul_one r
  | packed r | diagonal r =>
    rw [hl] at h hsize
    have h : r = 1 := h
    rw [hsize, h]
    rfl

end Shapes

/-! ### Finite products -/

section Finite
open Product Propagating
variable {F : Type} [Scalar F] [Propagating F] {a : Matrix F} {x y z : Vec F} {b : F}

theorem isFinite_of_blend {u v : F} (h : Scalar.isFinite (blend 1 u b v) = true) : Scalar.isFinite u = true := by
  unfold blend at h
  split at h
  · exact isFinite_of_mul_right _ _ h
  · exact isFinite_of_mul_right _ _ (Absorbing.isFinite_of_add _ _ h)

/-- A row whose product is finite has met a finite vector. -/
theorem isFinite_of_row {entry : Nat → Nat → F} {i : Nat} (h : Scalar.isFinite (row entry i x) = true) :
    Vec.isFinite x = true := by
  refine List.all_eq_true.mpr fun u hu => ?_
  obtain ⟨j, hj, rfl⟩ := List.mem_iff_getElem.mp hu
  have hterm : entry i j * x[j] ∈ x.mapIdx fun j u => entry i j * u :=
    List.mem_iff_getElem.mpr ⟨j, by simpa using hj, by simp⟩
  exact isFinite_of_mul_right _ _ ((Vec.isFinite_of_foldl h).2 _ hterm)

theorem isFinite_of_blendRows {entry : Nat → Nat → F} (hpos : 0 < y.length)
    (h : Vec.isFinite (blendRows 1 (row entry · x) b y) = true) : Vec.isFinite x = true := by
  obtain ⟨v, y, rfl⟩ := List.exists_cons_of_length_pos hpos
  exact isFinite_of_row (isFinite_of_blend (List.all_eq_true.mp h _ (List.mem_mapIdx.mpr ⟨0, hpos, rfl⟩)))

/-- The product with a matrix that has a row, or is square, is finite for finite vectors only. -/
theorem isFinite_of_product (ha : a.rows = 0 → a.cols = 0) (hx : x.length = a.cols) (h : a.product false 1 x b y = .ok z)
    (hz : Vec.isFinite z = true) : Vec.isFinite x = true := by
  cases x with
  | nil => rfl
  | cons u x =>
    have hcols : a.cols ≠ 0 := by
      rw [← hx]
      exact Nat.succ_ne_zero _
    have hrows : a.rows ≠ 0 := fun h0 => hcols (ha h0)
    unfold product at h
    split at h
    case isTrue hsize =>
      rcases rows_eq_zero_or_cols_eq_zero hsize with h0 | h0
      · exact absurd h0 hrows
      · exact absurd h0 hcols
    case isFalse =>
      split at h
      case h_1 r k hl =>
        unfold rows at hrows
        rw [hl] at hrows
        simp only [general, Bool.false_eq_true, ↓reduceIte] at h
        split at h
        case isFalse => cases h
        case isTrue hlen =>
          cases h
          exact isFinite_of_blendRows (hlen.2.2 ▸ Nat.pos_of_ne_zero hrows) hz
      case h_2 r hl =>
        unfold packed at h
        split at h
        case isFalse => cases h
        case isTrue hlen =>
          cases h
          exact isFinite_of_blendRows (hlen.2.2 ▸ hlen.2.1 ▸ Nat.succ_pos _) hz
      case h_3 r hl =>
        unfold Product.diagonal at h
        split at h
        case isFalse => cases h
        case isTrue hlen =>
          cases h
          refine List.all_eq_true.mpr fun t ht => ?_
          obtain ⟨i, hi, rfl⟩ := List.mem_iff_getElem.mp ht
          have he : i < a.entries.toList.length := by simpa [hlen.1] using hi
          have hy : i < y.length := by
            rw [← hlen.2]
            exact he
          have hentry : blend 1 (a.entries.toList[i] * (u :: x)[i]) b y[i] ∈
              List.zipWith (fun v w => blend 1 v b w) (List.zipWith (· * ·) a.entries.toList (u :: x)) y :=
            List.mem_iff_getElem.mpr ⟨i, by simp only [List.length_zipWith]; omega, by simp⟩
          exact isFinite_of_mul_right _ _ (isFinite_of_blend (List.all_eq_true.mp hz _ hentry))

end Finite
end Matrix

/-! ### Operators -/

namespace Operator
variable {F : Type} [Scalar F]

/-- The operator takes a vector to a finite one only if it is finite itself, whatever is added. -/
def Reveals (A : Operator F) : Prop :=
  ∀ x b y, x.length = A.cols → (A.apply 1 x b y).Ensures fun z => Vec.isFinite z = true → Vec.isFinite x = true

variable [Propagating F]

theorem identity_reveals (n : Nat) : (identity n : Operator F).Reveals := fun _ _ _ _ =>
  Journaled.ensures_lift fun _ hz hfinite => (Checked.isFinite_of_add hz hfinite).1

end Operator

theorem Matrix.operator_reveals {F : Type} [Scalar F] [Propagating F] {a : Matrix F} (ha : a.rows = 0 → a.cols = 0) :
    a.operator.Reveals :=
  fun _ _ _ hx => Journaled.ensures_lift fun _ hz => Matrix.isFinite_of_product ha hx hz

end ConstrainedOpt
