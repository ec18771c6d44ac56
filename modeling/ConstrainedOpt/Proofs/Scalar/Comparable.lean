import ConstrainedOpt.Scalar.Binary64

/-! # Comparable scalars

Undefined values apart, scalars are totally ordered: of two of them one is less than the other, or they bound each other.
Binary64 floats are compared so.
-/
namespace ConstrainedOpt

class Comparable (F : Type) [Scalar F] : Prop where
  isNaN_zero : Scalar.isNaN (0 : F) = false
  isNaN_one : Scalar.isNaN (1 : F) = false
  zero_le_one : (0 : F) ≤ 1
  not_lt_self (a : F) : ¬ a < a
  le_of_not_lt (a b : F) : Scalar.isNaN a = false → Scalar.isNaN b = false → ¬ a < b → b ≤ a

namespace Comparable
variable {F : Type} [Scalar F] [Comparable F] {a b : F}

theorem le_self (ha : Scalar.isNaN a = false) : a ≤ a := le_of_not_lt a a ha ha (not_lt_self a)

/-- Cut to the unit interval, a scalar that is not undefined lies in it. -/
theorem cut_mem (ha : Scalar.isNaN a = false) :
    Scalar.isNaN (Scalar.maxNum (Scalar.minNum a 1) 0) = false ∧ 0 ≤ Scalar.maxNum (Scalar.minNum a 1) 0 ∧
      Scalar.maxNum (Scalar.minNum a 1) 0 ≤ 1 := by
  have hone : (1 : F) ≤ 1 := le_self isNaN_one
  obtain ⟨hnan, hle⟩ : Scalar.isNaN (Scalar.minNum a 1) = false ∧ Scalar.minNum a 1 ≤ 1 := by
    unfold Scalar.minNum
    rw [ha, isNaN_one, if_neg Bool.false_ne_true, if_neg Bool.false_ne_true]
    split
    case isTrue => exact ⟨isNaN_one, hone⟩
    case isFalse h => exact ⟨ha, le_of_not_lt 1 a isNaN_one ha h⟩
  unfold Scalar.maxNum
  rw [hnan, isNaN_zero, if_neg Bool.false_ne_true, if_neg Bool.false_ne_true]
  split
  case isTrue => exact ⟨isNaN_zero, le_self isNaN_zero, zero_le_one⟩
  case isFalse h => exact ⟨hnan, le_of_not_lt _ 0 hnan isNaN_zero h, hle⟩

end Comparable

namespace Binary64
open Float.Model

/-- Values that are not undefined are compared, and the other way round with the opposite outcome. -/
theorem compare_swap {a b : UnpackedFloat} (ha : a.isNaN = false) (hb : b.isNaN = false) :
    ∃ o, a.compare b = some o ∧ b.compare a = some o.swap := by
  cases a with
  | notANumber => cases ha
  | infinity s =>
    cases b with
    | notANumber => cases hb
    | infinity t => cases s <;> cases t <;> exact ⟨_, rfl, rfl⟩
    | zero t => cases s <;> exact ⟨_, rfl, rfl⟩
    | finite t m e h => cases s <;> exact ⟨_, rfl, rfl⟩
  | zero s =>
    cases b with
    | notANumber => cases hb
    | infinity t => cases t <;> exact ⟨_, rfl, rfl⟩
    | zero t => exact ⟨_, rfl, rfl⟩
    | finite t m e h => cases t <;> exact ⟨_, rfl, rfl⟩
  | finite s m e h =>
    cases b with
    | notANumber => cases hb
    | infinity t => cases t <;> exact ⟨_, rfl, rfl⟩
    | zero t => cases s <;> exact ⟨_, rfl, rfl⟩
    | finite t m' e' h' =>
      have hswap : (compare e' e).then (compare m' m) = ((compare e e').then (compare m m')).swap := by
        rw [Ordering.swap_then, ← Std.OrientedOrd.eq_swap, ← Std.OrientedOrd.eq_swap]
      cases s <;> cases t
      · exact ⟨_, rfl, congrArg (some ∘ Ordering.swap) hswap⟩
      · exact ⟨_, rfl, rfl⟩
      · exact ⟨_, rfl, rfl⟩
      · exact ⟨_, rfl, congrArg some hswap⟩

theorem le_of_not_lt {a b : UnpackedFloat} (ha : a.isNaN = false) (hb : b.isNaN = false) (h : ¬ a.lt b = true) :
    b.le a = true := by
  obtain ⟨o, hab, hba⟩ := compare_swap ha hb
  unfold UnpackedFloat.lt at h
  unfold UnpackedFloat.le
  rw [hab] at h
  rw [hba]
  cases o with
  | lt => exact absurd rfl h
  | eq | gt => rfl

theorem not_lt_self (a : UnpackedFloat) : ¬ a.lt a = true := by
  unfold UnpackedFloat.lt
  cases ha : a.isNaN with
  | true =>
    cases a with
    | notANumber => exact Bool.false_ne_true
    | _ => cases ha
  | false =>
    obtain ⟨o, hself, hswap⟩ := compare_swap ha ha
    rw [hself]
    cases o with
    | lt => cases hself.symm.trans hswap
    | eq | gt => exact Bool.false_ne_true

end Binary64

open Binary64 in
instance : Comparable Float where
  isNaN_zero := by decide +kernel
  isNaN_one := by decide +kernel
  zero_le_one := by decide +kernel
  not_lt_self a h := not_lt_self a.toModel.unpack (of_decide_eq_true h)
  le_of_not_lt _ _ ha hb h := decide_eq_true (le_of_not_lt ha hb fun hlt => h (decide_eq_true hlt))

end ConstrainedOpt
