import ConstrainedOpt.Scalar.Binary64

/-! # Absorbing scalars

Undefined and infinite values absorb sums: a sum is finite only when its first term is. Binary64 floats
absorb.
-/
namespace ConstrainedOpt

class Absorbing (F : Type) [Scalar F] : Prop where
  isFinite_of_add (a b : F) : Scalar.isFinite (a + b) = true → Scalar.isFinite a = true
  isFinite_of_sub (a b : F) : Scalar.isFinite (a - b) = true → Scalar.isFinite a = true
  not_isFinite_infinity : Scalar.isFinite (Scalar.infinity : F) = false
  not_isFinite_neg_infinity : Scalar.isFinite (-Scalar.infinity : F) = false

namespace Binary64
open Float.Model

theorem not_isFinite_unpack {spec : Format} {b : BitVec spec.numBits}
    (h : UnpackedFloat.unpackExponent b = -1#_) : (UnpackedFloat.unpack spec b).isFinite = false := by
  unfold UnpackedFloat.unpack
  simp only [h, ↓reduceIte]
  split <;> rfl

/-- A value that is not finite stays so when it is stored. -/
theorem not_isFinite_pack (a : UnpackedFloat) (h : a.isFinite = false) :
    (pack a).unpack.isFinite = false := by
  suffices h : UnpackedFloat.unpackExponent (UnpackedFloat.pack Format.binary64 a) = -1#_ from not_isFinite_unpack h
  cases a with
  | infinity s => exact UnpackedFloat.unpackExponent_packComponents
  | notANumber => exact UnpackedFloat.unpackExponent_packComponents
  | zero => cases h
  | finite => cases h

theorem not_isFinite_add (spec : Format) (a b : UnpackedFloat) (h : a.isFinite = false) :
    (UnpackedFloat.add spec a b).isFinite = false := by
  cases a with
  | infinity s =>
    cases b with
    | infinity t =>
      unfold UnpackedFloat.add
      dsimp only
      split <;> rfl
    | _ => rfl
  | notANumber => cases b <;> rfl
  | zero => cases h
  | finite => cases h

theorem not_isFinite_sub (spec : Format) (a b : UnpackedFloat) (h : a.isFinite = false) :
    (UnpackedFloat.sub spec a b).isFinite = false := by
  cases a with
  | infinity s =>
    cases b with
    | infinity t =>
      unfold UnpackedFloat.sub
      dsimp only
      split <;> rfl
    | _ => rfl
  | notANumber => cases b <;> rfl
  | zero => cases h
  | finite => cases h

/-- A stored result is finite only if what it is computed from is. -/
theorem isFinite_of_pack {a r : UnpackedFloat} (hr : a.isFinite = false → r.isFinite = false)
    (h : (pack r).unpack.isFinite = true) : a.isFinite = true := by
  cases ha : a.isFinite with
  | true => rfl
  | false => exact absurd ((not_isFinite_pack r (hr ha)).symm.trans h) Bool.false_ne_true

end Binary64

open Binary64 in
instance : Absorbing Float where
  isFinite_of_add _ _ := isFinite_of_pack (not_isFinite_add _ _ _)
  isFinite_of_sub _ _ := isFinite_of_pack (not_isFinite_sub _ _ _)
  not_isFinite_infinity := by decide +kernel
  not_isFinite_neg_infinity := by decide +kernel

end ConstrainedOpt
