import ConstrainedOpt.Proofs.Scalar.Absorbing

/-! # Propagating scalars

No sum, difference, product, negative or root of a value that is not finite is finite. Quotients may be: an infinite
divisor leaves zero. Binary64 floats propagate so.
-/
namespace ConstrainedOpt

class Propagating (F : Type) [Scalar F] : Prop extends Absorbing F where
  isFinite_zero : Scalar.isFinite (0 : F) = true
  isFinite_of_add_right (a b : F) : Scalar.isFinite (a + b) = true → Scalar.isFinite b = true
  isFinite_of_sub_right (a b : F) : Scalar.isFinite (a - b) = true → Scalar.isFinite b = true
  isFinite_of_mul_left (a b : F) : Scalar.isFinite (a * b) = true → Scalar.isFinite a = true
  isFinite_of_mul_right (a b : F) : Scalar.isFinite (a * b) = true → Scalar.isFinite b = true
  isFinite_of_neg (a : F) : Scalar.isFinite (-a) = true → Scalar.isFinite a = true
  isFinite_of_sqrt (a : F) : Scalar.isFinite (Scalar.sqrt a) = true → Scalar.isFinite a = true

namespace Binary64
open Float.Model

theorem not_isFinite_add_right (spec : Format) (a b : UnpackedFloat) (h : b.isFinite = false) :
    (UnpackedFloat.add spec a b).isFinite = false := by
  cases b with
  | infinity s =>
    cases a with
    | infinity t =>
      unfold UnpackedFloat.add
      dsimp only
      split <;> rfl
    | _ => rfl
  | notANumber => cases a <;> rfl
  | zero => cases h
  | finite => cases h

theorem not_isFinite_sub_right (spec : Format) (a b : UnpackedFloat) (h : b.isFinite = false) :
    (UnpackedFloat.sub spec a b).isFinite = false := by
  cases b with
  | infinity s =>
    cases a with
    | infinity t =>
      unfold UnpackedFloat.sub
      dsimp only
      split <;> rfl
    | _ => rfl
  | notANumber => cases a <;> rfl
  | zero => cases h
  | finite => cases h

theorem not_isFinite_mul_left (spec : Format) (a b : UnpackedFloat) (h : a.isFinite = false) :
    (UnpackedFloat.mul spec a b).isFinite = false := by
  cases a with
  | infinity => cases b <;> rfl
  | notANumber => cases b <;> rfl
  | zero => cases h
  | finite => cases h

theorem not_isFinite_mul_right (spec : Format) (a b : UnpackedFloat) (h : b.isFinite = false) :
    (UnpackedFloat.mul spec a b).isFinite = false := by
  cases b with
  | infinity => cases a <;> rfl
  | notANumber => cases a <;> rfl
  | zero => cases h
  | finite => cases h

theorem not_isFinite_neg (a : UnpackedFloat) (h : a.isFinite = false) : a.neg.isFinite = false := by
  cases a with
  | infinity => rfl
  | notANumber => rfl
  | zero => cases h
  | finite => cases h

theorem not_isFinite_sqrt (spec : Format) (a : UnpackedFloat) (h : a.isFinite = false) :
    (UnpackedFloat.sqrt spec a).isFinite = false := by
  cases a with
  | infinity s => cases s <;> rfl
  | notANumber => rfl
  | zero => cases h
  | finite => cases h

end Binary64

open Binary64 in
instance : Propagating Float where
  isFinite_zero := by decide +kernel
  isFinite_of_add_right _ _ := isFinite_of_pack (not_isFinite_add_right _ _ _)
  isFinite_of_sub_right _ _ := isFinite_of_pack (not_isFinite_sub_right _ _ _)
  isFinite_of_mul_left _ _ := isFinite_of_pack (not_isFinite_mul_left _ _ _)
  isFinite_of_mul_right _ _ := isFinite_of_pack (not_isFinite_mul_right _ _ _)
  isFinite_of_neg _ := isFinite_of_pack (not_isFinite_neg _)
  isFinite_of_sqrt _ := isFinite_of_pack (not_isFinite_sqrt _ _)

end ConstrainedOpt
