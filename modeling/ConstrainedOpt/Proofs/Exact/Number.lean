import Mathlib.Analysis.SpecialFunctions.Log.Basic
import Mathlib.Analysis.Real.Sqrt
import ConstrainedOpt.Proofs.Scalar.Propagating

/-! # Exact scalars

The real numbers without rounding, with two infinities and an undefined value where a real result is missing,
as floats have them. What a float calls its distance from one to the next number may be any positive real.
-/
namespace ConstrainedOpt

inductive Exact (ε : Set.Ioi (0 : ℝ)) where
  | nan
  | infinite (negative : Bool)
  | real (x : ℝ)

namespace Exact
variable {ε : Set.Ioi (0 : ℝ)}
open scoped Classical

noncomputable section

/-- The infinity with the sign of `x`, the positive one of zero. -/
def blowUp (x : ℝ) : Exact ε := infinite (decide (x < 0))

def add : Exact ε → Exact ε → Exact ε
  | real x, real y => real (x + y)
  | infinite s, real _ => infinite s
  | real _, infinite s => infinite s
  | infinite s, infinite t => if s = t then infinite s else nan
  | _, _ => nan

def neg : Exact ε → Exact ε
  | real x => real (-x)
  | infinite s => infinite (!s)
  | nan => nan

/-- An infinity times a real. -/
def scaleInfinite (s : Bool) (x : ℝ) : Exact ε := if x = 0 then nan else infinite (s ^^ decide (x < 0))

def mul : Exact ε → Exact ε → Exact ε
  | real x, real y => real (x * y)
  | infinite s, real y => scaleInfinite s y
  | real x, infinite t => scaleInfinite t x
  | infinite s, infinite t => infinite (s ^^ t)
  | _, _ => nan

def div : Exact ε → Exact ε → Exact ε
  | real x, real y => if y = 0 then (if x = 0 then nan else blowUp x) else real (x / y)
  | infinite s, real y => infinite (s ^^ decide (y < 0))
  | real _, infinite _ => real 0
  | _, _ => nan

def lt : Exact ε → Exact ε → Prop
  | real x, real y => x < y
  | infinite s, real _ => s = true
  | real _, infinite t => t = false
  | infinite s, infinite t => s = true ∧ t = false
  | _, _ => False

def le : Exact ε → Exact ε → Prop
  | real x, real y => x ≤ y
  | infinite s, real _ => s = true
  | real _, infinite t => t = false
  | infinite s, infinite t => s = true ∨ t = false
  | _, _ => False

def beq : Exact ε → Exact ε → Bool
  | real x, real y => decide (x = y)
  | infinite s, infinite t => s == t
  | _, _ => false

def sqrt : Exact ε → Exact ε
  | real x => if x < 0 then nan else real (Real.sqrt x)
  | infinite false => infinite false
  | _ => nan

def ln : Exact ε → Exact ε
  | real x => if x < 0 then nan else if x = 0 then infinite true else real (Real.log x)
  | infinite false => infinite false
  | _ => nan

def abs : Exact ε → Exact ε
  | real x => real |x|
  | infinite _ => infinite false
  | nan => nan

def isNaN : Exact ε → Bool
  | nan => true
  | _ => false

def isFinite : Exact ε → Bool
  | real _ => true
  | _ => false

instance : Scalar (Exact ε) where
  zero := real 0
  one := real 1
  add := add
  sub x y := add x (neg y)
  mul := mul
  div := div
  neg := neg
  lt := lt
  le := le
  beq := beq
  ofScientific m s e := real (OfScientific.ofScientific m s e)
  decidableLT _ _ := Classical.propDecidable _
  decidableLE _ _ := Classical.propDecidable _
  sqrt := sqrt
  ln := ln
  abs := abs
  infinity := infinite false
  nan := nan
  epsilon := real ε
  isNaN := isNaN
  isFinite := isFinite

end

/-! ### Reals among them -/

variable {x y : ℝ} {a b : Exact ε}

@[simp] theorem real_inj : (real x : Exact ε) = real y ↔ x = y := ⟨fun h => by cases h; rfl, fun h => h ▸ rfl⟩

@[simp] theorem zero_eq : (0 : Exact ε) = real 0 := rfl

@[simp] theorem one_eq : (1 : Exact ε) = real 1 := rfl

@[simp] theorem real_add : (real x + real y : Exact ε) = real (x + y) := rfl

@[simp] theorem real_sub : (real x - real y : Exact ε) = real (x - y) := by
  change real (x + -y) = _
  rw [sub_eq_add_neg]

@[simp] theorem real_neg : (-real x : Exact ε) = real (-x) := rfl

@[simp] theorem real_mul : (real x * real y : Exact ε) = real (x * y) := rfl

theorem real_div (hy : y ≠ 0) : (real x / real y : Exact ε) = real (x / y) := if_neg hy

@[simp] theorem real_lt : (real x : Exact ε) < real y ↔ x < y := Iff.rfl

@[simp] theorem real_le : (real x : Exact ε) ≤ real y ↔ x ≤ y := Iff.rfl

@[simp] theorem real_beq : ((real x : Exact ε) == real y) = true ↔ x = y := decide_eq_true_iff

theorem sqrt_real (hx : 0 ≤ x) : Scalar.sqrt (real x : Exact ε) = real (Real.sqrt x) := if_neg hx.not_gt

theorem ln_real (hx : 0 < x) : Scalar.ln (real x : Exact ε) = real (Real.log x) := by
  change (if x < 0 then nan else if x = 0 then infinite true else real (Real.log x)) = _
  rw [if_neg hx.not_gt, if_neg hx.ne']

@[simp] theorem isFinite_real : Scalar.isFinite (real x : Exact ε) = true := rfl

@[simp] theorem isNaN_real : Scalar.isNaN (real x : Exact ε) = false := rfl

theorem isFinite_iff : Scalar.isFinite a = true ↔ ∃ x, a = real x := by
  cases a with
  | real x => simp
  | nan => exact ⟨nofun, nofun⟩
  | infinite s => exact ⟨nofun, nofun⟩

/-- A bound of a real number is real or infinite. -/
theorem bound_cases (h : real x ≤ a) : a = infinite false ∨ ∃ d, a = real d ∧ x ≤ d := by
  cases a with
  | nan => exact h.elim
  | infinite s =>
    have hs : s = false := h
    exact .inl (by rw [hs])
  | real d => exact .inr ⟨d, rfl, h⟩

theorem le_infinite : real x ≤ (infinite false : Exact ε) := rfl

theorem not_infinite_le : ¬ (infinite false : Exact ε) ≤ real x := Bool.false_ne_true

theorem infinite_mul_of_pos (hx : 0 < x) : (infinite false * real x : Exact ε) = infinite false := by
  change scaleInfinite false x = _
  unfold scaleInfinite
  rw [if_neg hx.ne', decide_eq_false hx.le.not_gt]
  rfl

@[simp] theorem minNum_real : Scalar.minNum (real x : Exact ε) (real y) = real (min x y) := by
  unfold Scalar.minNum
  rw [isNaN_real, isNaN_real]
  by_cases h : y < x
  · rw [if_neg Bool.false_ne_true, if_neg Bool.false_ne_true, if_pos (real_lt.mpr h), min_eq_right h.le]
  · rw [if_neg Bool.false_ne_true, if_neg Bool.false_ne_true, if_neg (mt real_lt.mp h),
      min_eq_left (not_lt.mp h)]

theorem minNum_infinite : Scalar.minNum (real x : Exact ε) (infinite false) = real x := by
  unfold Scalar.minNum
  rw [if_neg nofun, if_neg nofun, if_neg nofun]

@[simp] theorem maxNum_real : Scalar.maxNum (real x : Exact ε) (real y) = real (max x y) := by
  unfold Scalar.maxNum
  rw [isNaN_real, isNaN_real]
  by_cases h : x < y
  · rw [if_neg Bool.false_ne_true, if_neg Bool.false_ne_true, if_pos (real_lt.mpr h), max_eq_right h.le]
  · rw [if_neg Bool.false_ne_true, if_neg Bool.false_ne_true, if_neg (mt real_lt.mp h),
      max_eq_left (not_lt.mp h)]

@[simp] theorem two_eq : (Scalar.two : Exact ε) = real 2 := by
  change real ((1 : ℝ) + 1) = _
  norm_num

@[simp] theorem half_eq : (Scalar.half : Exact ε) = real (1 / 2) := by
  unfold Scalar.half
  rw [two_eq, one_eq, real_div two_ne_zero]

/-- A real number that is not negative. -/
def Nonneg (a : Exact ε) : Prop := ∃ x, a = real x ∧ 0 ≤ x

/-! ### Infinite and undefined numbers -/

section Special
variable {p q : Bool}

@[simp] theorem not_le_nan : ¬ a ≤ (nan : Exact ε) := by cases a <;> exact id

@[simp] theorem not_lt_nan : ¬ a < (nan : Exact ε) := by cases a <;> exact id

@[simp] theorem nan_add : (nan + a : Exact ε) = nan := by cases a <;> rfl

@[simp] theorem add_nan : (a + nan : Exact ε) = nan := by cases a <;> rfl

@[simp] theorem nan_sub : (nan - a : Exact ε) = nan := by cases a <;> rfl

@[simp] theorem sub_nan : (a - nan : Exact ε) = nan := by cases a <;> rfl

@[simp] theorem nan_mul : (nan * a : Exact ε) = nan := by cases a <;> rfl

@[simp] theorem mul_nan : (a * nan : Exact ε) = nan := by cases a <;> rfl

@[simp] theorem nan_div : (nan / a : Exact ε) = nan := by cases a <;> rfl

@[simp] theorem div_nan : (a / nan : Exact ε) = nan := by cases a <;> rfl

@[simp] theorem infinite_add_real : (infinite p + real x : Exact ε) = infinite p := rfl

@[simp] theorem real_add_infinite : (real x + infinite p : Exact ε) = infinite p := rfl

@[simp] theorem infinite_add_infinite : (infinite p + infinite q : Exact ε) = if p = q then infinite p else nan := by
  cases p <;> cases q <;> rfl

@[simp] theorem infinite_sub_infinite : (infinite p - infinite q : Exact ε) = if p = q then nan else infinite p := by
  cases p <;> cases q <;> rfl

@[simp] theorem infinite_sub_real : (infinite p - real x : Exact ε) = infinite p := rfl

@[simp] theorem real_sub_infinite : (real x - infinite p : Exact ε) = infinite (!p) := rfl

@[simp] theorem neg_infinite : (-infinite p : Exact ε) = infinite (!p) := rfl

@[simp] theorem infinite_div_infinite : (infinite p / infinite q : Exact ε) = nan := rfl

@[simp] theorem real_div_infinite : (real x / infinite p : Exact ε) = real 0 := rfl

@[simp] theorem infinite_lt_real : (infinite p : Exact ε) < real x ↔ p = true := Iff.rfl

@[simp] theorem real_lt_infinite : (real x : Exact ε) < infinite p ↔ p = false := Iff.rfl

@[simp] theorem infinite_le_real : (infinite p : Exact ε) ≤ real x ↔ p = true := Iff.rfl

@[simp] theorem real_le_infinite : (real x : Exact ε) ≤ infinite p ↔ p = false := Iff.rfl

theorem mul_infinite_of_pos (hx : 0 < x) : (real x * infinite p : Exact ε) = infinite p := by
  change scaleInfinite p x = _
  unfold scaleInfinite
  rw [if_neg hx.ne', decide_eq_false hx.le.not_gt, Bool.xor_false]

theorem mul_infinite_of_neg (hx : x < 0) : (real x * infinite p : Exact ε) = infinite (!p) := by
  change scaleInfinite p x = _
  unfold scaleInfinite
  rw [if_neg hx.ne, decide_eq_true hx, Bool.xor_true]

theorem mul_swap (a b : Exact ε) : a * b = b * a := by
  cases a with
  | nan => simp
  | infinite p =>
    cases b with
    | infinite q => exact congrArg infinite (Bool.xor_comm p q)
    | real y => rfl
    | nan => simp
  | real x =>
    cases b with
    | real y => rw [real_mul, real_mul, mul_comm]
    | infinite q => rfl
    | nan => simp

end Special

/-! ### Comparisons -/

theorem not_lt_self : ¬ a < a := by
  cases a with
  | nan => exact not_lt_nan
  | infinite s =>
    rintro ⟨h, h'⟩
    exact Bool.false_ne_true (h'.symm.trans h)
  | real x => exact lt_irrefl x

theorem lt_chain {c : Exact ε} (hab : a < b) (hbc : b < c) : a < c := by
  cases a <;> cases b <;> cases c <;> first | exact hab.elim | exact hbc.elim | skip
  case real.real.real x y z => exact lt_trans (real_lt.mp hab) hbc
  case infinite.infinite.infinite => exact ⟨hab.1, hbc.2⟩
  case infinite.infinite.real => exact hab.1
  case infinite.real.infinite => exact ⟨hab, hbc⟩
  case infinite.real.real => exact hab
  case real.infinite.infinite p q => exact hbc.2
  case real.infinite.real => exact absurd (hab : _ = false) (by rw [(hbc : _ = true)]; nofun)
  case real.real.infinite => exact hbc

/-- A positive number is real or infinite. -/
theorem pos_cases (h : 0 < a) : a = infinite false ∨ ∃ x, a = real x ∧ 0 < x := by
  cases a with
  | nan => exact h.elim
  | infinite s =>
    have hs : s = false := h
    exact .inl (by rw [hs])
  | real x => exact .inr ⟨x, rfl, h⟩

theorem lt_of_lt_minNum {c : Exact ε} (ha : Scalar.isNaN a = false) (h : c < Scalar.minNum a b) : c < a := by
  unfold Scalar.minNum at h
  rw [ha, if_neg Bool.false_ne_true] at h
  split at h
  · exact h
  · split at h
    case isTrue hlt => exact lt_chain h hlt
    case isFalse => exact h

/-- A number below the least of its double and another one is positive. -/
theorem pos_of_lt_minNum (h : a < Scalar.minNum (Scalar.two * a) b) : ∃ x, a = real x ∧ 0 < x := by
  cases a with
  | nan => exact h.elim
  | infinite s =>
    rw [two_eq, mul_infinite_of_pos two_pos] at h
    exact absurd (lt_of_lt_minNum rfl h) not_lt_self
  | real x =>
    rw [two_eq, real_mul] at h
    have hlt : x < 2 * x := lt_of_lt_minNum rfl h
    exact ⟨x, rfl, by linarith⟩

theorem le_of_lt (h : a < b) : a ≤ b := by
  cases a with
  | nan => exact h.elim
  | infinite s =>
    cases b with
    | nan => exact h.elim
    | infinite t => exact .inl h.1
    | real y => exact h
  | real x =>
    cases b with
    | nan => exact h.elim
    | infinite t => exact h
    | real y => exact (real_lt.mp h).le

theorem not_le_of_lt (h : a < b) : ¬ b ≤ a := by
  cases a <;> cases b <;> first | exact h.elim | skip
  case infinite.infinite p q =>
    obtain ⟨rfl, rfl⟩ := h
    rintro (h | h) <;> cases h
  case infinite.real p y =>
    intro hle
    exact Bool.false_ne_true ((hle : p = false).symm.trans h)
  case real.infinite x q =>
    intro hle
    exact Bool.false_ne_true ((h : q = false).symm.trans hle)
  case real.real x y => exact not_le.mpr (real_lt.mp h)

theorem le_self_of_pos (h : 0 < a) : a ≤ a := by
  rcases pos_cases h with rfl | ⟨x, rfl, -⟩
  · exact .inr rfl
  · exact le_refl x

theorem le_maxNum_left (h : 0 < a) : a ≤ Scalar.maxNum a b := by
  have hnan : Scalar.isNaN a = false := by rcases pos_cases h with rfl | ⟨x, rfl, -⟩ <;> rfl
  unfold Scalar.maxNum
  rw [hnan, if_neg Bool.false_ne_true]
  split
  · exact le_self_of_pos h
  · split
    case isTrue hlt => exact le_of_lt hlt
    case isFalse => exact le_self_of_pos h

theorem infinite_le_iff : (infinite false : Exact ε) ≤ b ↔ b = infinite false := by
  cases b with
  | nan => exact ⟨fun h => h.elim, nofun⟩
  | infinite t => cases t <;> simp [LE.le, le]
  | real y => exact ⟨fun h => absurd h not_infinite_le, nofun⟩

theorem pos_of_le (ha : 0 < a) (h : a ≤ b) : 0 < b := by
  rcases pos_cases ha with rfl | ⟨x, rfl, hx⟩
  · rwa [infinite_le_iff.mp h]
  · rcases bound_cases h with rfl | ⟨d, rfl, hd⟩
    · exact rfl
    · exact hx.trans_le hd

theorem two_mul_pos (ha : 0 < a) : 0 < Scalar.two * a := by
  rcases pos_cases ha with rfl | ⟨x, rfl, hx⟩
  · rw [two_eq, mul_infinite_of_pos two_pos]
    exact ha
  · rw [two_eq, real_mul]
    exact mul_pos two_pos hx

theorem le_of_two_mul_le (ha : 0 < a) (h : Scalar.two * a ≤ b) : a ≤ b := by
  rcases pos_cases ha with rfl | ⟨x, rfl, hx⟩
  · rwa [two_eq, mul_infinite_of_pos two_pos] at h
  · rw [two_eq, real_mul] at h
    rcases bound_cases h with rfl | ⟨d, rfl, hd⟩
    · exact le_infinite
    · exact real_le.mpr (by linarith)

/-! ### Sums and products that are real -/

theorem eq_sub_of_add {x y : ℝ} (h : real x + a = real y) : a = real (y - x) := by
  cases a with
  | real z =>
    obtain rfl : x + z = y := real_inj.mp h
    rw [add_sub_cancel_left]
  | infinite p => cases h
  | nan => cases h

theorem isFinite_of_add_left (h : Scalar.isFinite (a + b) = true) : Scalar.isFinite a = true := by
  cases a with
  | real x => rfl
  | nan => cases h
  | infinite s =>
    cases b with
    | infinite t =>
      change isFinite (if s = t then infinite s else nan) = true at h
      split at h <;> cases h
    | _ => cases h

theorem isFinite_of_add_right (h : Scalar.isFinite (a + b) = true) : Scalar.isFinite b = true := by
  obtain ⟨x, rfl⟩ := isFinite_iff.mp (isFinite_of_add_left h)
  cases b with
  | real y => rfl
  | _ => cases h

theorem isFinite_of_mul_left (h : Scalar.isFinite (a * b) = true) : Scalar.isFinite a = true := by
  cases a with
  | real x => rfl
  | nan => cases h
  | infinite s =>
    cases b with
    | real y =>
      change isFinite (scaleInfinite s y) = true at h
      unfold scaleInfinite at h
      split at h <;> cases h
    | _ => cases h

theorem isFinite_of_mul_right (h : Scalar.isFinite (a * b) = true) : Scalar.isFinite b = true := by
  obtain ⟨x, rfl⟩ := isFinite_iff.mp (isFinite_of_mul_left h)
  cases b with
  | real y => rfl
  | nan => cases h
  | infinite t =>
    change isFinite (scaleInfinite t x) = true at h
    unfold scaleInfinite at h
    split at h <;> cases h

theorem isFinite_of_sqrt (h : Scalar.isFinite (Scalar.sqrt a) = true) : Scalar.isFinite a = true := by
  cases a with
  | real x => rfl
  | nan => cases h
  | infinite s => cases s <;> cases h

theorem isFinite_of_neg (h : Scalar.isFinite (-a) = true) : Scalar.isFinite a = true := by
  cases a with
  | real x => rfl
  | nan => cases h
  | infinite s => cases h

instance : Propagating (Exact ε) where
  isFinite_of_add _ _ := isFinite_of_add_left
  isFinite_of_sub _ _ := isFinite_of_add_left
  not_isFinite_infinity := rfl
  not_isFinite_neg_infinity := rfl
  isFinite_zero := rfl
  isFinite_of_add_right _ _ := isFinite_of_add_right
  isFinite_of_sub_right _ _ h := isFinite_of_neg (isFinite_of_add_right h)
  isFinite_of_mul_left _ _ := isFinite_of_mul_left
  isFinite_of_mul_right _ _ := isFinite_of_mul_right
  isFinite_of_neg _ := isFinite_of_neg
  isFinite_of_sqrt _ := isFinite_of_sqrt

end Exact
end ConstrainedOpt
