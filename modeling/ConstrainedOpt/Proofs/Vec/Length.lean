import ConstrainedOpt.Vec.Orthant
import ConstrainedOpt.Proofs.Assertion.Journaled

/-! # Lengths of vectors

A checked operation answers exactly on vectors of one length, with the plain operation.
-/
namespace ConstrainedOpt
variable {F : Type} [Scalar F]

namespace Vec

@[simp] theorem length_scale (a : F) (x : Vec F) : (scale a x).length = x.length := by simp [scale]

@[simp] theorem length_add (a : F) (x y : Vec F) : (add a x y).length = min x.length y.length := by simp [add]

@[simp] theorem length_zeros (n : Nat) : (zeros n : Vec F).length = n := by simp [zeros]

@[simp] theorem length_zerosLike (x : Vec F) : (zerosLike x).length = x.length := by simp [zerosLike]

@[simp] theorem length_ones (n : Nat) : (ones n : Vec F).length = n := by simp [ones]

@[simp] theorem length_quotient (x y : Vec F) : (quotient x y).length = min x.length y.length := by
  simp [quotient]

end Vec

namespace Checked
variable {a b c : F} {x y z : Vec F}

omit [Scalar F] in
theorem sameLength_eq_ok {u : Unit} : sameLength x y = .ok u ↔ x.length = y.length := by
  unfold sameLength
  split <;> simp [*]

omit [Scalar F] in
/-- What is answered behind a test of lengths. -/
theorem guarded_eq_ok {α : Type} {v w : α} :
    (do sameLength x y; return v : Checked α) = .ok w ↔ x.length = y.length ∧ w = v := by
  constructor
  · intro h
    obtain ⟨_, hlen, h⟩ := bind_eq_ok.mp h
    cases h
    exact ⟨sameLength_eq_ok.mp hlen, rfl⟩
  · rintro ⟨hlen, rfl⟩
    exact bind_eq_ok.mpr ⟨(), sameLength_eq_ok.mpr hlen, rfl⟩

theorem inner_eq_ok : inner x y = .ok c ↔ x.length = y.length ∧ c = Vec.inner x y := guarded_eq_ok

theorem add_eq_ok : add a x y = .ok z ↔ x.length = y.length ∧ z = Vec.add a x y := guarded_eq_ok

omit [Scalar F] in
theorem copy_eq_ok : copy x y = .ok z ↔ x.length = y.length ∧ z = x := guarded_eq_ok

theorem quotient_eq_ok : quotient x y = .ok z ↔ x.length = y.length ∧ z = Vec.quotient x y := guarded_eq_ok

theorem boundaryLength_eq_ok : boundaryLength x y = .ok c ↔ x.length = y.length ∧ c = Vec.boundaryLength x y :=
  guarded_eq_ok

theorem add_length (h : add a x y = .ok z) : z.length = y.length := by
  obtain ⟨hlen, rfl⟩ := add_eq_ok.mp h
  simp [hlen]

theorem axpby_length (h : axpby a x b y = .ok z) : z.length = y.length := by
  rw [add_length h]
  split <;> simp

/-! ### Answers -/

variable {n : Nat}

omit [Scalar F] in
theorem answers_copy (hx : x.length = n) (hy : y.length = n) : (copy x y).Answers fun z => z = x :=
  ⟨x, copy_eq_ok.mpr ⟨hx.trans hy.symm, rfl⟩, rfl⟩

theorem answers_inner (hx : x.length = n) (hy : y.length = n) : (inner x y).Answers fun _ => True :=
  ⟨_, inner_eq_ok.mpr ⟨hx.trans hy.symm, rfl⟩, trivial⟩

theorem answers_add (a : F) (hx : x.length = n) (hy : y.length = n) : (add a x y).Answers fun z => z.length = n := by
  refine ⟨_, add_eq_ok.mpr ⟨hx.trans hy.symm, rfl⟩, ?_⟩
  simp [hx, hy]

theorem answers_axpby (a b : F) (hx : x.length = n) (hy : y.length = n) :
    (axpby a x b y).Answers fun z => z.length = n := by
  refine answers_add a hx ?_
  split <;> simp [hy]

theorem answers_quotient (hx : x.length = n) (hy : y.length = n) :
    (quotient x y).Answers fun z => z.length = n := by
  refine ⟨_, quotient_eq_ok.mpr ⟨hx.trans hy.symm, rfl⟩, ?_⟩
  simp [hx, hy]

theorem answers_boundaryLength (hx : x.length = n) (hy : y.length = n) :
    (boundaryLength x y).Answers fun _ => True :=
  ⟨_, boundaryLength_eq_ok.mpr ⟨hx.trans hy.symm, rfl⟩, trivial⟩

end Checked
end ConstrainedOpt
