import ConstrainedOpt.Proofs.Scalar.Propagating
import ConstrainedOpt.Proofs.Vec.Length

/-! # Finite results

Where scalars propagate what is not finite, so do the operations on vectors: a finite result has finite arguments.
-/
namespace ConstrainedOpt
open Propagating
variable {F : Type} [Scalar F] [Propagating F]

namespace Vec
variable {a b : F} {x y : Vec F} {l : List F}

theorem isFinite_of_foldl (h : Scalar.isFinite (l.foldl (· + ·) b) = true) :
    Scalar.isFinite b = true ∧ ∀ c ∈ l, Scalar.isFinite c = true := by
  induction l generalizing b with
  | nil => exact ⟨h, by simp⟩
  | cons c l ih =>
    obtain ⟨hsum, hl⟩ := ih h
    refine ⟨Absorbing.isFinite_of_add _ _ hsum, fun d hd => ?_⟩
    rcases List.mem_cons.mp hd with rfl | hd
    · exact isFinite_of_add_right _ _ hsum
    · exact hl d hd

theorem isFinite_of_norm (h : Scalar.isFinite (norm x) = true) : isFinite x = true := by
  have hsum := (isFinite_of_foldl (isFinite_of_sqrt _ h)).2
  exact List.all_eq_true.mpr fun c hc => isFinite_of_mul_left _ _ (hsum _ (List.mem_map_of_mem hc))

theorem isFinite_zeros (n : Nat) : isFinite (zeros n : Vec F) = true :=
  List.all_eq_true.mpr fun _ hc => (List.eq_of_mem_replicate hc) ▸ isFinite_zero

theorem isFinite_of_scale (h : isFinite (scale a x) = true) : isFinite x = true :=
  List.all_eq_true.mpr fun _ hc => isFinite_of_mul_right _ _ (List.all_eq_true.mp h _ (List.mem_map_of_mem hc))

omit [Propagating F] in
theorem isFinite_entry (h : isFinite (add a x y) = true) {i : Nat} (hx : i < x.length) (hy : i < y.length) :
    Scalar.isFinite (y[i] + a * x[i]) = true := by
  refine List.all_eq_true.mp h _ ?_
  have hi : i < (add a x y).length := by
    rw [length_add]
    omega
  have hget : (add a x y)[i] = y[i] + a * x[i] := by simp [add]
  exact hget ▸ List.getElem_mem hi

/-- Nothing finite comes of a sum of vectors one of which is not finite. -/
theorem isFinite_of_add (hlen : x.length = y.length) (h : isFinite (add a x y) = true) :
    isFinite x = true ∧ isFinite y = true := by
  constructor <;> refine List.all_eq_true.mpr fun c hc => ?_ <;> obtain ⟨i, hi, rfl⟩ := List.mem_iff_getElem.mp hc
  · exact isFinite_of_mul_right _ _ (isFinite_of_add_right _ _ (isFinite_entry h hi (hlen ▸ hi)))
  · exact Absorbing.isFinite_of_add _ _ (isFinite_entry h (hlen ▸ hi) hi)

/-- A sum with something added is finite for a finite factor only. -/
theorem isFinite_factor (hlen : x.length = y.length) (hpos : 0 < x.length) (h : isFinite (add a x y) = true) :
    Scalar.isFinite a = true :=
  isFinite_of_mul_left _ _ (isFinite_of_add_right _ _ (isFinite_entry h hpos (hlen ▸ hpos)))

end Vec

theorem Checked.isFinite_of_add {a : F} {x y z : Vec F} (h : Checked.add a x y = .ok z) (hz : Vec.isFinite z = true) :
    Vec.isFinite x = true ∧ Vec.isFinite y = true := by
  obtain ⟨hlen, rfl⟩ := Checked.add_eq_ok.mp h
  exact Vec.isFinite_of_add hlen hz

end ConstrainedOpt
