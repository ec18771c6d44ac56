import Mathlib.Analysis.InnerProductSpace.PiL2
import ConstrainedOpt.Proofs.Exact.Number
import ConstrainedOpt.Proofs.Vec.Propagating

/-! # Vectors of real numbers

`vec v` lists the entries of a Euclidean vector; on such lists the plain vector operations are those of the
Euclidean space. A list whose entries are all finite is one of them.
-/
namespace ConstrainedOpt.Exact
variable {ε : Set.Ioi (0 : ℝ)} {n : ℕ}

abbrev Euclidean (n : ℕ) := EuclideanSpace ℝ (Fin n)

section Instances
/-! What the search for instances would put together anew at each use. -/

instance : Nat.AtLeastTwo 2 := inferInstance

instance : NeZero 1 := inferInstance

instance : NeZero 2 := inferInstance

instance : RingHomInvPair (starRingEnd ℝ) (starRingEnd ℝ) := inferInstance

instance : RingHomIsometric (RingHom.id ℝ) := inferInstance

instance : RingHomCompTriple (RingHom.id ℝ) (RingHom.id ℝ) (RingHom.id ℝ) := inferInstance

noncomputable instance : InnerProductSpace ℝ (Euclidean n) := inferInstance

instance : FiniteDimensional ℝ (Euclidean n) := inferInstance

instance : CompleteSpace (Euclidean n) := inferInstance

instance : SMulCommClass ℝ ℝ (Euclidean n) := inferInstance

instance : ContinuousConstSMul ℝ (Euclidean n) := inferInstance

instance : ContinuousAdd (Euclidean n) := inferInstance

instance : IsTopologicalAddGroup (Euclidean n) := inferInstance

end Instances

def vec (v : Euclidean n) : Vec (Exact ε) := List.ofFn fun i => real (v i)

variable {u v w : Euclidean n} {x y z : Vec (Exact ε)} {a : ℝ}

@[simp] theorem length_vec : (vec v : Vec (Exact ε)).length = n := List.length_ofFn

theorem vec_inj : (vec u : Vec (Exact ε)) = vec v ↔ u = v := by
  refine ⟨fun h => ?_, fun h => h ▸ rfl⟩
  ext i
  exact real_inj.mp (congrFun (List.ofFn_inj.mp h) i)

theorem foldl_add (l : List ℝ) (b : ℝ) :
    (l.map real).foldl (· + ·) (real b : Exact ε) = real (b + l.sum) := by
  induction l generalizing b with
  | nil => simp
  | cons c l ih => rw [List.map_cons, List.foldl_cons, real_add, ih, List.sum_cons, add_assoc]

theorem sum_ofFn (f : Fin n → ℝ) : Vec.sum (List.ofFn fun i => (real (f i) : Exact ε)) = real (∑ i, f i) := by
  have h : (List.ofFn fun i => (real (f i) : Exact ε)) = (List.ofFn f).map real := by
    rw [List.map_ofFn]
    rfl
  rw [h, Vec.sum, zero_eq, foldl_add, zero_add, List.sum_ofFn]

theorem zipWith_ofFn {α β γ : Type} (op : α → β → γ) (f : Fin n → α) (g : Fin n → β) :
    List.zipWith op (List.ofFn f) (List.ofFn g) = List.ofFn fun i => op (f i) (g i) :=
  List.ext_getElem (by simp) (by simp)

@[simp] theorem inner_vec : Vec.inner (vec u) (vec v : Vec (Exact ε)) = real (inner ℝ u v) := by
  unfold Vec.inner vec
  rw [zipWith_ofFn]
  simp only [real_mul]
  rw [sum_ofFn, PiLp.inner_apply]
  simp [mul_comm]

theorem norm_eq_sqrt_inner (x : Vec (Exact ε)) : Vec.norm x = Scalar.sqrt (Vec.inner x x) := by
  unfold Vec.norm Vec.inner
  rw [List.zipWith_self]

theorem sqrt_inner_vec (v : Euclidean n) : Scalar.sqrt (Vec.inner (vec v) (vec v) : Exact ε) = real ‖v‖ := by
  rw [inner_vec, sqrt_real real_inner_self_nonneg, ← norm_eq_sqrt_real_inner]

@[simp] theorem norm_vec : Vec.norm (vec v : Vec (Exact ε)) = real ‖v‖ := by
  rw [norm_eq_sqrt_inner, sqrt_inner_vec]

@[simp] theorem scale_vec : Vec.scale (real a) (vec v : Vec (Exact ε)) = vec (a • v) := by
  unfold Vec.scale vec
  rw [List.map_ofFn]
  congr 1

@[simp] theorem add_vec : Vec.add (real a) (vec u) (vec v : Vec (Exact ε)) = vec (v + a • u) := by
  unfold Vec.add vec
  rw [zipWith_ofFn]
  congr 1

@[simp] theorem zeros_eq : (Vec.zeros n : Vec (Exact ε)) = vec (0 : Euclidean n) := by
  unfold Vec.zeros vec
  rw [zero_eq, ← List.ofFn_const]
  congr 1

theorem zerosLike_of_length (hx : x.length = n) : Vec.zerosLike x = vec (0 : Euclidean n) := by
  rw [Vec.zerosLike, hx, zeros_eq]

@[simp] theorem zerosLike_vec : Vec.zerosLike (vec v : Vec (Exact ε)) = vec (0 : Euclidean n) :=
  zerosLike_of_length length_vec

@[simp] theorem isFinite_vec : Vec.isFinite (vec v : Vec (Exact ε)) = true := by
  simp [Vec.isFinite, vec]

/-- A list of finite entries is a vector. -/
theorem exists_vec (hx : x.length = n) (hfin : Vec.isFinite x = true) : ∃ v : Euclidean n, x = vec v := by
  have hreal : ∀ i : Fin n, ∃ r, x[i] = real r := fun i =>
    isFinite_iff.mp (List.all_eq_true.mp hfin _ (List.getElem_mem _))
  choose f hf using hreal
  refine ⟨WithLp.toLp 2 f, List.ext_getElem (by simp [hx]) fun i hi _ => ?_⟩
  simpa [vec] using hf ⟨i, hx ▸ hi⟩

/-! ### Finite results -/

/-- Entries scaled by something infinite are not finite: a finite multiple of a vector is one by a real. -/
theorem exists_scale {b : Exact ε} (h : Vec.isFinite (Vec.scale b (vec v)) = true) :
    ∃ t : ℝ, Vec.scale b (vec v) = vec (t • v) := by
  cases n with
  | zero => exact ⟨0, by simp [Vec.scale, vec]⟩
  | succ n =>
    have hentry : b * real (v 0) ∈ Vec.scale b (vec v) :=
      List.mem_map_of_mem (List.mem_ofFn.mpr ⟨0, rfl⟩)
    obtain ⟨t, rfl⟩ := isFinite_iff.mp (isFinite_of_mul_left (List.all_eq_true.mp h _ hentry))
    exact ⟨t, scale_vec⟩

/-! ### Checked operations -/

theorem checked_inner_vec : Checked.inner (vec u) (vec v : Vec (Exact ε)) = .ok (real (inner ℝ u v)) :=
  Checked.inner_eq_ok.mpr ⟨by simp, inner_vec.symm⟩

theorem checked_add_vec : Checked.add (real a) (vec u) (vec v : Vec (Exact ε)) = .ok (vec (v + a • u)) :=
  Checked.add_eq_ok.mpr ⟨by simp, add_vec.symm⟩

theorem checked_inner_eq_ok {c : Exact ε} (h : Checked.inner (vec u) (vec v) = .ok c) : c = real (inner ℝ u v) := by
  rw [(Checked.inner_eq_ok.mp h).2, inner_vec]

theorem checked_add_eq_ok (h : Checked.add (real a) (vec u) (vec v : Vec (Exact ε)) = .ok z) :
    z = vec (v + a • u) := by
  rw [(Checked.add_eq_ok.mp h).2, add_vec]

/-- `a * x`, written over any entries. -/
theorem checked_axpby_over (a : ℝ) (u : Euclidean n) (hy : y.length = n) :
    Checked.axpby (real a) (vec u) 0 y = .ok (vec (a • u)) := by
  unfold Checked.axpby
  rw [zero_eq, if_pos (real_beq.mpr rfl), zerosLike_of_length hy, checked_add_vec, zero_add]

/-- `a * x + b * y` of vectors. -/
theorem checked_axpby_vec (a b : ℝ) (u v : Euclidean n) :
    Checked.axpby (real a) (vec u) (real b) (vec v : Vec (Exact ε)) = .ok (vec (a • u + b • v)) := by
  by_cases hb : b = 0
  · rw [hb, zero_smul, add_zero, ← zero_eq, checked_axpby_over a u length_vec]
  · unfold Checked.axpby
    rw [zero_eq, if_neg (mt real_beq.mp hb), scale_vec, checked_add_vec, add_comm]

theorem checked_axpby_eq_ok {b : ℝ} (h : Checked.axpby (real a) (vec u) (real b) (vec v : Vec (Exact ε)) = .ok z) :
    z = vec (a • u + b • v) := (Except.ok.inj ((checked_axpby_vec a b u v).symm.trans h)).symm

end ConstrainedOpt.Exact
