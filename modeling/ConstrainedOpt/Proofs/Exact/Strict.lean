import ConstrainedOpt.Run.TrustRegion
import ConstrainedOpt.Proofs.Exact.Operator

/-! # Strict operators

A strict operator answers with real vectors to real vectors only: what is undefined or infinite does not get
lost in it. The operators of a step are strict when the Hessian of the objective is, and the quasi-Newton ones
always are. Conjugate gradients need less of a Hessian, which may leave out entries of a vector: a direction that
is not real has no entry that is.
-/
namespace ConstrainedOpt
open Exact Journaled
variable {ε : Set.Ioi (0 : ℝ)}

def Operator.Strict (A : Operator (Exact ε)) : Prop :=
  ∀ x y, x.length = A.cols → (A.apply 1 x 0 y).Ensures fun z => Vec.isFinite z = true → Vec.isFinite x = true

/-- The operator curves some real vector upwards. -/
def Operator.Curves (A : Operator (Exact ε)) (n : ℕ) : Prop :=
  ∃ v u : Euclidean n, (A.apply 1 (vec v) 0 (vec (0 : Euclidean n))).Returns (vec u) ∧ 0 < inner ℝ v u

/-- The vector has entries, and none of them is real. -/
def Vec.Unreal (x : Vec (Exact ε)) : Prop := x ≠ [] ∧ ∀ a ∈ x, Scalar.isFinite a = false

/-- Of a vector that has no real entry the operator makes none that is real. -/
def Operator.Exposes (A : Operator (Exact ε)) (n : ℕ) : Prop :=
  ∀ x : Vec (Exact ε), x.length = n → Vec.Unreal x →
    (A.apply 1 x 0 (Vec.zerosLike x)).Ensures fun z => Vec.isFinite z = false

/-- If there is a vector that the operator curves upwards, it makes no real vector of one that has no real entry. -/
def Operator.Propagates (A : Operator (Exact ε)) (n : ℕ) : Prop := A.Curves n → A.Exposes n

theorem Vec.Unreal.isFinite_eq_false {x : Vec (Exact ε)} (hx : Vec.Unreal x) : Vec.isFinite x = false := by
  obtain ⟨hne, hx⟩ := hx
  obtain ⟨a, ha⟩ := List.exists_mem_of_ne_nil x hne
  exact List.all_eq_false.mpr ⟨a, ha, by simp [hx a ha]⟩

theorem Operator.Strict.propagates {A : Operator (Exact ε)} {n : ℕ} (hA : A.Strict) (hcols : A.cols = n) :
    A.Propagates n := by
  intro _ x hlen hx
  refine (hA x _ (hlen.trans hcols.symm)).mono fun z hz => ?_
  by_contra hfin
  have hreal := hz (by simpa using hfin)
  rw [hx.isFinite_eq_false] at hreal
  cases hreal

/-- The Hessian of the objective answers with real vectors to real vectors only. -/
def Objective.Strict (o : Objective (Exact ε)) : Prop :=
  ∀ x dx size z, o.hessian x dx size = .ok z → Vec.isFinite z = true → Vec.isFinite dx = true

/-! ### Sums -/

section Sums
variable {a b : Exact ε} {x y z : Vec (Exact ε)}

theorem Checked.isFinite_of_axpby (h : Checked.axpby a x b y = .ok z) (hz : Vec.isFinite z = true) :
    Vec.isFinite x = true := (isFinite_of_add h hz).1

theorem Checked.isFinite_of_axpby_right {c : ℝ} (hc : c ≠ 0) (h : Checked.axpby a x (real c) y = .ok z)
    (hz : Vec.isFinite z = true) : Vec.isFinite y = true := by
  have hy := (isFinite_of_add h hz).2
  rw [zero_eq, if_neg (mt real_beq.mp hc)] at hy
  exact Vec.isFinite_of_scale hy

/-- A real sum has real terms. -/
theorem Checked.real_of_axpby {n : ℕ} {r c : ℝ} (hc : c ≠ 0) {v : Euclidean n}
    (h : Checked.axpby (real r) x (real c) y = .ok (vec v)) :
    ∃ u w : Euclidean n, x = vec u ∧ y = vec w ∧ v = r • u + c • w := by
  have hy : y.length = n := (axpby_length h).symm.trans length_vec
  have hx : x.length = n := by
    rw [(add_eq_ok.mp h).1]
    split <;> simp [hy]
  obtain ⟨u, rfl⟩ := exists_vec hx (isFinite_of_axpby h isFinite_vec)
  obtain ⟨w, rfl⟩ := exists_vec hy (isFinite_of_axpby_right hc h isFinite_vec)
  exact ⟨u, w, rfl, rfl, vec_inj.mp (checked_axpby_eq_ok h)⟩

/-- The multiple that takes a real vector to another is their difference. -/
theorem Checked.scale_of_add {n : ℕ} {u w : Euclidean n} (h : Checked.add a x (vec u) = .ok (vec w)) :
    Vec.scale a x = vec (w - u) := by
  obtain ⟨hlen, hsum⟩ := Checked.add_eq_ok.mp h
  obtain ⟨d, rfl⟩ := exists_vec (hlen.trans length_vec) (isFinite_of_add h isFinite_vec).1
  unfold Vec.add vec at hsum
  rw [zipWith_ofFn] at hsum
  unfold Vec.scale vec
  rw [List.map_ofFn]
  exact congrArg List.ofFn (funext fun i => eq_sub_of_add (congrFun (List.ofFn_injective hsum) i).symm)

theorem Exact.isFinite_div_zero {x : ℝ} : Scalar.isFinite (real x / real 0 : Exact ε) = false := by
  change isFinite (if (0 : ℝ) = 0 then (if x = 0 then nan else blowUp x) else real (x / 0)) = false
  rw [if_pos rfl]
  split <;> rfl

/-- No entry is real in a sum with a multiple that is not. -/
theorem Exact.not_isFinite_of_mem_add {c : Exact ε} (hb : Scalar.isFinite b = false)
    (hc : c ∈ Vec.add a x (Vec.scale b y)) : Scalar.isFinite c = false := by
  obtain ⟨i, hi, rfl⟩ := List.mem_iff_getElem.mp hc
  by_contra hfin
  rw [Bool.not_eq_false] at hfin
  simp only [Vec.add, Vec.scale, List.getElem_zipWith, List.getElem_map] at hfin
  rw [isFinite_of_mul_left (isFinite_of_add_left hfin)] at hb
  cases hb

/-- The sum with a multiple by a quotient is real, unless the quotient is by zero: then no entry of it is. -/
theorem Checked.real_or_unreal_of_add {n : ℕ} {u v : Euclidean n} {r c : ℝ}
    (h : Checked.add 1 (vec u) (Vec.scale (real r / real c) (vec v)) = .ok z) :
    (∃ t : ℝ, z = vec (t • v + u)) ∨ c = 0 ∧ z.length = n ∧ Vec.Unreal z := by
  by_cases hc : c = 0
  · have hlen : z.length = n := by rw [Checked.add_length h, Vec.length_scale, length_vec]
    by_cases hz : z = []
    · subst hz
      exact .inl ⟨0, (List.eq_nil_of_length_eq_zero (length_vec.trans hlen.symm)).symm⟩
    subst hc
    exact .inr ⟨rfl, hlen, hz, fun a ha => not_isFinite_of_mem_add isFinite_div_zero ((Checked.add_eq_ok.mp h).2 ▸ ha)⟩
  · rw [real_div hc, scale_vec] at h
    exact .inl ⟨r / c, by rw [checked_add_eq_ok (a := 1) h, one_smul]⟩

/-- What a fold of checked steps ends in says something of its start when every step goes back. -/
theorem Checked.of_foldlM {α β : Type} {P : β → Prop} {f : β → α → Checked β}
    (hf : ∀ b t c, f b t = .ok c → P c → P b) {l : List α} {b c : β} (h : l.foldlM f b = .ok c) (hc : P c) : P b := by
  induction l generalizing b with
  | nil =>
    cases h
    exact hc
  | cons t l ih =>
    rw [List.foldlM_cons] at h
    obtain ⟨d, hd, h⟩ := bind_eq_ok.mp h
    exact hf b t d hd (ih h)

end Sums

/-! ### Quasi-Newton operators -/

namespace QuasiNewton
variable {v z : Vec (Exact ε)}

theorem RankTwo.isFinite_of_addTo {out : Vec (Exact ε)} {t : RankTwo (Exact ε)} (h : RankTwo.addTo v out t = .ok z)
    (hz : Vec.isFinite z = true) : Vec.isFinite out = true := by
  obtain ⟨a, -, h⟩ := Checked.bind_eq_ok.mp h
  obtain ⟨b, -, h⟩ := Checked.bind_eq_ok.mp h
  obtain ⟨w, hw, h⟩ := Checked.bind_eq_ok.mp h
  exact (Checked.isFinite_of_add hw (Checked.isFinite_of_add h hz).2).2

theorem RankOne.isFinite_of_addTo {negative : Bool} {out : Vec (Exact ε)} {t : RankOne (Exact ε)}
    (h : RankOne.addTo negative v out t = .ok z) (hz : Vec.isFinite z = true) : Vec.isFinite out = true := by
  obtain ⟨c, -, h⟩ := Checked.bind_eq_ok.mp h
  exact (Checked.isFinite_of_add h hz).2

theorem isFinite_of_inverseLoops {pairs : List (Vec (Exact ε) × Vec (Exact ε) × Exact ε)}
    (h : inverseLoops pairs v = .ok z) (hz : Vec.isFinite z = true) : Vec.isFinite v = true := by
  induction pairs generalizing v z with
  | nil =>
    cases h
    exact hz
  | cons pair older ih =>
    obtain ⟨s, y, ys⟩ := pair
    obtain ⟨a, -, h⟩ := Checked.bind_eq_ok.mp h
    obtain ⟨u, hu, h⟩ := Checked.bind_eq_ok.mp h
    obtain ⟨w, hw, h⟩ := Checked.bind_eq_ok.mp h
    obtain ⟨b, -, h⟩ := Checked.bind_eq_ok.mp h
    exact (Checked.isFinite_of_add hu (ih hw (Checked.isFinite_of_add h hz).2)).2

theorem isFinite_of_bfgs {h : History (Exact ε)} (hv : bfgs h v = .ok z) (hz : Vec.isFinite z = true) :
    Vec.isFinite v = true := by
  obtain ⟨updates, -, hv⟩ := Checked.bind_eq_ok.mp hv
  exact Checked.of_foldlM (P := fun z => Vec.isFinite z = true) (fun _ _ _ => RankTwo.isFinite_of_addTo) hv hz

theorem isFinite_of_sr1 {inverse : Bool} {h : History (Exact ε)} (hv : sr1 inverse h v = .ok z)
    (hz : Vec.isFinite z = true) : Vec.isFinite v = true := by
  obtain ⟨updates, -, hv⟩ := Checked.bind_eq_ok.mp hv
  exact Checked.of_foldlM (P := fun z => Vec.isFinite z = true) (fun _ _ _ => RankOne.isFinite_of_addTo) hv hz

theorem isFinite_of_applyTo {kind : OperatorKind} {scale : Exact ε} {h : History (Exact ε)}
    (hv : applyTo kind scale h v = .ok z) (hz : Vec.isFinite z = true) : Vec.isFinite v = true := by
  cases kind with
  | identity | userDefined =>
    cases hv
    exact hz
  | scaledIdentity =>
    cases hv
    exact Vec.isFinite_of_scale hz
  | bfgs => exact isFinite_of_bfgs hv hz
  | invBfgs =>
    obtain ⟨pairs, -, hv⟩ := Checked.bind_eq_ok.mp hv
    exact isFinite_of_inverseLoops hv hz
  | sr1 => exact isFinite_of_sr1 hv hz
  | invSr1 => exact isFinite_of_sr1 hv hz

theorem operator_strict (kind : OperatorKind) (n : ℕ) (scale : Exact ε) (h : History (Exact ε)) :
    (operator kind n scale h).Strict := by
  intro x y _
  refine ensures_bind (P := fun u => u = x) (ensures_lift fun u hu => (Checked.copy_eq_ok.mp hu).2) ?_
  rintro _ rfl
  refine ensures_bind (ensures_lift fun w hw => fun hfin => isFinite_of_applyTo hw hfin) fun w hw => ?_
  exact ensures_lift fun z hz hfin => hw (Checked.isFinite_of_axpby hz hfin)

end QuasiNewton

/-! ### Operators of a problem -/

theorem Constraint.isFinite_of_pullback (c : Constraint (Exact ε)) {x w z : Vec (Exact ε)} {a : Exact ε} {b : ℝ}
    (hb : b ≠ 0) : ((c.jacobian x).applyTransposed a w (real b) z).Ensures fun v =>
      Vec.isFinite v = true → Vec.isFinite z = true :=
  ensures_bind (ensures_true _) fun _ _ => ensures_lift fun _ => Checked.isFinite_of_axpby_right hb

theorem Barrier.hessian_strict {p : Problem (Exact ε)} (hp : p.objective.Strict) (x y h : Vec (Exact ε))
    (μ : Exact ε) : (Barrier.hessian p x y h μ).Strict := by
  intro dx out _
  refine ensures_bind (P := fun t => Vec.isFinite t = true → Vec.isFinite dx = true)
    (ensures_lift fun t => hp x dx _ t) fun t ht => ?_
  refine ensures_bind (P := fun t => Vec.isFinite t = true → Vec.isFinite dx = true) ?_ fun t ht => ?_
  · split
    · exact ensures_pure ht
    · exact ensures_bind (ensures_true _) fun u _ => ensures_lift fun z hz hfin =>
        ht (Checked.isFinite_of_add hz hfin).2
  refine ensures_bind (P := fun t => Vec.isFinite t = true → Vec.isFinite dx = true) ?_ fun t ht => ?_
  · split
    · exact ensures_pure ht
    case h_2 c _ =>
      unfold inequalityHessian
      refine ensures_bind (ensures_true _) fun hdx _ => ensures_bind (ensures_true _) fun q _ => ?_
      refine ensures_bind (ensures_true _) fun w _ => ?_
      refine ensures_bind (c.isFinite_of_pullback one_ne_zero) fun t' ht' => ?_
      refine ensures_bind (ensures_true _) fun e _ => ensures_bind (ensures_true _) fun u _ => ?_
      exact ensures_lift fun z hz hfin => ht (ht' (Checked.isFinite_of_add hz hfin).2)
  exact ensures_lift fun z hz hfin => ht (Checked.isFinite_of_axpby hz hfin)

theorem Setup.hessian_strict {k : Setup (Exact ε)} (hp : k.problem.objective.Strict) (s : State (Exact ε)) :
    (k.hessian s).Strict := by
  unfold Setup.hessian
  split
  · exact Barrier.hessian_strict hp _ _ _ _
  · exact QuasiNewton.operator_strict _ _ _ _

theorem Setup.hessian_cols {k : Setup (Exact ε)} {s : State (Exact ε)} (hs : s.x.length = k.n) :
    (k.hessian s).cols = k.n := by
  unfold Setup.hessian
  split
  · exact hs
  · rfl

theorem Setup.hessian_propagates {k : Setup (Exact ε)} (hp : k.problem.objective.Strict) {s : State (Exact ε)}
    (hs : s.x.length = k.n) : (k.hessian s).Propagates k.n := (hessian_strict hp s).propagates (hessian_cols hs)

theorem Operator.identity_strict (n : ℕ) : (identity n : Operator (Exact ε)).Strict := fun _ _ _ =>
  ensures_lift fun _ => Checked.isFinite_of_axpby

theorem Constraint.project_strict (c : Constraint (Exact ε)) (x v u : Vec (Exact ε)) (par : NormalParam (Exact ε))
    (work : ℕ) : (NormalEquations.project par (c.jacobian x) v u work).Ensures fun s =>
      ∀ i, s.outcome = .ok i → Vec.isFinite s.vector = true → Vec.isFinite v = true := by
  unfold NormalEquations.project
  split
  · exact ensures_bind (ensures_true _) fun _ _ => ensures_pure nofun
  · refine ensures_bind (ensures_true _) fun shortage _ => ?_
    split
    · exact ensures_pure nofun
    · refine ensures_bind (ensures_true _) fun b _ => ensures_bind (ensures_true _) fun s _ => ?_
      split
      · exact ensures_pure nofun
      · refine ensures_bind (c.isFinite_of_pullback one_ne_zero) fun v hv => ?_
        exact ensures_pure fun _ _ => hv

theorem Exact.eq_zero_of_isFinite_nan {n : ℕ}
    (h : Vec.isFinite (List.replicate n (Scalar.nan : Exact ε)) = true) : n = 0 := by
  by_contra hne
  exact Bool.false_ne_true (List.all_eq_true.mp h Scalar.nan (List.mem_replicate.mpr ⟨hne, rfl⟩))

/-- A failed projection is undefined in every component, and there are none only in dimension zero. -/
theorem Barrier.nullProjector_strict (c : Constraint (Exact ε)) (x : Vec (Exact ε)) (par : NormalParam (Exact ε)) :
    (nullProjector (c.jacobian x) par).Strict := by
  intro v y hv
  refine ensures_bind (c.project_strict x v _ par _) fun s hs => ?_
  refine ensures_bind (P := fun u => Vec.isFinite u = true → Vec.isFinite v = true) ?_ fun u hu => ?_
  · cases ho : s.outcome with
    | ok i => exact ensures_pure (hs i ho)
    | error e =>
      refine ensures_bind (ensures_true _) fun _ _ => ensures_pure fun hfin => ?_
      rw [List.eq_nil_of_length_eq_zero (hv.trans (eq_zero_of_isFinite_nan hfin))]
      rfl
  · exact ensures_lift fun z hz hfin => hu (Checked.isFinite_of_axpby hz hfin)

theorem TrustRegion.projector_strict (k : Setup (Exact ε)) (s : State (Exact ε)) : (projector k s).Strict := by
  unfold projector
  split
  · exact Operator.identity_strict k.n
  · exact Barrier.nullProjector_strict _ _ _

end ConstrainedOpt
