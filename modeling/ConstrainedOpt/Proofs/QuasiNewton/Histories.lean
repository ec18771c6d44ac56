import ConstrainedOpt.QuasiNewton
import ConstrainedOpt.Proofs.Exact.Operator

/-! # Histories of real pairs

A history of real steps and changes. An operator of a history that takes real vectors as a symmetric linear map does acts as
that map, and one that takes them as its inverse does undoes it.
-/
namespace ConstrainedOpt
open Exact Journaled
variable {ε : Set.Ioi (0 : ℝ)} {n : ℕ}

/-- The history of some pairs of a step and a change, newest first. -/
def History.ofPairs (pairs : List (Euclidean n × Euclidean n)) : History (Exact ε) :=
  ⟨pairs.map fun q => vec q.1, pairs.map fun q => vec q.2⟩

/-- A pair as it is stored. -/
def storedPair (q : Euclidean n × Euclidean n) : Vec (Exact ε) × Vec (Exact ε) := (vec q.1, vec q.2)

theorem History.newestFirst_ofPairs (pairs : List (Euclidean n × Euclidean n)) :
    (ofPairs pairs : History (Exact ε)).newestFirst = pairs.map storedPair := by
  unfold newestFirst ofPairs storedPair
  rw [List.zip_map']

theorem History.oldestFirst_ofPairs (pairs : List (Euclidean n × Euclidean n)) :
    (ofPairs pairs : History (Exact ε)).oldestFirst = pairs.reverse.map storedPair := by
  unfold oldestFirst ofPairs storedPair
  dsimp only
  rw [← List.map_reverse, ← List.map_reverse, List.zip_map']

/-- Updates made pair by pair, oldest first, satisfy what they satisfy at the start and what each pair preserves. -/
theorem History.foldlM_ofPairs {β : Type} {P : List (Euclidean n × Euclidean n) → β → Prop}
    {f : β → Vec (Exact ε) × Vec (Exact ε) → Checked β} {b : β} (hstart : P [] b)
    (hpair : ∀ q older c, P older c → (f c (storedPair q)).Answers (P (q :: older)))
    (pairs : List (Euclidean n × Euclidean n)) :
    Checked.Answers ((ofPairs pairs).oldestFirst.foldlM f b) (P pairs) := by
  induction pairs with
  | nil => exact ⟨b, rfl, hstart⟩
  | cons q older ih =>
    rw [oldestFirst_ofPairs] at ih ⊢
    rw [List.reverse_cons, List.map_append, List.foldlM_append]
    refine Checked.answers_bind ih fun c hc => ?_
    obtain ⟨d, hd, hP⟩ := hpair q older c hc
    exact ⟨d, Checked.bind_eq_ok.mpr ⟨d, hd, rfl⟩, hP⟩

/-- `A` undoes `K`: the image by `A` of the image of a vector is the vector, whatever the images are written over. -/
def Operator.Undoes (A K : Operator (Exact ε)) (n : ℕ) : Prop :=
  ∀ (v : Euclidean n) (y z : Vec (Exact ε)), y.length = n → z.length = n →
    (K.apply 1 (vec v) 0 y >>= fun w => A.apply 1 w 0 z).Yields fun u => u = vec v

namespace QuasiNewton
variable {kind kind' : OperatorKind} {scale : Exact ε} {h : History (Exact ε)} {M M' : Euclidean n →ₗ[ℝ] Euclidean n}

section Apply
variable (happly : ∀ v, applyTo kind scale h (vec v) = .ok (vec (M v)))
include happly

theorem operator_yields {a b : Exact ε} {y z : Vec (Exact ε)} (v : Euclidean n)
    (hz : Checked.axpby a (vec (M v)) b y = .ok z) : ((operator kind n scale h).apply a (vec v) b y).Yields fun w => w = z := by
  refine yields_bind (yields_lift (Checked.answers_copy length_vec (Vec.length_zeros n))) ?_
  rintro _ rfl
  refine yields_bind (P := fun w => w = vec (M v)) (yields_lift ⟨_, happly v, rfl⟩) ?_
  rintro _ rfl
  exact yields_lift ⟨z, hz, rfl⟩

/-- The image of a vector, whatever it is written over. -/
theorem operator_image (a : ℝ) (v : Euclidean n) {y : Vec (Exact ε)} (hy : y.length = n) :
    ((operator kind n scale h).apply (real a) (vec v) 0 y).Yields fun w => w = vec (a • M v) :=
  operator_yields happly v (checked_axpby_over a (M v) hy)

theorem operator_acts (hM : M.IsSymmetric) : (operator kind n scale h).Acts M := by
  have hacts : ∀ (a b : ℝ) (u v : Euclidean n),
      ((operator kind n scale h).apply (real a) (vec u) (real b) (vec v)).Ensures fun z => z = vec (a • M u + b • v) :=
    fun a b u v => (operator_yields happly u (checked_axpby_vec a b (M u) v)).ensures
  refine ⟨rfl, rfl, hacts, ?_⟩
  rw [(LinearMap.eq_adjoint_iff M M).mpr hM |>.symm]
  exact hacts

theorem operator_undoes (happly' : ∀ v, applyTo kind' scale h (vec v) = .ok (vec (M' v))) (hM : ∀ v, M' (M v) = v) :
    (operator kind' n scale h).Undoes (operator kind n scale h) n := by
  intro v y z hy hz
  refine yields_bind (operator_image happly 1 v hy) ?_
  rintro _ rfl
  have himage := operator_image happly' 1 (M v) hz
  rw [one_smul, hM] at himage
  rwa [one_smul]

end Apply

theorem identity_acts (n : ℕ) (scale : Exact ε) (h : History (Exact ε)) :
    (operator .identity n scale h).Acts (LinearMap.id : Euclidean n →ₗ[ℝ] Euclidean n) :=
  operator_acts (fun _ => rfl) LinearMap.IsSymmetric.id

end QuasiNewton
end ConstrainedOpt
