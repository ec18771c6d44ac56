import ConstrainedOpt.Scalar.Binary64
import ConstrainedOpt.Proofs.Quadratic.Matrix
import ConstrainedOpt.Proofs.Sizes.Solvers

/-! # Refused sizes

The normal equation solvers refuse vectors that do not fit the operator, and then a work slice that is too short. Where
everything fits nothing but the numbers fails. Least-norm solutions are the exception: their right-hand side is copied
before it is checked.
-/
namespace ConstrainedOpt.NormalEquations
open Journaled
variable {F : Type} [Scalar F] {m n : Nat} {par : NormalParam F} {A : Operator F}

omit [Scalar F] in
/-- An outcome of a solver: vectors that do not fit are refused, then a lack of room, and only numbers fail otherwise. -/
structure SizesChecked (fits room : Prop) (outcome : Except StepError Nat) : Prop where
  unfit : ¬ fits → outcome = .error .invalidOperator
  short : fits → ¬ room → outcome = .error .workShortage
  sound : fits → room → OnlyUnstable outcome

variable {fits room : Prop}

omit [Scalar F] in
theorem SizesChecked.of_unfit (h : ¬ fits) : SizesChecked fits room (.error .invalidOperator) :=
  ⟨fun _ => rfl, fun hfits => absurd hfits h, fun hfits => absurd hfits h⟩

omit [Scalar F] in
theorem SizesChecked.of_short (hfits : fits) (h : ¬ room) : SizesChecked fits room (.error .workShortage) :=
  ⟨fun hunfit => absurd hfits hunfit, fun _ _ => rfl, fun _ hroom => absurd hroom h⟩

omit [Scalar F] in
theorem SizesChecked.of_sound (hfits : fits) (hroom : room) {outcome : Except StepError Nat} (h : OnlyUnstable outcome) :
    SizesChecked fits room outcome :=
  ⟨fun hunfit => absurd hfits hunfit, fun _ hshort => absurd hroom hshort, fun _ _ => h⟩

omit [Scalar F] in
theorem workShortage_yields (hA : A.Fills m n) (work : Nat) :
    (workShortage? A work).Yields fun shortage => shortage = true ↔ ¬ workLength m n ≤ work := by
  unfold workShortage?
  rw [hA.rows, hA.cols]
  split
  case isTrue h => exact yields_bind (yields_log _ _) fun _ _ => yields_pure ⟨fun _ => Nat.not_le.mpr h, fun _ => rfl⟩
  case isFalse h => exact yields_pure ⟨nofun, fun hshort => absurd (Nat.not_lt.mp h) hshort⟩

theorem solve_sizesChecked (hA : A.Fills m n) (b w : Vec F) (work : Nat) : (solve par A b w work).Yields fun s =>
    SizesChecked (b.length = m ∧ w.length = m) (solveWorkLength m n ≤ work) s.outcome := by
  by_cases hfits : b.length = m ∧ w.length = m
  · by_cases hroom : solveWorkLength m n ≤ work
    · exact (solve_sized hA hfits.1 hfits.2 hroom).mono fun s hs => .of_sound hfits hroom hs.outcome
    · unfold solve
      rw [hA.rows, hA.cols, if_neg (by simp [hfits]), if_pos (Nat.not_le.mp hroom)]
      exact yields_bind (yields_log _ _) fun _ _ => yields_pure (.of_short hfits hroom)
  · unfold solve
    rw [hA.rows, if_pos (not_and_or.mp hfits)]
    exact yields_bind (yields_log _ _) fun _ _ => yields_pure (.of_unfit hfits)

theorem project_sizesChecked (hA : A.Fills m n) (v u : Vec F) (work : Nat) : (project par A v u work).Yields fun s =>
    SizesChecked (v.length = n ∧ u.length = n) (workLength m n ≤ work) s.outcome := by
  by_cases hfits : v.length = n ∧ u.length = n
  · by_cases hroom : workLength m n ≤ work
    · exact (project_sized hA hfits.1 hfits.2 hroom).mono fun s hs => .of_sound hfits hroom hs.outcome
    · unfold project
      rw [hA.cols, if_neg (by simp [hfits])]
      refine yields_bind (workShortage_yields hA work) fun shortage hshort => ?_
      rw [if_pos (hshort.mpr hroom)]
      exact yields_pure (.of_short hfits hroom)
  · unfold project
    rw [hA.cols, if_pos (not_and_or.mp hfits)]
    exact yields_bind (yields_log _ _) fun _ _ => yields_pure (.of_unfit hfits)

theorem leastNorm_sizesChecked (hA : A.Fills m n) (g u : Vec F) (work : Nat)
    (hg : u.length = n → workLength m n ≤ work → g.length = m) : (leastNorm par A g u work).Yields fun s =>
      SizesChecked (u.length = n) (workLength m n ≤ work) s.outcome := by
  by_cases hfits : u.length = n
  · by_cases hroom : workLength m n ≤ work
    · exact (leastNorm_sized hA (hg hfits hroom) hfits hroom).mono fun s hs => .of_sound hfits hroom hs.outcome
    · unfold leastNorm
      rw [hA.cols, if_neg (by simp [hfits])]
      refine yields_bind (workShortage_yields hA work) fun shortage hshort => ?_
      rw [if_pos (hshort.mpr hroom)]
      exact yields_pure (.of_short hfits hroom)
  · unfold leastNorm
    rw [hA.cols, if_pos hfits]
    exact yields_bind (yields_log _ _) fun _ _ => yields_pure (.of_unfit hfits)

/-- The right-hand side is copied before it is checked. -/
theorem leastNorm_panics (hA : A.Fills m n) {g u : Vec F} {work : Nat} (hu : u.length = n)
    (hwork : workLength m n ≤ work) (hg : g.length ≠ m) (notes : Array (Note F)) :
    (leastNorm par A g u work).run notes = (.error .lengthMismatch, notes) := by
  have hcopy : Checked.copy g (Vec.zeros m) = .error .lengthMismatch := by
    unfold Checked.copy Checked.sameLength
    rw [if_neg (by rwa [Vec.length_zeros])]
    rfl
  unfold leastNorm workShortage?
  rw [hA.rows, hA.cols, if_neg (by simp [hu]), if_neg (Nat.not_lt.mpr hwork), hcopy]
  rfl

/-- Solutions and projections are refused or found, at whatever sizes. A least-norm solution is so too, judged by its own
length, as long as the right-hand side has a component for each row; for one that has not the solver panics. -/
theorem sizes_checked (hA : A.Fills m n) (par : NormalParam F) :
    (∀ (b w : Vec F) (work : Nat), (solve par A b w work).Yields fun s =>
      SizesChecked (b.length = m ∧ w.length = m) (solveWorkLength m n ≤ work) s.outcome) ∧
    (∀ (v u : Vec F) (work : Nat), (project par A v u work).Yields fun s =>
      SizesChecked (v.length = n ∧ u.length = n) (workLength m n ≤ work) s.outcome) ∧
    (∀ (g u : Vec F) (work : Nat), (u.length = n → workLength m n ≤ work → g.length = m) →
      (leastNorm par A g u work).Yields fun s => SizesChecked (u.length = n) (workLength m n ≤ work) s.outcome) ∧
    ∀ (g u : Vec F) (work : Nat), u.length = n → workLength m n ≤ work → g.length ≠ m →
      ∀ notes, (leastNorm par A g u work).run notes = (.error .lengthMismatch, notes) :=
  ⟨solve_sizesChecked hA, project_sizesChecked hA, leastNorm_sizesChecked hA, fun _ _ _ => leastNorm_panics hA⟩

/-- The row of ones. -/
def sumRow : Matrix Float := ⟨.general 1 2, #[1, 1], rfl⟩

/-- A right-hand side of two components for one row. -/
theorem leastNorm_panics_sumRow :
    (leastNorm .default sumRow.operator [-1, 2] (Vec.zeros 2) 7).run #[] = (.error .lengthMismatch, #[]) := rfl

theorem sizes_checked_sumRow : sumRow.operator.Fills 1 2 ∧
    ((solve .default sumRow.operator [1, 2] (Vec.zeros 1) 5).Yields fun s => s.outcome = .error .invalidOperator) ∧
    ((solve .default sumRow.operator [1] (Vec.zeros 1) 4).Yields fun s => s.outcome = .error .workShortage) ∧
    ((project .default sumRow.operator [1, 2] (Vec.zeros 2) 7).Yields fun s => OnlyUnstable s.outcome) ∧
    (leastNorm .default sumRow.operator [-1, 2] (Vec.zeros 2) 7).run #[] = (.error .lengthMismatch, #[]) := by
  have hfills : sumRow.operator.Fills 1 2 := Matrix.operator_fills _
  obtain ⟨hsolve, hproject, -, hleast⟩ := sizes_checked hfills .default
  refine ⟨hfills, (hsolve _ _ 5).mono fun s hs => hs.unfit (by decide), (hsolve _ _ 4).mono fun s hs => ?_,
    (hproject _ _ 7).mono fun s hs => hs.sound ⟨rfl, rfl⟩ (by decide), hleast _ _ 7 rfl (by decide) (by decide) #[]⟩
  exact hs.short ⟨rfl, rfl⟩ (by decide)

end ConstrainedOpt.NormalEquations
