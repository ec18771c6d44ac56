import ConstrainedOpt.Barrier
import ConstrainedOpt.QuasiNewton
import ConstrainedOpt.Proofs.Vec.Length

/-! # Operators that fill their sizes

Functions that accept vectors of their sizes and fill their outputs, whatever their values are. The operators made
of them accept and fill vectors of theirs: Jacobians, Hessians and the quasi-Newton operators of a history.
-/
namespace ConstrainedOpt
open Journaled
variable {F : Type} [Scalar F] {m n : Nat}

omit [Scalar F] in
structure Operator.Fills (A : Operator F) (m n : Nat) : Prop where
  rows : A.rows = m
  cols : A.cols = n
  apply : ∀ a x b y, x.length = n → y.length = m → (A.apply a x b y).Yields fun z => z.length = m
  applyTransposed : ∀ a w b z, w.length = m → z.length = n → (A.applyTransposed a w b z).Yields fun v => v.length = n

omit [Scalar F] in
structure Objective.Fills (o : Objective F) (n : Nat) : Prop where
  value : ∀ x, x.length = n → (o.value x).Answers fun _ => True
  gradient : ∀ x, x.length = n → (o.gradient x n).Answers fun v => v.length = n
  hessian : ∀ x dx, x.length = n → dx.length = n → (o.hessian x dx n).Answers fun v => v.length = n

omit [Scalar F] in
structure Constraint.Fills (c : Constraint F) (m n : Nat) : Prop where
  rows : c.rows = m
  cols : c.cols = n
  value : ∀ x, x.length = n → (c.value x m).Answers fun v => v.length = m
  forward : ∀ x dx, x.length = n → dx.length = n → (c.forward x dx m).Answers fun v => v.length = m
  adjoint : ∀ x dy, x.length = n → dy.length = m → (c.adjoint x dy n).Answers fun v => v.length = n
  second : ∀ x dx dy, x.length = n → dx.length = n → dy.length = m → (c.second x dx dy n).Answers fun v => v.length = n

omit [Scalar F] in
/-- All functions of the problem fill their sizes, for iterates of dimension `n`. -/
structure Problem.Fills (p : Problem F) (n : Nat) : Prop where
  objective : p.objective.Fills n
  equality : ∀ c, p.equality = some c → c.Fills p.equalities n
  inequality : ∀ c, p.inequality = some c → c.Fills p.inequalities n
  preconditioner : ∀ b, p.preconditioner = some b → b.Fills n n

omit [Scalar F] in
/-- An operator that is its own transpose fills its size when its updates do. -/
theorem Operator.selfAdjoint_fills {apply : F → Vec F → F → Vec F → Journaled F (Vec F)}
    (h : ∀ a x b y, x.length = n → y.length = n → (apply a x b y).Yields fun z => z.length = n) :
    (selfAdjoint n apply).Fills n n where
  rows := rfl
  cols := rfl
  apply := h
  applyTransposed := h

theorem Operator.identity_fills (n : Nat) : (identity n : Operator F).Fills n n :=
  selfAdjoint_fills fun a _ b _ hx hy => yields_lift (Checked.answers_axpby a b hx hy)

theorem Constraint.Fills.jacobian {c : Constraint F} (hc : c.Fills m n) {x : Vec F} (hx : x.length = n) :
    (c.jacobian x).Fills m n where
  rows := hc.rows
  cols := hc.cols
  apply a dx b y hdx hy := by
    refine yields_bind (yields_lift ?_) fun t ht => yields_lift (Checked.answers_axpby a b ht hy)
    rw [hy]
    exact hc.forward x dx hx hdx
  applyTransposed a dy b z hdy hz := by
    refine yields_bind (yields_lift ?_) fun t ht => yields_lift (Checked.answers_axpby a b ht hz)
    rw [hz]
    exact hc.adjoint x dy hx hdy

/-! ### Quasi-Newton operators -/

omit [Scalar F] in
/-- The stored pairs have `n` components. -/
structure History.Sized (n : Nat) (h : History F) : Prop where
  steps : ∀ v ∈ h.steps, v.length = n
  changes : ∀ v ∈ h.changes, v.length = n

namespace History
variable {h : History F}

omit [Scalar F] in
theorem Sized.push (hh : h.Sized n) {u v : Vec F} (hu : u.length = n) (hv : v.length = n) (size : Nat) :
    (h.push u v size).Sized n := by
  unfold History.push
  split
  · exact ⟨nofun, nofun⟩
  · constructor
    · intro w hw
      rcases List.mem_cons.mp (List.mem_of_mem_take hw) with rfl | hw
      · exact hu
      · exact hh.steps w hw
    · intro w hw
      rcases List.mem_cons.mp (List.mem_of_mem_take hw) with rfl | hw
      · exact hv
      · exact hh.changes w hw

omit [Scalar F] in
theorem Sized.newestFirst (hh : h.Sized n) : ∀ q ∈ h.newestFirst, q.1.length = n ∧ q.2.length = n := by
  rintro ⟨u, v⟩ hq
  obtain ⟨hu, hv⟩ := List.of_mem_zip hq
  exact ⟨hh.steps u hu, hh.changes v hv⟩

omit [Scalar F] in
theorem Sized.oldestFirst (hh : h.Sized n) : ∀ q ∈ h.oldestFirst, q.1.length = n ∧ q.2.length = n := by
  rintro ⟨u, v⟩ hq
  obtain ⟨hu, hv⟩ := List.of_mem_zip hq
  exact ⟨hh.steps u (List.mem_reverse.mp hu), hh.changes v (List.mem_reverse.mp hv)⟩

end History

namespace QuasiNewton
open Checked
variable {v : Vec F} {h : History F}

omit [Scalar F] in
def RankTwo.Sized (n : Nat) (t : RankTwo F) : Prop := t.bs.length = n ∧ t.y.length = n

theorem RankTwo.answers_addTo {t : RankTwo F} (ht : t.Sized n) (hv : v.length = n) {out : Vec F}
    (hout : out.length = n) : (RankTwo.addTo v out t).Answers fun z => z.length = n := by
  refine answers_bind (answers_inner ht.1 hv) fun _ _ => answers_bind (answers_inner ht.2 hv) fun _ _ => ?_
  exact answers_bind (answers_add _ ht.1 hout) fun w hw => answers_add _ ht.2 hw

theorem answers_applyRankTwo {updates : List (RankTwo F)} (hu : ∀ t ∈ updates, t.Sized n) (hv : v.length = n) :
    (applyRankTwo updates v).Answers fun z => z.length = n :=
  answers_foldlM (fun _ t ht hb => RankTwo.answers_addTo (hu t ht) hv hb) hv

theorem answers_pushRankTwo {updates : List (RankTwo F)} (hu : ∀ t ∈ updates, t.Sized n) {pair : Vec F × Vec F}
    (hpair : pair.1.length = n ∧ pair.2.length = n) :
    (pushRankTwo updates pair).Answers fun us => ∀ t ∈ us, t.Sized n := by
  obtain ⟨s, y⟩ := pair
  refine answers_bind (answers_applyRankTwo hu hpair.1) fun bs hbs => ?_
  refine answers_bind (answers_inner hpair.1 hbs) fun sbs _ => answers_bind (answers_inner hpair.2 hpair.1) fun ys _ => ?_
  refine ⟨_, rfl, ?_⟩
  split
  · intro t ht
    rcases List.mem_append.mp ht with ht | ht
    · exact hu t ht
    · rw [List.mem_singleton.mp ht]
      exact ⟨hbs, hpair.2⟩
  · exact hu

theorem answers_bfgs (hh : h.Sized n) (hv : v.length = n) : (bfgs h v).Answers fun z => z.length = n := by
  refine answers_bind (P := fun us => ∀ t ∈ us, t.Sized n) ?_ fun us hus => answers_applyRankTwo hus hv
  exact answers_foldlM (fun us q hq hus => answers_pushRankTwo hus (hh.oldestFirst q hq)) (by simp)

theorem answers_inverseLoops {pairs : List (Vec F × Vec F × F)} (hp : ∀ q ∈ pairs, q.1.length = n ∧ q.2.1.length = n)
    (hv : v.length = n) : (inverseLoops pairs v).Answers fun z => z.length = n := by
  induction pairs generalizing v with
  | nil => exact ⟨v, rfl, hv⟩
  | cons q older ih =>
    obtain ⟨s, y, ys⟩ := q
    obtain ⟨hs, hy⟩ := hp _ List.mem_cons_self
    refine answers_bind (answers_inner hs hv) fun _ _ => answers_bind (answers_add _ hy hv) fun u hu => ?_
    refine answers_bind (ih (fun q hq => hp q (List.mem_cons_of_mem _ hq)) hu) fun w hw => ?_
    exact answers_bind (answers_inner hy hw) fun _ _ => answers_add _ hs hw

theorem answers_inverseBfgs (hh : h.Sized n) (hv : v.length = n) : (inverseBfgs h v).Answers fun z => z.length = n := by
  refine answers_bind (P := fun pairs => ∀ q ∈ pairs, q.1.length = n ∧ q.2.1.length = n) ?_ fun pairs hp =>
    answers_inverseLoops hp hv
  refine answers_bind (P := fun pairs => ∀ q ∈ pairs, q.1.length = n ∧ q.2.1.length = n) (answers_mapM ?_)
    fun pairs hp => ⟨_, rfl, fun q hq => hp q (List.mem_filter.mp hq).1⟩
  rintro ⟨s, y⟩ hq
  obtain ⟨hs, hy⟩ := hh.newestFirst _ hq
  exact answers_bind (answers_inner hy hs) fun _ _ => ⟨_, rfl, hs, hy⟩

theorem RankOne.answers_addTo {negative : Bool} {t : RankOne F} (ht : t.r.length = n) (hv : v.length = n) {out : Vec F}
    (hout : out.length = n) : (RankOne.addTo negative v out t).Answers fun z => z.length = n :=
  answers_bind (answers_inner ht hv) fun _ _ => answers_add _ ht hout

theorem answers_pushRankOne {updates : List (RankOne F)} (hu : ∀ t ∈ updates, t.r.length = n) {pair : Vec F × Vec F}
    (hpair : pair.1.length = n ∧ pair.2.length = n) :
    (pushRankOne updates pair).Answers fun us => ∀ t ∈ us, t.r.length = n := by
  obtain ⟨u, w⟩ := pair
  refine answers_bind (answers_add _ hpair.1 hpair.2) fun z hz => ?_
  refine answers_bind (answers_foldlM (fun _ t ht hb => RankOne.answers_addTo (hu t ht) hpair.1 hb) hz) fun r hr => ?_
  refine answers_bind (answers_inner hr hpair.1) fun ru _ => ⟨_, rfl, ?_⟩
  split
  · intro t ht
    rcases List.mem_append.mp ht with ht | ht
    · exact hu t ht
    · rw [List.mem_singleton.mp ht]
      exact hr
  · exact hu

theorem answers_sr1 (inverse : Bool) (hh : h.Sized n) (hv : v.length = n) :
    (sr1 inverse h v).Answers fun z => z.length = n := by
  refine answers_bind (P := fun us => ∀ t ∈ us, t.r.length = n) ?_ fun us hus =>
    answers_foldlM (fun _ t ht hb => RankOne.answers_addTo (hus t ht) hv hb) hv
  refine answers_foldlM (fun us q hq hus => answers_pushRankOne hus ?_) (by simp)
  obtain ⟨⟨s, y⟩, hmem, rfl⟩ := List.mem_map.mp hq
  obtain ⟨hs, hy⟩ := hh.oldestFirst _ hmem
  cases inverse
  · exact ⟨hs, hy⟩
  · exact ⟨hy, hs⟩

theorem answers_applyTo (kind : OperatorKind) (scale : F) (hh : h.Sized n) (hv : v.length = n) :
    (applyTo kind scale h v).Answers fun z => z.length = n := by
  cases kind with
  | identity | userDefined => exact ⟨v, rfl, hv⟩
  | scaledIdentity => exact ⟨_, rfl, (Vec.length_scale scale v).trans hv⟩
  | bfgs => exact answers_bfgs hh hv
  | invBfgs => exact answers_inverseBfgs hh hv
  | sr1 => exact answers_sr1 false hh hv
  | invSr1 => exact answers_sr1 true hh hv

theorem operator_fills (kind : OperatorKind) (scale : F) (hh : h.Sized n) : (operator kind n scale h).Fills n n := by
  refine Operator.selfAdjoint_fills fun a x b y hx hy => ?_
  refine yields_bind (yields_lift (answers_copy hx (Vec.length_zeros n))) ?_
  rintro _ rfl
  refine yields_bind (yields_lift (answers_applyTo kind scale hh hx)) fun z hz => ?_
  exact yields_lift (answers_axpby a b hz hy)

end QuasiNewton

/-! ### The Hessian of the barrier Lagrangian -/

namespace Barrier
open Checked
variable {p : Problem F} {x y h : Vec F}

theorem inequalityHessian_fills {c : Constraint F} (hc : c.Fills m n) (hx : x.length = n) (hh : h.length = m) (μ : F)
    {dx t : Vec F} (hdx : dx.length = n) (ht : t.length = n) :
    (inequalityHessian c x h μ dx t).Yields fun z => z.length = n := by
  have hJ := hc.jacobian hx
  have hones : (Vec.ones h.length : Vec F).length = m := by rw [Vec.length_ones, hh]
  unfold inequalityHessian
  refine yields_bind (hJ.apply _ _ _ _ hdx ((Vec.length_zerosLike h).trans hh)) fun hdx' hlen => ?_
  refine yields_bind (yields_lift (answers_quotient hh hlen)) fun q hq => ?_
  refine yields_bind (yields_lift (answers_quotient hh hq)) fun w hw => ?_
  refine yields_bind (hJ.applyTransposed _ _ _ _ hw ht) fun t ht => ?_
  refine yields_bind (yields_lift (answers_quotient hh hones)) fun e he => ?_
  refine yields_bind (yields_lift ?_) fun u hu => yields_lift (answers_add _ hu ht)
  rw [hx]
  exact hc.second x dx e hx hdx he

theorem hessian_fills (hp : p.Fills n) (hx : x.length = n) (hy : y.length = p.equalities)
    (hh : h.length = p.inequalities) (μ : F) : (hessian p x y h μ).Fills n n := by
  unfold hessian
  rw [hx]
  refine Operator.selfAdjoint_fills fun a dx b out hdx hout => ?_
  refine yields_bind (yields_lift (hp.objective.hessian x dx hx hdx)) fun t ht => ?_
  refine yields_bind (P := fun t => t.length = n) ?_ fun t ht => ?_
  · split
    · exact yields_pure ht
    case h_2 c hc =>
      exact yields_bind (yields_lift ((hp.equality c hc).second x dx y hx hdx hy)) fun u hu =>
        yields_lift (answers_add 1 hu ht)
  refine yields_bind (P := fun t => t.length = n) ?_ fun t ht => yields_lift (answers_axpby a b ht hout)
  · split
    · exact yields_pure ht
    case h_2 c hc => exact inequalityHessian_fills (hp.inequality c hc) hx hh μ hdx ht

end Barrier
end ConstrainedOpt
