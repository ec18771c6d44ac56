import ConstrainedOpt.Proofs.Containment.Lengths
import ConstrainedOpt.Proofs.Interior

/-! # Golden-section search

In exact arithmetic, along a direction on which the merit has one valley, golden-section search closes in on the bottom
of the valley: each pass evaluates once, takes over the other probe where the golden ratio wants it, and cuts the bracket
in that ratio around the bottom.
-/
namespace ConstrainedOpt
open Exact
open scoped goldenRatio
variable {F α β : Type}

namespace Running

/-! ### Counted trials -/

theorem run_getState (r : Run F) : (getState : Running F (State F)).run r = (.ok r.state, r) := rfl

theorem run_checked (c : Checked α) {a : α} (hc : c = .ok a) (r : Run F) : (liftM c : Running F α).run r = (.ok a, r) := by
  subst hc
  change (Except.ok a, { r with events := r.events ++ (#[] : Array (Note F)).map Event.note }) = (Except.ok a, r)
  rw [Array.map_empty, Array.append_empty]

/-- From `s`, which it leaves alone, the piece evaluates at `n` trial points and answers for certain. Nothing else happens. -/
def Tries (c : Running F α) (s : State F) (n : ℕ) (Q : α → Prop) : Prop :=
  ∃ (a : α) (ts : List (Trial F)), ts.length = n ∧ Q a ∧
    ∀ events, c.run ⟨s, events⟩ = (.ok a, ⟨s, events ++ (ts.map (Event.trial s)).toArray⟩)

variable {s : State F} {m n : ℕ} {c : Running F α} {P : α → Prop} {Q : β → Prop}

theorem tries_pure {a : α} (h : P a) : Tries (pure a) s 0 P :=
  ⟨a, [], rfl, h, fun events => by rw [List.map_nil, Array.append_empty]; rfl⟩

theorem tries_bind {f : α → Running F β} (hc : Tries c s m P) (hf : ∀ a, P a → Tries (f a) s n Q) :
    Tries (c >>= f) s (n + m) Q := by
  obtain ⟨a, ts, rfl, ha, hrun⟩ := hc
  obtain ⟨b, us, rfl, hb, hrun'⟩ := hf a ha
  refine ⟨b, ts ++ us, by rw [List.length_append, Nat.add_comm], hb, fun events => ?_⟩
  rw [run_bind, hrun]
  dsimp only
  rw [hrun', List.map_append, ← List.append_toArray, Array.append_assoc]

/-- What is worked out from an answer takes no trials. -/
theorem Tries.map {f : α → β} (h : Tries c s n P) (hf : ∀ a, P a → Q (f a)) :
    Tries (c >>= fun a => pure (f a)) s n Q :=
  Nat.zero_add n ▸ tries_bind h fun a ha => tries_pure (hf a ha)

end Running

namespace LineSearch
open Running

/-! ### Passes -/

section Passes
variable [Scalar F] {k : Setup F}

/-- The bracket after the first two probes and a number of passes. -/
def bracketAfter (k : Setup F) (αMax : F) (passes : ℕ) : Running F (Bracket F) := do
  let left ← probe k (αMax - goldenRatio * (αMax - 0))
  let right ← probe k (0 + goldenRatio * (αMax - 0))
  Bracket.narrowTimes k passes ⟨0, αMax, left, right⟩

/-- The better one of the probes, the left one of two as good as each other. -/
def Bracket.best (br : Bracket F) : Probe F := if br.left.merit ≤ br.right.merit then br.left else br.right

theorem Bracket.narrowTimes_add (m n : ℕ) (br : Bracket F) :
    br.narrowTimes k (m + n) = br.narrowTimes k m >>= narrowTimes k n := by
  induction m generalizing br with
  | zero => rw [Nat.zero_add, narrowTimes, pure_bind]
  | succ m ih =>
    rw [Nat.succ_add, narrowTimes, narrowTimes, bind_assoc]
    exact bind_congr fun br => ih br

/-- A search of `n` evaluations passes through the brackets after any smaller number of passes. -/
theorem goldenSection_eq {n i : ℕ} (hn : 2 ≤ n) (hi : i ≤ n - 2) (αMax : F) :
    goldenSection k n αMax = do
      let br ← bracketAfter k αMax i
      let br ← br.narrowTimes k (n - 2 - i)
      return (br.best, n) := by
  have hmany : ¬ n ≤ 1 := by omega
  have hsplit : n - 2 = i + (n - 2 - i) := by omega
  unfold goldenSection bracketAfter
  simp only [if_neg hmany, bind_assoc]
  rw [hsplit]
  simp only [Bracket.narrowTimes_add, bind_assoc, Nat.add_sub_cancel_left]
  rfl

/-- Where the functions are defined, a probe is one trial. -/
theorem probe_tries {s : State F} {a : F} {t : Trial F} (ht : k.problem.trial s.x s.direction a = .ok t) :
    Tries (probe k a) s 1 fun q => q.alpha = a ∧ q.At k s := by
  refine ⟨⟨a, t, t.probeMerit s.mu⟩, [t], rfl, ⟨rfl, ht, rfl⟩, fun events => ?_⟩
  unfold probe tryStep
  rw [run_bind, run_getState]
  dsimp only
  rw [run_bind, run_bind, run_getState]
  dsimp only
  rw [run_bind, run_checked _ ht]
  change (Except.ok _, Run.mk s (events.push _)) = _
  rw [Array.push_eq_append]
  rfl

end Passes

/-! ### Golden points -/

theorem inv_goldenRatio_sq : φ⁻¹ ^ 2 = 1 - φ⁻¹ := by
  rw [Real.inv_goldenRatio, neg_sq, Real.goldenConj_sq]
  ring

theorem inv_goldenRatio_bounds : 1 / 2 < φ⁻¹ ∧ φ⁻¹ < 2 / 3 := by
  have hpos : 0 < φ⁻¹ := inv_pos.mpr Real.goldenRatio_pos
  constructor
  · nlinarith [inv_goldenRatio_sq]
  · nlinarith [inv_goldenRatio_sq]

variable {l u : ℝ}

/-- The lower inner point of a bracket. -/
noncomputable def lowerPoint (l u : ℝ) : ℝ := u - φ⁻¹ * (u - l)

/-- The upper inner point of a bracket. -/
noncomputable def upperPoint (l u : ℝ) : ℝ := l + φ⁻¹ * (u - l)

theorem lowerPoint_mem (h : l < u) : lowerPoint l u ∈ Set.Ioo l u := by
  have hratio := inv_goldenRatio_bounds
  unfold lowerPoint
  constructor <;> nlinarith

theorem upperPoint_mem (h : l < u) : upperPoint l u ∈ Set.Ioo l u := by
  have hratio := inv_goldenRatio_bounds
  unfold upperPoint
  constructor <;> nlinarith

theorem lowerPoint_lt_upperPoint (h : l < u) : lowerPoint l u < upperPoint l u := by
  have hratio := inv_goldenRatio_bounds
  unfold lowerPoint upperPoint
  nlinarith

/-- The lower inner point is the upper one of what is left below the upper inner point. -/
theorem upperPoint_upperPoint (l u : ℝ) : upperPoint l (upperPoint l u) = lowerPoint l u := by
  unfold upperPoint lowerPoint
  linear_combination (u - l) * inv_goldenRatio_sq

/-- The upper inner point is the lower one of what is left above the lower inner point. -/
theorem lowerPoint_lowerPoint (l u : ℝ) : lowerPoint (lowerPoint l u) u = upperPoint l u := by
  unfold upperPoint lowerPoint
  linear_combination (l - u) * inv_goldenRatio_sq

theorem abs_lowerPoint_sub_le (h : l < u) {q : ℝ} (hl : l ≤ q) (hu : q ≤ upperPoint l u) :
    |lowerPoint l u - q| ≤ φ⁻¹ ^ 2 * (u - l) := by
  have hratio := inv_goldenRatio_bounds
  unfold upperPoint at hu
  rw [inv_goldenRatio_sq, abs_le, lowerPoint]
  constructor <;> nlinarith

theorem abs_upperPoint_sub_le (h : l < u) {q : ℝ} (hl : lowerPoint l u ≤ q) (hu : q ≤ u) :
    |upperPoint l u - q| ≤ φ⁻¹ ^ 2 * (u - l) := by
  have hratio := inv_goldenRatio_bounds
  unfold lowerPoint at hl
  rw [inv_goldenRatio_sq, abs_le, upperPoint]
  constructor <;> nlinarith

variable {ε : Set.Ioi (0 : ℝ)}

theorem sub_goldenRatio_mul (l u : ℝ) :
    (real u - goldenRatio * (real u - real l) : Exact ε) = real (lowerPoint l u) := by
  rw [goldenRatio_eq, real_sub, real_mul, real_sub, lowerPoint]

theorem add_goldenRatio_mul (l u : ℝ) :
    (real l + goldenRatio * (real u - real l) : Exact ε) = real (upperPoint l u) := by
  rw [goldenRatio_eq, real_sub, real_mul, real_add, upperPoint]

/-! ### Valleys -/

variable {k : Setup (Exact ε)} {s : State (Exact ε)} {merit : ℝ → Exact ε} {b p : ℝ}

/-- Between zero and `b` the merit falls as far as the length `p`, and rises from there until it may become infinite. -/
structure Valley (merit : ℝ → Exact ε) (b p : ℝ) : Prop where
  nonneg : 0 ≤ p
  falls : ∀ x y, 0 ≤ x → x < y → y ≤ p → y ≤ b → merit y < merit x
  rises : ∀ x y, p ≤ x → x < y → y ≤ b → merit x < merit y ∨ merit x = infinite false ∧ merit y = infinite false

/-- Along the direction of `s`, between zero and `b`, the functions are defined and this is the merit. -/
def MeritAlong (k : Setup (Exact ε)) (s : State (Exact ε)) (merit : ℝ → Exact ε) (b : ℝ) : Prop :=
  ∀ x ∈ Set.Ioo 0 b, ∃ t, k.problem.trial s.x s.direction (real x) = .ok t ∧ t.probeMerit s.mu = merit x

/-- The bottom is not above the upper one of two lengths if the lower one is no worse. -/
theorem Valley.bottom_le (h : Valley merit b p) {x y : ℝ} (hx : 0 ≤ x) (hxy : x < y) (hy : y ≤ b)
    (hle : merit x ≤ merit y) : p ≤ y := by
  by_contra hp
  exact not_le_of_lt (h.falls x y hx hxy (not_le.mp hp).le hy) hle

/-- The bottom is not below the lower one of two lengths if that one is worse. Lengths of infinite merit are no worse
than each other, so the lower one of them is not concerned. -/
theorem Valley.le_bottom (h : Valley merit b p) {x y : ℝ} (hxy : x < y) (hy : y ≤ b)
    (hle : ¬ merit x ≤ merit y) : x ≤ p := by
  by_contra hp
  rcases h.rises x y (not_le.mp hp).le hxy hy with hlt | ⟨hx, hy⟩
  · exact hle (le_of_lt hlt)
  · rw [hx, hy] at hle
    exact hle (infinite_le_iff.mpr rfl)

theorem MeritAlong.probe_tries (hmerit : MeritAlong k s merit b) {x : ℝ} (hx : x ∈ Set.Ioo 0 b) :
    Tries (probe k (real x)) s 1 fun q => q.alpha = real x ∧ q.At k s := by
  obtain ⟨t, ht, -⟩ := hmerit x hx
  exact LineSearch.probe_tries ht

theorem MeritAlong.merit_eq (hmerit : MeritAlong k s merit b) {q : Probe (Exact ε)} (hat : q.At k s) {x : ℝ}
    (hq : q.alpha = real x) (hx : x ∈ Set.Ioo 0 b) : q.merit = merit x := by
  obtain ⟨t, ht, hm⟩ := hmerit x hx
  have htrial := hat.trial
  rw [hq, ht] at htrial
  rw [hat.merit, ← Except.ok.inj htrial, hm]

/-! ### Brackets around the bottom -/

namespace Bracket

/-- A bracket from `l` to `u`, with probes in golden position. -/
structure Golden (k : Setup (Exact ε)) (s : State (Exact ε)) (l u : ℝ) (br : Bracket (Exact ε)) : Prop where
  lower : br.a = real l
  upper : br.b = real u
  left : br.left.alpha = br.b - goldenRatio * (br.b - br.a)
  right : br.right.alpha = br.a + goldenRatio * (br.b - br.a)
  left_at : br.left.At k s
  right_at : br.right.At k s

/-- A bracket in golden position, not beyond `b`, around the length up to `b` at which the merit is least: `p`, or `b`
if the merit still falls there. -/
structure Encloses (k : Setup (Exact ε)) (s : State (Exact ε)) (b p l u : ℝ) (br : Bracket (Exact ε)) : Prop
    extends br.Golden k s l u where
  nonneg : 0 ≤ l
  lt : l < u
  le : u ≤ b
  bottom : min p b ∈ Set.Icc l u

variable {br : Bracket (Exact ε)}

theorem Golden.of_points {left right : Probe (Exact ε)} (hleft : left.alpha = real (lowerPoint l u))
    (hright : right.alpha = real (upperPoint l u)) (hleft_at : left.At k s) (hright_at : right.At k s) :
    Golden k s l u ⟨real l, real u, left, right⟩ where
  lower := rfl
  upper := rfl
  left := by rw [hleft, sub_goldenRatio_mul]
  right := by rw [hright, add_goldenRatio_mul]
  left_at := hleft_at
  right_at := hright_at

theorem Golden.left_eq (h : br.Golden k s l u) : br.left.alpha = real (lowerPoint l u) := by
  rw [h.left, h.lower, h.upper, sub_goldenRatio_mul]

theorem Golden.right_eq (h : br.Golden k s l u) : br.right.alpha = real (upperPoint l u) := by
  rw [h.right, h.lower, h.upper, add_goldenRatio_mul]

namespace Encloses

/-- Comparing the probes compares the merit at the inner points. -/
theorem merit_le_iff (hmerit : MeritAlong k s merit b) (h : br.Encloses k s b p l u) :
    br.left.merit ≤ br.right.merit ↔ merit (lowerPoint l u) ≤ merit (upperPoint l u) := by
  have hinside := Set.Ioo_subset_Ioo h.nonneg h.le
  rw [hmerit.merit_eq h.left_at h.left_eq (hinside (lowerPoint_mem h.lt)),
    hmerit.merit_eq h.right_at h.right_eq (hinside (upperPoint_mem h.lt))]

/-- The part above the upper probe may be dropped if the lower probe is no worse. -/
theorem bottom_le (hvalley : Valley merit b p) (hmerit : MeritAlong k s merit b) (h : br.Encloses k s b p l u)
    (hle : br.left.merit ≤ br.right.merit) : min p b ≤ upperPoint l u := by
  rw [h.merit_le_iff hmerit] at hle
  have hlower := h.nonneg.trans (lowerPoint_mem h.lt).1.le
  have hupper := (upperPoint_mem h.lt).2.le.trans h.le
  exact (min_le_left p b).trans (hvalley.bottom_le hlower (lowerPoint_lt_upperPoint h.lt) hupper hle)

/-- The part below the lower probe may be dropped if it is worse. -/
theorem le_bottom (hvalley : Valley merit b p) (hmerit : MeritAlong k s merit b) (h : br.Encloses k s b p l u)
    (hle : ¬ br.left.merit ≤ br.right.merit) : lowerPoint l u ≤ min p b := by
  rw [h.merit_le_iff hmerit] at hle
  have hupper := (upperPoint_mem h.lt).2.le.trans h.le
  have hlower := (lowerPoint_mem h.lt).2.le.trans h.le
  exact le_min (hvalley.le_bottom (lowerPoint_lt_upperPoint h.lt) hupper hle) hlower

/-- One pass evaluates once and cuts the bracket in the golden ratio: the probe that is taken over is in golden position
in what is left. -/
theorem narrow (hvalley : Valley merit b p) (hmerit : MeritAlong k s merit b) (h : br.Encloses k s b p l u) :
    Tries (br.narrow k) s 1 fun br => ∃ l' u', br.Encloses k s b p l' u' ∧ u' - l' = φ⁻¹ * (u - l) := by
  have hlower := lowerPoint_mem h.lt
  have hupper := upperPoint_mem h.lt
  unfold Bracket.narrow
  split
  case isTrue hle =>
    have hb := hupper.2.le.trans h.le
    have hprobe := Set.Ioo_subset_Ioo h.nonneg hb (lowerPoint_mem hupper.1)
    rw [h.right_eq, h.lower, sub_goldenRatio_mul]
    refine (hmerit.probe_tries hprobe).map fun left hleft => ⟨l, upperPoint l u, ?_, by rw [upperPoint, add_sub_cancel_left]⟩
    exact {
      toGolden := .of_points hleft.1 (by rw [h.left_eq, upperPoint_upperPoint]) hleft.2 h.left_at
      nonneg := h.nonneg
      lt := hupper.1
      le := hb
      bottom := ⟨h.bottom.1, h.bottom_le hvalley hmerit hle⟩ }
  case isFalse hle =>
    have hzero := h.nonneg.trans hlower.1.le
    have hprobe := Set.Ioo_subset_Ioo hzero h.le (upperPoint_mem hlower.2)
    rw [h.left_eq, h.upper, add_goldenRatio_mul]
    refine (hmerit.probe_tries hprobe).map fun right hright => ⟨lowerPoint l u, u, ?_, by rw [lowerPoint, sub_sub_cancel]⟩
    exact {
      toGolden := .of_points (by rw [h.right_eq, lowerPoint_lowerPoint]) hright.1 h.right_at hright.2
      nonneg := hzero
      lt := hlower.2
      le := h.le
      bottom := ⟨h.le_bottom hvalley hmerit hle, h.bottom.2⟩ }

theorem narrowTimes (hvalley : Valley merit b p) (hmerit : MeritAlong k s merit b) (n : ℕ)
    (h : br.Encloses k s b p l u) :
    Tries (br.narrowTimes k n) s n fun br => ∃ l' u', br.Encloses k s b p l' u' ∧ u' - l' = φ⁻¹ ^ n * (u - l) := by
  induction n generalizing br l u with
  | zero => exact tries_pure ⟨l, u, h, by rw [pow_zero, one_mul]⟩
  | succ n ih =>
    refine tries_bind (h.narrow hvalley hmerit) ?_
    rintro br ⟨l', u', hbr, hwidth⟩
    rw [pow_succ, mul_assoc, ← hwidth]
    exact ih hbr

/-- The better probe is as near to the bottom as the bracket would be wide after two more passes. -/
theorem best (hvalley : Valley merit b p) (hmerit : MeritAlong k s merit b) (h : br.Encloses k s b p l u) :
    br.best.At k s ∧ ∃ α ∈ Set.Ioo 0 b, br.best.alpha = real α ∧ |α - min p b| ≤ φ⁻¹ ^ 2 * (u - l) := by
  have hinside := Set.Ioo_subset_Ioo h.nonneg h.le
  unfold Bracket.best
  split
  case isTrue hle =>
    refine ⟨h.left_at, lowerPoint l u, hinside (lowerPoint_mem h.lt), h.left_eq, ?_⟩
    exact abs_lowerPoint_sub_le h.lt h.bottom.1 (h.bottom_le hvalley hmerit hle)
  case isFalse hle =>
    refine ⟨h.right_at, upperPoint l u, hinside (upperPoint_mem h.lt), h.right_eq, ?_⟩
    exact abs_upperPoint_sub_le h.lt (h.le_bottom hvalley hmerit hle) h.bottom.2

end Encloses
end Bracket

/-! ### Searches -/

theorem bracketAfter_encloses (hvalley : Valley merit b p) (hmerit : MeritAlong k s merit b) (hb : 0 < b) (n : ℕ) :
    Tries (bracketAfter k (real b) n) s (n + 2) fun br =>
      ∃ l u, br.Encloses k s b p l u ∧ u - l = φ⁻¹ ^ n * b := by
  unfold bracketAfter
  rw [zero_eq, sub_goldenRatio_mul, add_goldenRatio_mul]
  change Tries _ s (n + 1 + 1) _
  refine tries_bind (hmerit.probe_tries (lowerPoint_mem hb)) fun left hleft => ?_
  refine tries_bind (hmerit.probe_tries (upperPoint_mem hb)) fun right hright => ?_
  have hfirst : Bracket.Encloses k s b p 0 b ⟨real 0, real b, left, right⟩ := {
    toGolden := .of_points hleft.1 hright.1 hleft.2 hright.2
    nonneg := le_rfl
    lt := hb
    le := le_rfl
    bottom := ⟨le_min hvalley.nonneg hb.le, min_le_right p b⟩ }
  have htries := hfirst.narrowTimes hvalley hmerit n
  rwa [sub_zero] at htries

theorem goldenSection_near (hvalley : Valley merit b p) (hmerit : MeritAlong k s merit b) (hb : 0 < b) (n : ℕ) :
    Tries (goldenSection k (n + 2) (real b)) s (n + 2) fun r => r.2 = n + 2 ∧ r.1.At k s ∧
      ∃ α ∈ Set.Ioo 0 b, r.1.alpha = real α ∧ |α - min p b| ≤ φ⁻¹ ^ (n + 2) * b := by
  rw [goldenSection_eq (Nat.le_add_left 2 n) le_rfl, Nat.add_sub_cancel, Nat.sub_self]
  simp only [Bracket.narrowTimes, pure_bind]
  refine (bracketAfter_encloses hvalley hmerit hb n).map ?_
  rintro br ⟨l, u, hbr, hwidth⟩
  obtain ⟨hat, α, hα, halpha, hnear⟩ := hbr.best hvalley hmerit
  refine ⟨rfl, hat, α, hα, halpha, ?_⟩
  calc |α - min p b| ≤ φ⁻¹ ^ 2 * (φ⁻¹ ^ n * b) := hwidth ▸ hnear
    _ = φ⁻¹ ^ (n + 2) * b := by ring

/-- Golden-section search up to `b`, with `n` evaluations, on a merit with one valley. The search passes through the
brackets after any number of passes, which enclose the bottom, in golden position, and it answers with a probe near the
bottom. -/
theorem goldenSection_converges (hvalley : Valley merit b p) (hmerit : MeritAlong k s merit b) (hb : 0 < b) {n : ℕ}
    (hn : 2 ≤ n) :
    (∀ i ≤ n - 2,
      (goldenSection k n (real b) = do
        let br ← bracketAfter k (real b) i
        let br ← br.narrowTimes k (n - 2 - i)
        return (br.best, n)) ∧
      Tries (bracketAfter k (real b) i) s (i + 2) fun br =>
        ∃ l u, br.Encloses k s b p l u ∧ u - l = φ⁻¹ ^ i * b) ∧
    Tries (goldenSection k n (real b)) s n fun r => r.2 = n ∧ r.1.At k s ∧
      ∃ α ∈ Set.Ioo 0 b, r.1.alpha = real α ∧ |α - min p b| ≤ φ⁻¹ ^ n * b := by
  obtain ⟨n, rfl⟩ := Nat.exists_eq_add_of_le' hn
  refine ⟨fun i hi => ?_, goldenSection_near hvalley hmerit hb n⟩
  exact ⟨goldenSection_eq hn hi _, bracketAfter_encloses hvalley hmerit hb i⟩

/-! ### The half square behind its barrier -/

theorem halfSquare_sub_log_lt_of_one_le {x y : ℝ} (hx : 1 ≤ x) (hxy : x < y) :
    x * x / 2 - Real.log x < y * y / 2 - Real.log y := by
  have hpos : 0 < x := by linarith
  have hlog : Real.log y - Real.log x ≤ (y - x) / x := by
    rw [← Real.log_div (by linarith) hpos.ne', sub_div, div_self hpos.ne']
    exact Real.log_le_sub_one_of_pos (div_pos (by linarith) hpos)
  have hdiv : (y - x) / x ≤ y - x := div_le_self (by linarith) hx
  nlinarith

theorem halfSquare_sub_log_lt_of_le_one {x y : ℝ} (hx : 0 < x) (hxy : x < y) (hy : y ≤ 1) :
    y * y / 2 - Real.log y < x * x / 2 - Real.log x := by
  have hpos : 0 < y := by linarith
  have hlog : (y - x) / y ≤ Real.log y - Real.log x := by
    rw [← Real.log_div hpos.ne' hx.ne', sub_div, div_self hpos.ne', ← inv_div]
    exact Real.one_sub_inv_le_log_of_pos (div_pos hpos hx)
  have hdiv : y - x ≤ (y - x) / y := le_div_self (by linarith) hpos hy
  nlinarith

/-- The merit of the half square behind the barrier of the half line, from two downwards: least at one, and infinite from the
boundary on. -/
noncomputable def fallingMerit (r : ℝ) : Exact ε :=
  if 0 < 2 - r then real ((2 - r) * (2 - r) / 2 - Real.log (2 - r)) else infinite false

theorem valley_fallingMerit : Valley (fallingMerit (ε := ε)) 3 1 where
  nonneg := zero_le_one
  falls x y _ hxy hy _ := by
    unfold fallingMerit
    rw [if_pos (by linarith), if_pos (by linarith)]
    exact halfSquare_sub_log_lt_of_one_le (by linarith) (by linarith)
  rises x y hx hxy _ := by
    unfold fallingMerit
    by_cases hy : 0 < 2 - y
    · rw [if_pos hy, if_pos (by linarith)]
      exact .inl (halfSquare_sub_log_lt_of_le_one hy (by linarith) (by linarith))
    · rw [if_neg hy]
      split
      · exact .inl (real_lt_infinite.mpr rfl)
      · exact .inr ⟨rfl, rfl⟩

theorem meritAlong_leastHalfSquare (hk : k.problem = .leastHalfSquare) (hx : s.x = [real 2])
    (hdirection : s.direction = [real (-1)]) (hmu : s.mu = 1) (b : ℝ) : MeritAlong k s fallingMerit b := by
  intro r _
  have hpoint : 2 + r * -1 = 2 - r := by ring
  rw [hk, hx, hdirection, hmu]
  refine ⟨⟨[real (2 + r * -1)], Scalar.half * (0 + real (2 + r * -1) * real (2 + r * -1)), [], [real (2 + r * -1)]⟩,
    rfl, ?_⟩
  unfold Trial.probeMerit Trial.barrier Barrier.objective Vec.logBarrier fallingMerit
  rw [hpoint]
  by_cases hr : 0 < 2 - r
  · have hall : ([real (2 - r)] : Vec (Exact ε)).all (fun u => decide (0 < u)) = true := by
      simp [real_lt.mpr hr]
    rw [if_pos hr, hall]
    simp [Vec.sum, ln_real hr, div_eq_inv_mul]
  · have hall : ([real (2 - r)] : Vec (Exact ε)).all (fun u => decide (0 < u)) = false := by
      simpa using hr
    rw [if_neg hr, hall]
    rfl

theorem goldenSection_converges_leastHalfSquare :
    let k : Setup (Exact ⟨1, Set.mem_Ioi.mpr one_pos⟩) := ⟨.default, .leastHalfSquare, .passive, 1⟩
    let s : State (Exact ⟨1, Set.mem_Ioi.mpr one_pos⟩) := { State.new [real 2] with direction := [real (-1)], mu := 1 }
    let merit : ℝ → Exact ⟨1, Set.mem_Ioi.mpr one_pos⟩ := fallingMerit
    Valley merit 3 1 ∧ MeritAlong k s merit 3 ∧
      Tries (goldenSection k 20 (real 3)) s 20 fun r => r.2 = 20 ∧ r.1.At k s ∧
        ∃ α ∈ Set.Ioo 0 3, r.1.alpha = real α ∧ |α - 1| ≤ φ⁻¹ ^ 20 * 3 := by
  intro k s merit
  have hmerit : MeritAlong k s merit 3 := meritAlong_leastHalfSquare rfl rfl rfl rfl 3
  have hsearch := (goldenSection_converges valley_fallingMerit hmerit three_pos (by omega : 2 ≤ 20)).2
  rw [min_eq_left (by norm_num)] at hsearch
  exact ⟨valley_fallingMerit, hmerit, hsearch⟩

end LineSearch
end ConstrainedOpt
