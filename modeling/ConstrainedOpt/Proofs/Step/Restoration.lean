import ConstrainedOpt.Proofs.Sizes.Solvers
import ConstrainedOpt.Proofs.Step.Cauchy
import ConstrainedOpt.Proofs.Step.Quasinormal
import ConstrainedOpt.Proofs.Step.Stability

/-! # What a quasinormal step promises

With a linear map and a safeguard that keeps a part of the slack the exits of a solve are told apart exactly. A step restores
feasibility at least as well as the part of the Cauchy point that the bounds admit, and its reason says which bound it ends on,
or which point it is.
-/
namespace ConstrainedOpt.Quasinormal
open Exact Journaled Metric
variable {ε : Set.Ioi (0 : ℝ)} {n m l : ℕ} {A : Operator (Exact ε)} {L : Euclidean n →ₗ[ℝ] Euclidean m}
  {g : Euclidean m} {sg : Safeguard (Exact ε)} {J : Euclidean n →ₗ[ℝ] Euclidean l} {h : Euclidean l}
  {safe : Set (Euclidean n)} {κ δ ζ radius ρ : ℝ} {k : Context (Exact ε)} {x p s c : Euclidean n}
  {par : QuasinormalParam (Exact ε)} {newton : Option (Euclidean n)} {stop : QuasinormalStop}

/-! ### The Cauchy point -/

section IsCauchy
variable (hc : IsCauchy L g c ρ)
include hc

theorem IsCauchy.norm_sq_self : ‖g + L c‖ ^ 2 = ‖g‖ ^ 2 - ρ := by
  have hone := hc.norm_sq 1
  rw [one_smul] at hone
  linarith

theorem IsCauchy.ne_zero : c ≠ 0 := by
  rintro rfl
  have hsq := hc.norm_sq_self
  rw [map_zero, add_zero] at hsq
  linarith [hc.pos]

end IsCauchy

/-! ### Where the exits end -/

/-- The safeguard that measures cuts a path at the largest safe fraction. -/
theorem Follows.greatest {b : Option Bound} {θ : ℝ} (hsg : sg.Measures safe) (hx : x ∈ safe)
    (h : Follows sg safe radius x p b θ) :
    ∃ t u, IsGreatest (fractions (closedBall 0 radius) x p) t ∧ IsGreatest (fractions safe x p) u ∧ Cuts t u b θ := by
  obtain ⟨t, u, ht, -, ⟨call, hreturns⟩, hcuts⟩ := h
  obtain ⟨u', hu', hgreatest⟩ := hreturns.ensured (hsg call x p hx)
  rw [← real_inj.mp hu'] at hgreatest
  exact ⟨t, u, ht, hgreatest, hcuts⟩

/-- The path of a label, when the Cauchy point is `c` and `newton` the Newton point. -/
inductive Path.Leads (c : Euclidean n) : Path → Option (Euclidean n) → Euclidean n → Euclidean n → Prop
  | cauchy : Leads c .cauchy none 0 c
  | dogleg (p : Euclidean n) : Leads c .dogleg (some p) c (p - c)
  | newton (p : Euclidean n) : Leads c .newton (some p) 0 p

theorem Path.stop_inj {path path' : Path} {b b' : Bound} (h : path.stop b = path'.stop b') : path = path' ∧ b = b' := by
  cases path <;> cases b <;> cases path' <;> cases b' <;> first | exact ⟨rfl, rfl⟩ | cases h

theorem Path.stop_ne (path : Path) (b : Bound) :
    path.stop b ≠ .newton ∧ path.stop b ≠ .cauchySolved ∧ path.stop b ≠ .skipped := by
  cases path <;> cases b <;> exact ⟨nofun, nofun, nofun⟩

theorem Path.reason_eq {path path' : Path} {b : Option Bound} {b' : Bound} (h : path.reason b = path'.stop b') :
    path = path' ∧ b = some b' := by
  cases b with
  | none => exact absurd h.symm (path'.stop_ne b').1
  | some b =>
    obtain ⟨hpath, hb⟩ := Path.stop_inj h
    exact ⟨hpath, congrArg some hb⟩

theorem Path.reason_ne (path : Path) (b : Option Bound) :
    path.reason b ≠ .cauchySolved ∧ path.reason b ≠ .skipped := by
  cases b with
  | none => exact ⟨nofun, nofun⟩
  | some b => exact (path.stop_ne b).2

theorem Follows.whole {θ : ℝ} (h : Follows sg safe radius x p none θ) : θ = 1 := by
  obtain ⟨t, u, -, -, -, hcuts⟩ := h
  cases hcuts
  rfl

/-- A step that a bound is the reason of ends where the bound cuts the path of its label. -/
theorem Exit.of_stop (hk : Opens k safe radius c) {path : Path} {b : Bound}
    (hexit : Exit par k safe radius c newton s (path.stop b)) :
    ∃ x d θ, path.Leads c newton x d ∧ x ∈ safe ∧ Follows k.safeguard safe radius x d (some b) θ ∧ s = x + θ • d := by
  generalize hstop : path.stop b = stop at hexit
  cases hexit with
  | cut hcut =>
    obtain ⟨rfl, rfl⟩ := Path.stop_inj hstop
    exact ⟨0, c, _, .cauchy, hk.zero.safe, hcut, (zero_add _).symm⟩
  | settled | fallback => exact absurd hstop (path.stop_ne b).2.1
  | newton => exact absurd hstop (path.stop_ne b).1
  | dogleg htries hleg =>
    obtain ⟨rfl, rfl⟩ := Path.reason_eq hstop.symm
    exact ⟨_, _, _, .dogleg _, (htries.whole.within_end hk.guards hk.zero).safe, hleg, rfl⟩
  | part _ _ _ hpart =>
    obtain ⟨rfl, rfl⟩ := Path.reason_eq hstop.symm
    exact ⟨0, _, _, .newton _, hk.zero.safe, hpart, (zero_add _).symm⟩

/-- A step labelled as the Newton point is it, and does not lose against the Cauchy point. -/
theorem Exit.of_newton (hexit : Exit par k safe radius c newton s .newton) : newton = some s ∧ Accepts k s := by
  generalize hstop : QuasinormalStop.newton = stop at hexit
  cases hexit with
  | cut => exact absurd hstop.symm (Path.stop_ne _ _).1
  | settled | fallback => cases hstop
  | newton _ _ _ haccepts => exact ⟨rfl, haccepts⟩
  | @dogleg p b θ htries hleg haccepts =>
    refine ⟨?_, haccepts⟩
    cases b with
    | some b => exact absurd hstop.symm (Path.stop_ne _ _).1
    | none => rw [hleg.whole, one_smul, add_sub_cancel]
  | @part p b b' θ θ' htries hleg hrejects hpart haccepts =>
    refine ⟨?_, haccepts⟩
    cases b with
    | some b => exact absurd hstop.symm (Path.stop_ne _ _).1
    | none => rw [hpart.whole, one_smul]

theorem Exit.of_solved (hexit : Exit par k safe radius c newton s .cauchySolved) : s = c := by
  generalize hstop : QuasinormalStop.cauchySolved = stop at hexit
  cases hexit with
  | cut => exact absurd hstop.symm (Path.stop_ne _ _).2.1
  | settled | fallback => rfl
  | newton => cases hstop
  | dogleg | part => exact absurd hstop.symm (Path.reason_ne _ _).1

theorem Exit.ne_skipped (hexit : Exit par k safe radius c newton s stop) : stop ≠ .skipped := by
  cases hexit with
  | cut => exact (Path.stop_ne _ _).2.2
  | settled | newton | fallback => nofun
  | dogleg | part => exact (Path.reason_ne _ _).2

theorem Exit.tries (hexit : Exit par k safe radius c (some p) s stop) : Tries par k safe radius c p := by
  cases hexit with
  | newton htries | dogleg htries | part htries | fallback htries => exact htries

/-! ### Paths that are cut -/

section Measured
variable {b : Option Bound} {θ : ℝ} (hsg : sg.Measures safe) (hx : x ∈ safe)
  (hfollows : Follows sg safe radius x p b θ)
include hsg hx hfollows

/-- No fraction that both bounds admit is beyond the cut. -/
theorem Follows.last {t : ℝ} (hball : t ∈ fractions (closedBall 0 radius) x p) (hsafe : t ∈ fractions safe x p) : t ≤ θ := by
  obtain ⟨v, u, ht, hu, hcuts⟩ := hfollows.greatest hsg hx
  cases hcuts with
  | safeguard => exact hu.2 hsafe
  | trustRegion => exact ht.2 hball
  | whole => exact hball.2.1

theorem Follows.eq_safeguard (htied : Tied (closedBall 0 radius) safe x p) : b = some .safeguard := by
  obtain ⟨v, u, ht, hu, hcuts⟩ := hfollows.greatest hsg hx
  obtain ⟨w, hw, hball, hsafe⟩ := htied
  obtain rfl := ht.unique hball
  obtain rfl := hu.unique hsafe
  cases hcuts with
  | safeguard => rfl
  | trustRegion _ htu => exact absurd htu (lt_irrefl _)
  | whole ht => exact absurd ht hw.ne

theorem Follows.eq_none (hball : ‖x + p‖ ≤ radius) (hsafe : x + p ∈ safe) : b = none := by
  obtain ⟨v, u, ht, hu, hcuts⟩ := hfollows.greatest hsg hx
  obtain rfl := ht.unique (isGreatest_one (mem_closedBall_zero_iff.mpr hball))
  obtain rfl := hu.unique (isGreatest_one hsafe)
  cases hcuts with
  | safeguard h1 | trustRegion h1 => exact absurd h1 (lt_irrefl _)
  | whole => rfl

end Measured

section Opens
variable (hk : Opens k safe radius c) (hsg : k.safeguard.Measures safe)
include hk hsg

theorem Exit.norm_eq {path : Path} (hexit : Exit par k safe radius c newton s (path.stop .trustRegion)) : ‖s‖ = radius := by
  obtain ⟨x, d, θ, -, hx, hfollows, rfl⟩ := hexit.of_stop hk
  obtain ⟨t, u, ht, -, hcuts⟩ := hfollows.greatest hsg hx
  cases hcuts with
  | trustRegion h1 => exact norm_eq_of_isGreatest ht h1

omit hk hsg in
theorem Exit.slack_eq (hk : Opens k (safeSteps J h κ) radius c) (hsg : k.safeguard.Measures (safeSteps J h κ)) {path : Path}
    (hexit : Exit par k (safeSteps J h κ) radius c newton s (path.stop .safeguard)) : ∃ i, κ * h i + J s i = 0 := by
  obtain ⟨x, d, θ, -, hx, hfollows, rfl⟩ := hexit.of_stop hk
  obtain ⟨t, u, -, hu, hcuts⟩ := hfollows.greatest hsg hx
  cases hcuts with
  | safeguard h1 => exact slack_eq_zero_of_isGreatest hu h1

theorem Exit.tied {path : Path} {b : Bound} (hexit : Exit par k safe radius c newton s (path.stop b)) :
    ∃ x d, path.Leads c newton x d ∧ (Tied (closedBall 0 radius) safe x d → b = .safeguard) := by
  obtain ⟨x, d, θ, hleads, hx, hfollows, rfl⟩ := hexit.of_stop hk
  exact ⟨x, d, hleads, fun htied => Option.some.inj (hfollows.eq_safeguard hsg hx htied)⟩

/-- Where both bounds cut the Cauchy point at the same fraction no other path is tried. -/
theorem Exit.tied_cauchy (hexit : Exit par k safe radius c newton s stop) (htied : Tied (closedBall 0 radius) safe 0 c) :
    stop = .cauchySafeguard := by
  have hcut : ∀ {b θ}, Follows k.safeguard safe radius 0 c b θ → b = some .safeguard := fun h =>
    h.eq_safeguard hsg hk.zero.safe htied
  cases hexit with
  | cut h =>
    cases hcut h
    rfl
  | settled h => cases hcut h
  | newton htries | dogleg htries | part htries | fallback htries => cases hcut htries.whole

/-- The Newton point is computed where the bounds admit the Cauchy point and it does not settle the matter. -/
theorem Exit.tries_iff (hexit : Exit par k safe radius c newton s stop) :
    (∃ p, newton = some p) ↔ ‖c‖ ≤ radius ∧ c ∈ safe ∧ ¬ Settles par k := by
  constructor
  · rintro ⟨p, rfl⟩
    have hc := hexit.tries.whole.within_end hk.guards hk.zero
    exact ⟨real_le.mp hc.norm, hc.safe, hexit.tries.unsettled⟩
  · rintro ⟨hball, hsafe, hunsettled⟩
    cases hexit with
    | cut hcut => cases hcut.eq_none hsg hk.zero.safe (by rwa [zero_add]) (by rwa [zero_add])
    | settled _ hsettles => exact absurd hsettles hunsettled
    | newton | dogleg | part | fallback => exact ⟨_, rfl⟩

end Opens

/-! ### Residuals -/

section Acts
variable (hA : k.A.Acts L) (hg : k.g = vec g) (hk : Opens k safe radius c)
include hA hg hk

theorem Opens.residual : k.cauchyResidual = real ‖g + L c‖ := by
  have hc := hk.cauchyResidual
  rw [hg] at hc
  exact hc.ensured (residual_ensures hA g c)

theorem Rejects.lt (h : Rejects k s) : ‖g + L c‖ < ‖g + L s‖ := by
  obtain ⟨a, ha, hle⟩ := h
  rw [hg] at ha
  rw [ha.ensured (residual_ensures hA g s), hk.residual hA hg, real_le] at hle
  exact not_le.mp hle

/-- A step on the way from the Cauchy point to the Newton point loses only if the Newton point does. -/
theorem Rejects.newton_lt {b : Option Bound} {θ : ℝ} (hleg : Follows k.safeguard safe radius c (p - c) b θ)
    (h : Rejects k (c + θ • (p - c))) : ‖g + L c‖ < ‖g + L p‖ := by
  by_contra hle
  have hp : ‖g + L c + L (p - c)‖ ≤ ‖g + L c‖ := by
    rw [add_assoc, ← map_add, add_sub_cancel]
    exact not_lt.mp hle
  have hway := Sphere.norm_add_smul_le le_rfl hp hleg.fraction.1 hleg.fraction.2
  rw [add_assoc, ← map_smul, ← map_add] at hway
  exact absurd (h.lt hA hg hk) (not_lt.mpr hway)

theorem Exit.newton_lt (hexit : Exit par k safe radius c (some p) s stop)
    (hstop : (∃ b, stop = Path.newton.stop b) ∨ stop = .cauchySolved) : ‖g + L c‖ < ‖g + L p‖ := by
  cases hexit with
  | newton =>
    rcases hstop with ⟨b, hb⟩ | hb
    · exact absurd hb.symm (Path.stop_ne _ b).1
    · cases hb
  | dogleg =>
    rcases hstop with ⟨b, hb⟩ | hb
    · cases (Path.reason_eq hb).1
    · exact absurd hb (Path.reason_ne _ _).1
  | part _ hleg hrejects => exact hrejects.newton_lt hA hg hk hleg
  | fallback _ hleg hrejects => exact hrejects.newton_lt hA hg hk hleg

end Acts

/-! ### Promises of a solve -/

/-- What the reason says of the step `s`, of the Cauchy point `c` and of the Newton point if one was computed. -/
structure Explains (par : QuasinormalParam (Exact ε)) (L : Euclidean n →ₗ[ℝ] Euclidean m) (g : Euclidean m)
    (J : Euclidean n →ₗ[ℝ] Euclidean l) (h : Euclidean l) (κ radius : ℝ) (newton : Option (Euclidean n))
    (s c : Euclidean n) (stop : QuasinormalStop) : Prop where
  trustRegion : ∀ path : Path, stop = path.stop .trustRegion → ‖s‖ = radius
  safeguard : ∀ path : Path, stop = path.stop .safeguard → ∃ i, κ * h i + J s i = 0
  newton_eq : stop = .newton → newton = some s ∧ ‖g + L s‖ ≤ ‖g + L c‖
  solved : stop = .cauchySolved → s = c
  skipped : stop = .skipped ↔ m = 0
  /-- Where both bounds cut the path of the label at the same fraction it is that of the safeguard. -/
  tied : ∀ (path : Path) b, stop = path.stop b → ∃ x d, path.Leads c newton x d ∧
    (Tied (closedBall 0 radius) (safeSteps J h κ) x d → b = .safeguard)
  tied_cauchy : Tied (closedBall 0 radius) (safeSteps J h κ) 0 c → stop = .cauchySafeguard
  tries : (∃ p, newton = some p) ↔ c ≠ 0 ∧ ‖c‖ ≤ radius ∧ c ∈ safeSteps J h κ ∧
    ¬(real ‖g + L c‖ ≤ par.epsSolved * real ‖g‖ ∨ par.newton = false)
  /-- Past the dogleg the Newton point has lost against the Cauchy point. -/
  newton_lt : (∃ b, stop = Path.newton.stop b) ∨ stop = .cauchySolved → ∀ p, newton = some p → ‖g + L c‖ < ‖g + L p‖

/-- The path that stays at zero is not cut. -/
theorem not_tied_zero (hzero : Within (safeSteps J h κ) (real radius : Exact ε) 0) :
    ¬ Tied (closedBall 0 radius) (safeSteps J h κ) 0 0 := by
  rintro ⟨t, ht, hball, -⟩
  have hmem : (0 : Euclidean n) + 0 ∈ closedBall (0 : Euclidean n) radius := by
    rw [add_zero]
    exact mem_closedBall_zero_iff.mpr (real_le.mp hzero.norm)
  exact absurd (hball.unique (isGreatest_one hmem)) ht.ne

/-- Where a solve stays at zero no bound is blamed. -/
theorem Explains.zero (hzero : Within (safeSteps J h κ) (real radius : Exact ε) 0)
    (hbound : ∀ (path : Path) b, stop ≠ path.stop b) (hnewton : stop ≠ .newton) (hskipped : stop = .skipped ↔ m = 0) :
    Explains par L g J h κ radius none (0 : Euclidean n) 0 stop where
  trustRegion path hstop := absurd hstop (hbound path _)
  safeguard path hstop := absurd hstop (hbound path _)
  newton_eq hstop := absurd hstop hnewton
  solved _ := rfl
  skipped := hskipped
  tied path b hstop := absurd hstop (hbound path b)
  tied_cauchy htied := absurd htied (not_tied_zero hzero)
  tries := ⟨nofun, fun hc => absurd rfl hc.1⟩
  newton_lt _ := nofun

theorem Exit.explains (hA : k.A.Acts L) (hg : k.g = vec g) (hk : Opens k (safeSteps J h κ) radius c)
    (hsg : k.safeguard.Measures (safeSteps J h κ)) (hc : IsCauchy L g c ρ) (hm : m ≠ 0)
    (hexit : Exit par k (safeSteps J h κ) radius c newton s stop) : Explains par L g J h κ radius newton s c stop where
  trustRegion path hstop := by
    subst hstop
    exact hexit.norm_eq hk hsg
  safeguard path hstop := by
    subst hstop
    exact hexit.slack_eq hk hsg
  newton_eq hstop := by
    subst hstop
    exact hexit.of_newton.imp_right fun haccepts => haccepts.le hA hg hk
  solved hstop := by
    subst hstop
    exact hexit.of_solved
  skipped := ⟨fun hstop => absurd hstop hexit.ne_skipped, fun h => absurd h hm⟩
  tied path b hstop := by
    subst hstop
    exact hexit.tied hk hsg
  tied_cauchy := hexit.tied_cauchy hk hsg
  tries := by
    have htries := hexit.tries_iff hk hsg
    unfold Settles at htries
    rw [hk.residual hA hg, hg, norm_vec] at htries
    exact htries.trans (and_iff_right hc.ne_zero).symm
  newton_lt hstop p hp := by
    subst hp
    exact hexit.newton_lt hA hg hk hstop

section Ends
variable {report : QuasinormalReport (Exact ε)} (hA : A.Acts L) (hsg : sg.Measures (safeSteps J h κ))
  (hzero : Within (safeSteps J h κ) (real radius : Exact ε) 0)
  (hends : Ends par A (vec g) sg (safeSteps J h κ) radius newton s c report)
include hends

theorem Ends.isNewton (p : Euclidean n) (hp : newton = some p) : IsNewton par A (vec g) p := by
  cases hends with
  | skipped | stationary => cases hp
  | started _ _ _ _ _ hexit =>
    subst hp
    exact hexit.tries.newton

include hA

theorem Ends.residual : report.residual = real ‖g + L s‖ := by
  cases hends with
  | skipped hrows =>
    obtain rfl : m = 0 := hA.rows.symm.trans hrows
    rw [Subsingleton.elim (g + L 0) 0, norm_zero]
    rfl
  | stationary => rw [map_zero, add_zero, ← norm_vec]
  | started _ _ _ _ _ _ hresidual => exact hresidual.ensured (residual_ensures hA g s)

include hsg hzero

theorem Ends.explains : Explains par L g J h κ radius newton s c report.stop := by
  cases hends with
  | skipped hrows =>
    have hm : m = 0 := hA.rows.symm.trans hrows
    exact .zero hzero (fun path b => (path.stop_ne b).2.2.symm) nofun ⟨fun _ => hm, fun _ => rfl⟩
  | stationary hrows =>
    have hm : m ≠ 0 := fun hm => hrows (hA.rows.trans hm)
    exact .zero hzero (fun path b => (path.stop_ne b).2.1.symm) nofun ⟨nofun, fun h => absurd h hm⟩
  | started hrows hslopes hsteep hcauchy hopens hexit =>
    obtain ⟨ρ, hc⟩ := hslopes.isCauchy hA hsteep hcauchy
    exact hexit.explains hA rfl hopens hsg hc fun hm => hrows (hA.rows.trans hm)

end Ends

/-- A solve over the reals of the right sizes finds a step. -/
theorem solve_finds (hA : A.Acts L) (hfills : A.Fills m n) (hsg : sg.Fills n) (heps : Nonneg par.normalEq.epsRel)
    (g : Euclidean m) (δ : Exact ε) {step cauchy : Vec (Exact ε)} (hstep : step.length = n) (hcauchy : cauchy.length = n)
    {work : ℕ} (hwork : workLength m n ≤ work) :
    (solve par A (vec g) δ sg step cauchy work).Yields fun r => ∃ report, r.outcome = .ok report := by
  have hsized : (solve par A (vec g) δ sg step cauchy work).Yields fun r => r.Sized n :=
    solve_sized hfills length_vec hsg δ hstep hcauchy hwork
  refine (hsized.and (solve_outcome hA heps g sg δ step cauchy work)).mono ?_
  rintro r ⟨hr, hstable⟩
  cases hout : r.outcome with
  | ok report => exact ⟨report, rfl⟩
  | error e =>
    obtain rfl := hr.outcome e hout
    exact absurd hout hstable

/-- A solve over the reals: its operator acts as a map, and its safeguard keeps a part `κ` of a slack that is not negative,
within the fraction `ζ` of a radius. -/
structure Linear (par : QuasinormalParam (Exact ε)) (A : Operator (Exact ε)) (sg : Safeguard (Exact ε))
    (L : Euclidean n →ₗ[ℝ] Euclidean m) (J : Euclidean n →ₗ[ℝ] Euclidean l) (h : Euclidean l) (κ δ ζ : ℝ) : Prop where
  operator : A.Acts L
  safeguard : sg.Keeps J h κ
  slack : ∀ i, 0 ≤ h i
  part : 0 ≤ κ
  radius : 0 ≤ δ
  zeta : par.zeta = real ζ
  fraction : 0 ≤ ζ

section Linear
variable (hlinear : Linear par A sg L J h κ δ ζ)
include hlinear

theorem Linear.measures : sg.Measures (safeSteps J h κ) := hlinear.safeguard.measures hlinear.part

theorem Linear.zero : Within (safeSteps J h κ) (real (ζ * δ) : Exact ε) 0 := by
  refine ⟨?_, zero_mem_safeSteps hlinear.slack hlinear.part⟩
  rw [norm_zero]
  exact real_le.mpr (mul_nonneg hlinear.fraction hlinear.radius)

theorem Linear.ends (g : Euclidean m) (step cauchy : Vec (Exact ε)) (work : ℕ) :
    (solve par A (vec g) (real δ) sg step cauchy work).Ensures
      (Leaves (Ends par A (vec g) sg (safeSteps J h κ) (ζ * δ))) :=
  solve_ends hlinear.operator.pulls (hlinear.safeguard.guards hlinear.part) hlinear.zero hlinear.zeta (vec g) step cauchy work

end Linear

/-- A safeguard that leaves half of a slack of one in both components. -/
noncomputable def halfSlack : Safeguard (Exact ε) :=
  ⟨fun _ base d => Safeguard.linearFraction (.identity 2) (vec (WithLp.toLp 2 fun _ => 1 : Euclidean 2)) (real (1 / 2)) base d⟩

/-- Half of the trust region and half of the slack, with the default parameters otherwise. -/
noncomputable def halfParam : QuasinormalParam (Exact ε) := { QuasinormalParam.default with zeta := real (1 / 2) }

theorem halfSlack_linear : Linear (halfParam : QuasinormalParam (Exact ε)) (.identity 2) halfSlack
    (LinearMap.id : Euclidean 2 →ₗ[ℝ] Euclidean 2) (LinearMap.id : Euclidean 2 →ₗ[ℝ] Euclidean 2)
    (WithLp.toLp 2 fun _ => 1) (1 / 2) 1 (1 / 2) where
  operator := Operator.identity_acts 2
  safeguard := .inr ⟨.identity 2, Operator.identity_acts 2, Safeguard.isLinear _ length_vec⟩
  slack _ := zero_le_one
  part := by norm_num
  radius := zero_le_one
  zeta := rfl
  fraction := by norm_num

theorem halfSlack_finds (g : Euclidean 2) :
    (solve (halfParam : QuasinormalParam (Exact ε)) (.identity 2) (vec g) (real 1) halfSlack (Vec.zeros 2) (Vec.zeros 2)
      (workLength 2 2)).Yields fun r => ∃ report, r.outcome = .ok report := by
  have hfills : (halfSlack : Safeguard (Exact ε)).Fills 2 := fun _ _ _ hbase hd =>
    Safeguard.linearFraction_answers (Operator.identity_fills 2) length_vec _ hbase hd
  have heps : Nonneg (halfParam : QuasinormalParam (Exact ε)).normalEq.epsRel := ⟨_, rfl, by norm_num⟩
  exact solve_finds (Operator.identity_acts 2) (Operator.identity_fills 2) hfills heps g _ (Vec.length_zeros 2)
    (Vec.length_zeros 2) le_rfl

/-- The reason of a solve without an error is true of its step. -/
theorem solve_explains (hlinear : Linear par A sg L J h κ δ ζ) (g : Euclidean m) (step cauchy : Vec (Exact ε)) (work : ℕ) :
    (solve par A (vec g) (real δ) sg step cauchy work).Ensures fun r => ∀ report, r.outcome = .ok report →
      ∃ (newton : Option (Euclidean n)) (s c : Euclidean n), r.step = vec s ∧ r.cauchy = vec c ∧
        (∀ p, newton = some p → IsNewton par A (vec g) p) ∧
        Explains par L g J h κ (ζ * δ) newton s c report.stop := by
  refine (hlinear.ends g step cauchy work).mono fun r hr report hreport => ?_
  obtain ⟨newton, s, c, hs, hc, hends⟩ := hr report hreport
  exact ⟨newton, s, c, hs, hc, hends.isNewton, hends.explains hlinear.operator hlinear.measures hlinear.zero⟩

theorem solve_explains_halfSlack :
    let par : QuasinormalParam (Exact ⟨1, Set.mem_Ioi.mpr one_pos⟩) := halfParam
    let slack : Euclidean 2 := WithLp.toLp 2 fun _ => 1
    let g : Euclidean 2 := EuclideanSpace.single 0 1
    Linear par (.identity 2) halfSlack (LinearMap.id : Euclidean 2 →ₗ[ℝ] Euclidean 2)
      (LinearMap.id : Euclidean 2 →ₗ[ℝ] Euclidean 2) slack (1 / 2) 1 (1 / 2) ∧
    (solve par (.identity 2) (vec g) (real 1) halfSlack (Vec.zeros 2) (Vec.zeros 2) (workLength 2 2)).Yields fun r =>
      ∃ report, r.outcome = .ok report ∧ ∃ (newton : Option (Euclidean 2)) (s c : Euclidean 2), r.step = vec s ∧
        r.cauchy = vec c ∧ (∀ p, newton = some p → IsNewton par (.identity 2) (vec g) p) ∧
        Explains par LinearMap.id g LinearMap.id slack (1 / 2) (1 / 2 * 1) newton s c report.stop := by
  intro par slack g
  have hlinear := halfSlack_linear (ε := ⟨1, Set.mem_Ioi.mpr one_pos⟩)
  refine ⟨hlinear, ?_⟩
  refine ((halfSlack_finds g).and (solve_explains hlinear g (Vec.zeros 2) (Vec.zeros 2) (workLength 2 2))).mono ?_
  rintro r ⟨⟨report, hreport⟩, hexplains⟩
  exact ⟨report, hreport, hexplains report hreport⟩

end ConstrainedOpt.Quasinormal
