import ConstrainedOpt.Proofs.Containment.Points
import ConstrainedOpt.Proofs.Globalization.Attempts

/-! # The radius, the penalty and the barrier parameter along runs

Once a run is initialised, every hook point finds a positive radius below its bound, a positive penalty, and a barrier
parameter that is zero without an inequality constraint and positive with one. From hook point to hook point the radius
changes by rejections and acceptances only, the penalty grows at least to its double, and the barrier parameter shrinks by
one factor, at the beginning of iterations at which the gradient is small against it.
-/
namespace ConstrainedOpt
open Exact Journaled Running
variable {ε : Set.Ioi (0 : ℝ)} {n m : ℕ} {k : Setup (Exact ε)} {s s₀ t u : State (Exact ε)} {h : Euclidean n → Euclidean m}
  {J : Euclidean n → Euclidean n →ₗ[ℝ] Euclidean m} {a b : Location × State (Exact ε)} {vs : Visits (Exact ε)}

/-- What a hook point finds of the radius, the penalty and the barrier parameter. -/
structure Setup.Admissible (k : Setup (Exact ε)) (s : State (Exact ε)) : Prop where
  radius : ∃ δ, s.delta = real δ ∧ 0 < δ ∧ real δ ≤ k.par.deltaMax
  penalty : 0 < s.rho
  unbarred : k.inequalities = 0 → s.mu = 0
  barrier : k.inequalities ≠ 0 → ∃ μ, s.mu = real μ ∧ 0 < μ ∧ (s.mu = k.par.mu ∨ k.par.epsMu * k.par.muReduce < s.mu)

/-- What becomes of the radius, the penalty and the barrier parameter from the hook point `a` to the next one, `b`. -/
structure Setup.Evolves (k : Setup (Exact ε)) (a b : Location × State (Exact ε)) : Prop where
  rejected : b.1 = .afterRejectedTrustRegion → b.2.delta ≤ Scalar.half * a.2.delta
  accepted : b.1 = .afterStepBeforeGradient →
    b.2.delta = a.2.delta ∨ b.2.delta = Scalar.minNum (Scalar.two * a.2.delta) k.par.deltaMax
  elsewhere : b.1 ≠ .afterRejectedTrustRegion → b.1 ≠ .afterStepBeforeGradient → b.2.delta = a.2.delta
  penalty : a.2.rho ≤ b.2.rho ∧ (b.2.rho = a.2.rho ∨ Scalar.two * a.2.rho ≤ b.2.rho)
  barrier : b.2.mu ≤ a.2.mu ∧ (b.2.mu = a.2.mu ∨ a.1 = .beginningOfOptimizationLoop ∧ k.par.epsMu < a.2.mu ∧
    Vec.norm a.2.grad ≤ k.par.epsMuGrad * a.2.mu ∧ b.2.mu = a.2.mu * k.par.muReduce)

theorem Setup.Admissible.of_eq (hs : k.Admissible s) (ht : t.globalization = s.globalization) : k.Admissible t := by
  have hdelta : t.delta = s.delta := congrArg Globalization.delta ht
  have hrho : t.rho = s.rho := congrArg Globalization.rho ht
  have hmu : t.mu = s.mu := congrArg Globalization.mu ht
  obtain ⟨hradius, hpenalty, hunbarred, hbarrier⟩ := hs
  rw [← hdelta] at hradius
  rw [← hrho] at hpenalty
  rw [← hmu] at hunbarred hbarrier
  exact ⟨hradius, hpenalty, hunbarred, hbarrier⟩

theorem Setup.Admissible.mu_le (hs : k.Admissible s) : s.mu ≤ s.mu := by
  by_cases h0 : k.inequalities = 0
  · rw [hs.unbarred h0]
    exact le_refl (0 : ℝ)
  · obtain ⟨μ, hμ, -⟩ := hs.barrier h0
    rw [hμ]
    exact le_refl μ

/-! ### Hops -/

/-- A hook point of an initialised run. -/
structure Setup.Regular (k : Setup (Exact ε)) (a : Location × State (Exact ε)) : Prop where
  begun : a.1 ≠ .beginningOfOptimization
  admissible : k.Admissible a.2

/-- What is regular stays regular, and evolves. -/
def Setup.Follows (k : Setup (Exact ε)) (a b : Location × State (Exact ε)) : Prop :=
  k.Regular a → k.Regular b ∧ k.Evolves a b

theorem Setup.Follows.of_eq (hbegun : b.1 ≠ .beginningOfOptimization) (hrejected : b.1 ≠ .afterRejectedTrustRegion)
    (hb : b.2.globalization = a.2.globalization) : k.Follows a b := by
  intro ha
  have hadmissible := ha.admissible
  have hdelta : b.2.delta = a.2.delta := congrArg Globalization.delta hb
  have hrho : b.2.rho = a.2.rho := congrArg Globalization.rho hb
  have hmu : b.2.mu = a.2.mu := congrArg Globalization.mu hb
  refine ⟨⟨hbegun, hadmissible.of_eq hb⟩, ?_⟩
  exact {
    rejected := fun h => absurd h hrejected
    accepted := fun _ => .inl hdelta
    elsewhere := fun _ _ => hdelta
    penalty := ⟨hrho.symm ▸ le_self_of_pos hadmissible.penalty, .inl hrho⟩
    barrier := ⟨hmu.symm ▸ hadmissible.mu_le, .inl hmu⟩ }

/-- A raised penalty is at least twice what it was. -/
theorem TrustRegion.Raised.doubles {rho : Exact ε} (hrho : Raised k s rho) (hs : 0 < s.rho) :
    s.rho ≤ rho ∧ (rho = s.rho ∨ Scalar.two * s.rho ≤ rho) := by
  obtain ⟨q, v, -, rfl⟩ := hrho
  unfold raisedPenalty
  split
  · have hle : Scalar.two * s.rho ≤ Scalar.maxNum (Scalar.two * s.rho) (Scalar.two * q / v) :=
      le_maxNum_left (two_mul_pos hs)
    exact ⟨le_of_two_mul_le hs hle, .inr hle⟩
  · exact ⟨le_self_of_pos hs, .inl rfl⟩

/-- The radius after a large reduction is still a positive one below the bound. -/
theorem TrustRegion.grown_le {δ : ℝ} (hδ : s.delta = real δ) (hδ0 : 0 < δ) (hmax : real δ ≤ k.par.deltaMax) :
    ∃ δ', Scalar.minNum (Scalar.two * s.delta) k.par.deltaMax = real δ' ∧ 0 < δ' ∧ real δ' ≤ k.par.deltaMax := by
  rw [hδ, two_eq, real_mul]
  rcases bound_cases hmax with hinf | ⟨D, hD, hle⟩
  · exact ⟨2 * δ, by rw [hinf, minNum_infinite], by positivity, hinf ▸ le_infinite⟩
  · refine ⟨min (2 * δ) D, by rw [hD, minNum_real], lt_min (by positivity) (hδ0.trans_le hle), ?_⟩
    rw [hD]
    exact min_le_right (2 * δ) D

theorem Setup.Follows.of_hop {A : Euclidean n →ₗ[ℝ] Euclidean m} {v : Euclidean m} {γ : ℝ}
    (hop : TrustRegion.Hop k A v γ a b) : k.Follows a b := by
  rintro ⟨hbegun, hadmissible⟩
  obtain ⟨δ, hδ, hδ0, hmax⟩ := hadmissible.radius
  -- Only a step that has been judged may have changed the radius or the penalty.
  by_cases hjudged : b.1 = .afterRejectedTrustRegion ∨ b.1 = .afterStepBeforeGradient
  case neg =>
    obtain ⟨hrejected, haccepted⟩ := not_or.mp hjudged
    exact Follows.of_eq hop.begun hrejected (hop.elsewhere hrejected haccepted) ⟨hbegun, hadmissible⟩
  obtain ⟨-, hready, hraised⟩ := hop.judged hjudged
  obtain ⟨hle, hdoubles⟩ := hraised.doubles hadmissible.penalty
  obtain ⟨w, -, hnorm, hw, -⟩ := hready.step δ hδ hδ0
  obtain ⟨δ', hshrunk, hδ'0, hδ'⟩ := TrustRegion.shrunk_le hδ hδ0 hnorm hw
  have hrejected : b.1 = .afterRejectedTrustRegion → b.2.delta = real δ' := fun hb => (hop.rejected hb).trans hshrunk
  have hradius : ∃ δ, b.2.delta = real δ ∧ 0 < δ ∧ real δ ≤ k.par.deltaMax := by
    rcases hjudged with hb | hb
    · refine ⟨δ', hrejected hb, hδ'0, ?_⟩
      rcases bound_cases hmax with hinf | ⟨D, hD, hD'⟩
      · exact hinf ▸ le_infinite
      · rw [hD]
        exact real_le.mpr (by linarith)
    · rcases (hop.accepted hb).2 with heq | ⟨heq, -⟩
      · exact ⟨δ, heq.trans hδ, hδ0, hmax⟩
      · obtain ⟨δ'', hgrown, hδ''⟩ := TrustRegion.grown_le hδ hδ0 hmax
        exact ⟨δ'', heq.trans hgrown, hδ''⟩
  refine ⟨⟨hop.begun, hradius, pos_of_le hadmissible.penalty hle, ?_, ?_⟩, ?_⟩
  · exact hop.mu ▸ hadmissible.unbarred
  · exact hop.mu ▸ hadmissible.barrier
  · exact {
      rejected := fun hb => by
        rw [hrejected hb, hδ, half_eq, real_mul]
        exact hδ'
      accepted := fun hb => (hop.accepted hb).2.imp_right And.left
      elsewhere := fun hr ha => (hjudged.elim hr ha).elim
      penalty := ⟨hle, hdoubles⟩
      barrier := ⟨hop.mu.symm ▸ hadmissible.mu_le, .inl hop.mu⟩ }

/-! ### The barrier parameter -/

/-- The barrier parameter is reduced while it is above its tolerance. -/
theorem Setup.Admissible.lowered (hk : k.parameterError? = none) (hs : k.Admissible s) (hdue : LowerDue k s) :
    k.Admissible (s.lowered k.par) ∧ (s.lowered k.par).mu ≤ s.mu ∧ k.par.epsMu < s.mu := by
  obtain ⟨hne, hmu, -⟩ := hdue
  obtain ⟨μ, hμ, hμ0, -⟩ := hs.barrier hne
  obtain ⟨θ, hθ, hθ0, hθ1⟩ := Setup.muReduce_real hk
  obtain ⟨e, he, heμ⟩ : ∃ e, k.par.epsMu = real e ∧ e < μ := by
    rcases bound_cases (Setup.epsMu_nonneg hk) with hinf | ⟨e, he, -⟩
    · rw [hμ, hinf] at hmu
      exact absurd le_infinite hmu
    · rw [hμ, he, real_le] at hmu
      exact ⟨e, he, not_le.mp hmu⟩
  have hlowered : (s.lowered k.par).mu = real (μ * θ) := by
    unfold State.lowered
    rw [hμ, hθ, real_mul]
  refine ⟨⟨hs.radius, hs.penalty, fun h0 => absurd h0 hne, fun _ => ⟨μ * θ, hlowered, by positivity, .inr ?_⟩⟩, ?_, ?_⟩
  · rw [hlowered, he, hθ, real_mul]
    exact mul_lt_mul_of_pos_right heμ hθ0
  · rw [hlowered, hμ]
    exact real_le.mpr (mul_le_of_le_one_right hμ0.le hθ1.le)
  · rw [he, hμ]
    exact heμ

/-- From the beginning of an iteration the barrier parameter may go down. -/
theorem Setup.Follows.of_lowered (hk : k.parameterError? = none) (hnorm : s.normGrad = Vec.norm s.grad)
    (hbegun : b.1 ≠ .beginningOfOptimization) (hrejected : b.1 ≠ .afterRejectedTrustRegion) (ht : Lowered k s t)
    (hb : b.2.globalization = t.globalization) : k.Follows (.beginningOfOptimizationLoop, s) b := by
  rcases ht with rfl | ⟨hdue, ht⟩
  · exact .of_eq hbegun hrejected hb
  · rintro ⟨-, hs⟩
    have hs : k.Admissible s := hs
    have ht : b.2.globalization = (s.lowered k.par).globalization := by
      cases ht with
      | sound => exact hb
      | failed ht => exact hb.trans ht.globalization
    have hdelta : b.2.delta = s.delta := congrArg Globalization.delta ht
    have hrho : b.2.rho = s.rho := congrArg Globalization.rho ht
    have hmu : b.2.mu = (s.lowered k.par).mu := congrArg Globalization.mu ht
    obtain ⟨hlowered, hle, htolerance⟩ := hs.lowered hk hdue
    refine ⟨⟨hbegun, hlowered.of_eq ht⟩, ?_⟩
    exact {
      rejected := fun h => absurd h hrejected
      accepted := fun _ => .inl hdelta
      elsewhere := fun _ _ => hdelta
      penalty := ⟨hrho.symm ▸ le_self_of_pos hs.penalty, .inl hrho⟩
      barrier := ⟨hmu.symm ▸ hle, .inr ⟨rfl, htolerance, hnorm ▸ hdue.2.2, hmu⟩⟩ }

/-! ### Trails of runs -/

/-- The visits so far begin with the initialisation, and each follows from the one before it, up to `a`. -/
structure Setup.Underway (k : Setup (Exact ε)) (s₀ : State (Exact ε)) (vs : Visits (Exact ε))
    (a : Location × State (Exact ε)) : Prop where
  opened : k.openingVisits s₀ <+: vs
  trail : Trail k.Follows vs a

theorem Setup.Underway.push (hvs : k.Underway s₀ vs a) (hab : k.Follows a b) : k.Underway s₀ (vs ++ [b]) b :=
  ⟨hvs.opened.trans (List.prefix_append _ _), hvs.trail.push hab⟩

theorem Setup.Regular.chain (ha : k.Regular a) (hvs : (a :: vs).IsChain k.Follows) :
    (∀ b ∈ a :: vs, k.Regular b) ∧ (a :: vs).IsChain k.Evolves := by
  induction vs generalizing a with
  | nil => exact ⟨fun b hb => List.mem_singleton.mp hb ▸ ha, List.isChain_singleton a⟩
  | cons b vs ih =>
    obtain ⟨hab, hvs⟩ := List.isChain_cons_cons.mp hvs
    obtain ⟨hb, hevolves⟩ := hab ha
    obtain ⟨hall, hchain⟩ := ih hb hvs
    exact ⟨List.forall_mem_cons.mpr ⟨ha, hall⟩, List.isChain_cons_cons.mpr ⟨hevolves, hchain⟩⟩

/-- What the visits of a run show, if each follows from the one before it. -/
theorem Setup.globalizes_of_follows (hprepared : k.Admissible (k.prepare s₀)) (hopened : k.openingVisits s₀ <+: vs)
    (hvs : vs.IsChain k.Follows) :
    ∃ rest, vs = (.beginningOfOptimization, s₀) :: rest ∧ (∀ v ∈ rest, k.Regular v) ∧ rest.IsChain k.Evolves := by
  obtain ⟨rest, rfl⟩ := hopened
  have hfirst : k.Regular (.beforeInitialFuncAndGrad, k.prepare s₀) := ⟨nofun, hprepared⟩
  obtain ⟨hall, hchain⟩ := hfirst.chain (List.isChain_cons_cons.mp hvs).2
  exact ⟨_, rfl, hall, hchain⟩

theorem Setup.Underway.regular (hprepared : k.Admissible (k.prepare s₀)) (hvs : k.Underway s₀ vs a) : k.Regular a := by
  obtain ⟨rest, rfl, hall, -⟩ := globalizes_of_follows hprepared hvs.opened hvs.trail.chain
  obtain ⟨tail, htail⟩ := hvs.opened
  obtain rfl : (.beforeInitialFuncAndGrad, k.prepare s₀) :: tail = rest := List.cons_inj_right _ |>.mp htail
  exact hall a (List.mem_of_getLast? (List.getLast?_cons_cons ▸ hvs.trail.last))

/-- The parameters a run starts with. -/
theorem Setup.prepare_admissible {δ μ : ℝ} (hk : k.parameterError? = none) (hδ : k.par.delta = real δ)
    (hμ : k.par.mu = real μ) : k.Admissible (k.prepare s₀) where
  radius := ⟨δ, hδ, radius_pos hk hδ⟩
  penalty := rho_pos hk
  unbarred h0 := if_neg h0.not_gt
  barrier hne := by
    have hmu : (k.prepare s₀).mu = k.par.mu := if_pos (Nat.pos_of_ne_zero hne)
    exact ⟨μ, hmu.trans hμ, barrier_pos hk hμ, .inl hmu⟩

/-! ### Steady states -/

/-- Between the hook points of a run the norm of the gradient is the recorded one, and a trust region is around an interior
point. -/
structure Setup.Steady (k : Setup (Exact ε)) (h : Euclidean n → Euclidean m) (s : State (Exact ε)) : Prop where
  normGrad : s.normGrad = Vec.norm s.grad
  point : k.par.algorithm = .trustRegion → ∃ x, k.InteriorAt h x s

theorem Setup.Steady.of_eq (hs : k.Steady h s) (hx : t.x = s.x) (hh : t.h = s.h)
    (hnorm : t.normGrad = Vec.norm t.grad) : k.Steady h t where
  normGrad := hnorm
  point htr := by
    obtain ⟨x, hpoint, hslack⟩ := hs.point htr
    exact ⟨x, hx.trans hpoint, hh ▸ hslack⟩

theorem Setup.Steady.of_kept (hs : k.Steady h s) (ht : t.kept = s.kept) : k.Steady h t := by
  have hx : t.x = s.x := congrArg Kept.x ht
  have hh : t.h = s.h := congrArg Kept.h ht
  have hgrad : t.grad = s.grad := congrArg Kept.grad ht
  have hnorm : t.normGrad = s.normGrad := congrArg Kept.normGrad ht
  exact hs.of_eq hx hh (by rw [hnorm, hgrad, hs.normGrad])

/-! ### Steps -/

/-- What is asked of a run: a problem over the reals, an observing manipulator, and checked parameters whose first radius
and barrier parameter are finite. -/
structure Setup.Governed (k : Setup (Exact ε)) (h : Euclidean n → Euclidean m)
    (J : Euclidean n → Euclidean n →ₗ[ℝ] Euclidean m) : Prop where
  reals : k.OverReals h J
  dim : k.n = n
  hooks : k.hooks.Observing
  valid : k.parameterError? = none
  delta : ∃ δ, k.par.delta = real δ
  mu : ∃ μ, k.par.mu = real μ

theorem Setup.Governed.prepare_admissible (hk : k.Governed h J) : k.Admissible (k.prepare s₀) := by
  obtain ⟨δ, hδ⟩ := hk.delta
  obtain ⟨μ, hμ⟩ := hk.mu
  exact Setup.prepare_admissible hk.valid hδ hμ

/-- Searches and the steps of the manipulator leave the radius and the penalty alone. -/
theorem Setup.follows_search (hk : k.hooks.Observing) :
    SearchCourse k (fun s p => Along k.Follows s (Event.visits p)) (fun s p => Along k.Follows s (Event.visits p))
      fun s p => Along k.Follows s (Event.visits p) := by
  have hsame : ∀ (s t : State (Exact ε)) (p q : List (Event (Exact ε))), t.globalization = s.globalization →
      Event.visits q = Event.visits p → Along k.Follows s (Event.visits p) → Along k.Follows t (Event.visits q) := by
    rintro s t p q ht hq ⟨a, ha, hs⟩
    exact ⟨a, hq ▸ ha, ht.trans hs⟩
  have hvisit : ∀ (loc : Location) (s : State (Exact ε)) p, loc ≠ .beginningOfOptimization →
      loc ≠ .afterRejectedTrustRegion → Along k.Follows s (Event.visits p) →
      Along k.Follows (k.hooks.manipulate loc s) (Event.visits (p ++ [.visit loc s])) := by
    rintro loc s p hbegun hrejected ⟨a, ha, hs⟩
    rw [hk, Event.visits_append, Event.visits_visit]
    exact ⟨(loc, s), ha.push (.of_eq hbegun hrejected hs), rfl⟩
  have henduring : Enduring fun s p => Along k.Follows s (Event.visits p) := {
    noted := fun s p n hs => hsame s s p _ rfl (by simp) hs
    faulted := fun s p level m stop _ _ hs => hsame s _ p _ rfl (by simp) hs }
  exact {
    toEnduring := henduring
    rejected := fun loc s => congrArg State.rejected (hk loc s)
    tried := fun s p u t hs => hsame s s p _ rfl (by simp) hs
    seen := fun loc s p hloc hne hs => hvisit loc s p (by rintro rfl; exact hloc) hne hs
    searched := fun s t p hkept _ hdelta hrho hs => by
      have hmu : t.mu = s.mu := congrArg Kept.mu hkept
      refine hsame s t p p ?_ rfl hs
      unfold State.globalization
      rw [hdelta, hrho, hmu]
    accepted := fun t s p hs => by
      refine henduring.leads_accept (fun s t p ht hs => hsame s t p p ht.globalization rfl hs)
        (fun s p hs => hvisit .afterGradient s p nofun nofun hs) fun n => ?_
      exact hvisit .afterStepBeforeGradient _ _ nofun nofun (hsame s _ p _ rfl (by simp) hs)
    done := fun _ _ hs => hs
    halted := fun _ _ hs => hs }

/-- A step that goes on ends in a steady state, if it is not one of the trust region. -/
theorem Setup.steady_stepFrame (hk : k.hooks.StepOnly) (htr : k.par.algorithm ≠ .trustRegion) (hs : k.Steady h s) :
    StepFrame k .any (fun _ t => t.stop = .notConverged → k.Steady h t) (fun _ _ => True) s.kept where
  hooks := hk
  visit _ _ _ _ := trivial
  trial _ _ _ := trivial
  stuck t ht _ := hs.of_kept ht.kept
  halted _ _ _ := trivial
  accepted u t _ _ _ := by
    refine accept_wp hk t trivial (fun _ _ _ => trivial) (fun v hv hrunning => ?_) fun _ _ _ => trivial
    obtain ⟨y, grad, -, rfl⟩ := hv.sound_of_running hrunning
    exact ⟨rfl, fun h => absurd h htr⟩

/-- An accepted point of the trust region is in the interior. -/
theorem Setup.InteriorAt.accepted {A : Euclidean n →ₗ[ℝ] Euclidean m} {b : Euclidean m} {γ : ℝ} {x : Euclidean n}
    (hp : k.OverReals h J) (hs : k.InteriorAt h x s)
    (ht : TrustRegion.Accepts k s.kept (fun δ => ∃ d, δ = real d ∧ 0 < d) A b γ t) (hrunning : t.stop = .notConverged) :
    k.Steady h t := by
  obtain ⟨u, w, v, hu, -, ⟨δ, hδ, hδ0⟩, hready, hv, hpasses, -, hgraded⟩ := ht
  obtain ⟨y, grad, -, rfl⟩ := hgraded.sound_of_running hrunning
  obtain ⟨d, hd, -⟩ := hready.step δ hδ hδ0
  obtain ⟨hadd, heval⟩ := Problem.trial_eq_ok hv
  have hux : u.x = s.x := congrArg Kept.x hu
  rw [hd, hux, hs.point] at hadd
  have hx : v.x = vec (x + (1 : ℝ) • d) := checked_add_eq_ok (a := 1) hadd
  exact ⟨rfl, fun _ => ⟨_, .of_trial hp hx heval hpasses.interior.2 rfl rfl⟩⟩

theorem Setup.Steady.takeStep_leads (hk : k.Governed h J) {p : List (Event (Exact ε))}
    (hp : Trail k.Follows (Event.visits p) a) (hglobal : s.globalization = a.2.globalization)
    (hadmissible : k.Admissible s) (hs : k.Steady h s) (hrunning : s.stop = .notConverged) :
    leads (takeStep k) (fun _ t q => Along k.Follows t (Event.visits q) ∧ (t.stop = .notConverged → k.Steady h t))
      (fun _ _ q => (Event.visits q).IsChain k.Follows) s p := by
  have hsearch : k.par.algorithm ≠ .trustRegion →
      leads (takeStep k) (fun _ t q => Along k.Follows t (Event.visits q))
        (fun e t q => Along k.Follows t (Event.visits q) ∧ Told e q) s p →
      leads (takeStep k) (fun _ t q => Along k.Follows t (Event.visits q) ∧ (t.stop = .notConverged → k.Steady h t))
        (fun _ _ q => (Event.visits q).IsChain k.Follows) s p := by
    intro htr hsteps
    refine leads_mono (leads_wp hsteps (takeStep_wp (steady_stepFrame hk.hooks.stepOnly htr hs) ⟨rfl, hrunning⟩))
      (fun _ _ _ h => h) ?_
    rintro _ t q ⟨⟨⟨b, hb, -⟩, -⟩, -⟩
    exact hb.chain
  cases halgorithm : k.par.algorithm with
  | trustRegion =>
    obtain ⟨x, hx⟩ := hs.point halgorithm
    obtain ⟨γ, ζ, hfractions⟩ := Setup.exists_fractions hk.valid
    have fr : TrustRegion.Hopping k k.Follows s.kept (fun δ => ∃ d, δ = real d ∧ 0 < d) (J x) (h x) γ ζ := {
      hooks := hk.hooks
      fractions := hfractions
      realAt := fun t ht => (hx.realAt hk.reals hk.dim).of_kept ht
      hop := fun _ _ hop => .of_hop hop
      shrinks := by
        rintro u ⟨δ, hδ, hδ0⟩ hready
        obtain ⟨w, -, hnorm, -⟩ := hready.step δ hδ hδ0
        exact TrustRegion.shrunk_real hδ hδ0 hnorm }
    obtain ⟨δ, hδ, hδ0, -⟩ := hadmissible.radius
    unfold takeStep TrustRegion.step
    rw [halgorithm]
    refine leads_mono (TrustRegion.attempts_hop fr _ hp hglobal rfl ⟨δ, hδ, hδ0⟩) ?_ fun _ _ _ h => h
    rintro _ t q ⟨halong, ht | ht⟩
    · exact ⟨halong, fun _ => hs.of_kept ht⟩
    · exact ⟨halong, hx.accepted hk.reals ht⟩
  | lineSearch =>
    refine hsearch (by simp [halgorithm]) ?_
    unfold takeStep
    rw [halgorithm]
    exact (follows_search hk.hooks).lineSearch_step ⟨a, hp, hglobal⟩
  | userDefined =>
    refine hsearch (by simp [halgorithm]) ?_
    unfold takeStep
    rw [halgorithm]
    exact (follows_search hk.hooks).userStep_step ⟨a, hp, hglobal⟩

/-! ### Runs -/

/-- The invariant of a run at the beginning of its iterations and after its steps. -/
def Setup.Going (k : Setup (Exact ε)) (h : Euclidean n → Euclidean m) (s₀ s : State (Exact ε))
    (vs : Visits (Exact ε)) : Prop :=
  (∃ a, k.Underway s₀ vs a ∧ s.globalization = a.2.globalization) ∧ k.Steady h s

/-- The state in which a step begins; the barrier parameter may just have been reduced. -/
def Setup.Starting (k : Setup (Exact ε)) (h : Euclidean n → Euclidean m) (s₀ s : State (Exact ε))
    (vs : Visits (Exact ε)) : Prop :=
  (∃ a, k.Underway s₀ vs a ∧ k.Follows a (.beforeSaveOld, s)) ∧ k.Steady h s

/-- The state in which a run leaves its loop. -/
def Setup.Leaving (k : Setup (Exact ε)) (s₀ s : State (Exact ε)) (vs : Visits (Exact ε)) : Prop :=
  ∃ a, k.Underway s₀ vs a ∧ k.Follows a (.endOfOptimization, s)

/-- What the visits of a run that is halted show. -/
def Setup.Halted (k : Setup (Exact ε)) (s₀ : State (Exact ε)) (vs : Visits (Exact ε)) : Prop :=
  k.openingVisits s₀ <+: vs ∧ vs.IsChain k.Follows

theorem Setup.Underway.halted (hvs : k.Underway s₀ vs a) : k.Halted s₀ vs := ⟨hvs.opened, hvs.trail.chain⟩

theorem Setup.Going.pushed (hs : k.Going h s₀ s vs) (loc : Location) (hbegun : loc ≠ .beginningOfOptimization)
    (hrejected : loc ≠ .afterRejectedTrustRegion) : k.Underway s₀ (vs ++ [(loc, s)]) (loc, s) := by
  obtain ⟨⟨a, ha, hglobal⟩, -⟩ := hs
  exact ha.push (.of_eq hbegun hrejected hglobal)

theorem Setup.Going.assessed (hk : k.Governed h J) (hs : k.Going h s₀ s vs) (ht : Assessed k s t) :
    StepEnds (fun t => k.Starting h s₀ t (vs ++ [(.beginningOfOptimizationLoop, s)]))
      (fun t => k.Leaving s₀ t (vs ++ [(.beginningOfOptimizationLoop, s)])) t := by
  have hhead := hs.pushed .beginningOfOptimizationLoop nofun nofun
  have hnorm := hs.2.normGrad
  unfold StepEnds
  cases ht with
  | stop hl hc =>
    rw [if_neg hc]
    exact ⟨_, hhead, .of_lowered hk.valid hnorm nofun nofun hl rfl⟩
  | unsound hl => exact ⟨_, hhead, .of_lowered hk.valid hnorm nofun nofun hl rfl⟩
  | @go u hl hc =>
    rw [if_pos rfl]
    refine ⟨⟨_, hhead, .of_lowered hk.valid hnorm nofun nofun hl rfl⟩, ?_⟩
    rcases (Assessed.go hl hc).lowered rfl with heq | ⟨-, hl⟩
    · exact heq ▸ hs.2
    · obtain ⟨y, grad, -, heq⟩ := hl.sound_of_running rfl
      exact heq ▸ hs.2.of_eq rfl rfl rfl

theorem Setup.Starting.stepped (hk : k.Governed h J) (hs : k.Starting h s₀ s vs) (hrunning : s.stop = .notConverged)
    {v : Vec (Exact ε)} {p : List (Event (Exact ε))}
    (hp : Event.visits p = vs ++ [(.beforeSaveOld, s), (.beforeStep, s.remember v)]) :
    leads (takeStep k) (fun _ t q => StepEnds (fun t => k.Going h s₀ t (Event.visits q))
      (fun t => k.Leaving s₀ t (Event.visits q)) t) (fun _ _ q => k.Halted s₀ (Event.visits q)) (s.beforeStep v) p := by
  obtain ⟨⟨a, ha, hfollows⟩, hsteady⟩ := hs
  have hstart : k.Underway s₀ (Event.visits p) (.beforeStep, s.remember v) := by
    have hpushed := (ha.push hfollows).push (b := (.beforeStep, s.remember v)) (.of_eq nofun nofun rfl)
    rwa [List.append_assoc, List.singleton_append, ← hp] at hpushed
  have hadmissible : k.Admissible (s.beforeStep v) :=
    (hstart.regular hk.prepare_admissible).admissible.of_eq rfl
  have hsteps := Setup.Steady.takeStep_leads hk hstart.trail (s := s.beforeStep v) rfl hadmissible
    (hsteady.of_eq rfl rfl hsteady.normGrad) hrunning
  refine leads_mono (leads_extends hsteps) ?_ ?_
  · rintro _ t q ⟨⟨⟨b, hb, hglobal⟩, hgoes⟩, hq⟩
    have hb : k.Underway s₀ (Event.visits q) b := ⟨hstart.opened.trans (Event.visits_prefix hq), hb⟩
    unfold StepEnds
    split
    case isTrue ht => exact ⟨⟨b, hb, hglobal⟩, hgoes ht⟩
    case isFalse => exact ⟨b, hb, .of_eq nofun nofun hglobal⟩
  · rintro _ _ q ⟨hchain, hq⟩
    exact ⟨hstart.opened.trans (Event.visits_prefix hq), hchain⟩

theorem Setup.Governed.loopCourse (hk : k.Governed h J) (s₀ : State (Exact ε)) :
    LoopCourse k (k.Going h s₀) (k.Starting h s₀) (k.Going h s₀) (k.Leaving s₀) (k.Halted s₀) where
  hooks := hk.hooks.stepOnly
  assessed _ _ _ hs hp :=
    assess_leads hp (fun _ ht => hs.assessed hk ht) (hs.pushed .beginningOfOptimizationLoop nofun nofun).halted
  stepped _ _ _ _ hs hrunning _ hp := hs.stepped hk hrunning hp
  paired s v vs hs _ _ := by
    have hquasi := hs.pushed .beforeQuasi nofun nofun
    have hafter := hquasi.push (b := (.afterQuasi, s.paired v k.par.storedHistory)) (.of_eq nofun nofun rfl)
    have hend := hafter.push (b := (.endOfOptimizationIteration, (s.paired v k.par.storedHistory).counted))
      (.of_eq nofun nofun rfl)
    rw [List.append_assoc, List.append_assoc] at hend
    exact ⟨⟨_, hend, rfl⟩, hs.2.of_eq rfl rfl hs.2.normGrad⟩
  saveHalted _ _ hs := by
    obtain ⟨⟨a, ha, hfollows⟩, -⟩ := hs
    exact (ha.push hfollows).halted
  pairHalted _ _ hs := (hs.pushed .beforeQuasi nofun nofun).halted
  outOfFuel _ _ hs := by
    obtain ⟨⟨a, ha, -⟩, -⟩ := hs
    exact ha.halted

theorem Setup.openingVisits_underway (s₀ : State (Exact ε)) : k.Underway s₀ (k.openingVisits s₀) (.beforeInitialFuncAndGrad, k.prepare s₀) where
  opened := List.prefix_rfl
  trail := ⟨List.isChain_cons_cons.mpr ⟨fun h => absurd rfl h.begun, List.isChain_singleton _⟩, rfl⟩

theorem Setup.Governed.opened (hk : k.Governed h J) {x : Euclidean n} (hx : s₀.x = vec x) {v : Trial (Exact ε)}
    {y grad : Vec (Exact ε)} (hv : k.Opened s₀ v y grad) :
    k.Going h s₀ (k.openedState s₀ v y grad) [(.beginningOfOptimization, s₀),
      (.beforeInitialFuncAndGrad, k.prepare s₀), (.afterInitialFuncAndGrad, k.openedState s₀ v y grad),
      (.beforeOptimizationLoop, k.openedState s₀ v y grad)] := by
  have hafter := (openingVisits_underway s₀).push (b := (.afterInitialFuncAndGrad, k.openedState s₀ v y grad))
    (.of_eq nofun nofun rfl)
  have hbefore := hafter.push (b := (.beforeOptimizationLoop, k.openedState s₀ v y grad)) (.of_eq nofun nofun rfl)
  refine ⟨⟨_, hbefore, rfl⟩, rfl, fun _ => ⟨x, ?_⟩⟩
  have hpoint : v.x = s₀.x := (Problem.evaluate_eq_ok hv.evaluated).1
  have heval := hv.evaluated
  rw [← hpoint] at heval
  exact .of_trial hk.reals (hpoint.trans hx) heval (Barrier.objective_finite hv.feasible).2 rfl rfl

/-- In exact arithmetic the radius, the penalty and the barrier parameter of an observed run evolve monotonically, for any
problem over the reals and any checked parameters whose first radius and barrier parameter are finite. After the first hook
point each one finds them admissible, and each finds them as they have evolved since the one before. -/
theorem Problem.solve_globalizes {p : Problem (Exact ε)} {par : Parameters (Exact ε)} {hooks : Hooks (Exact ε)}
    (hhooks : hooks.Observing) (hvalid : (⟨par, p, hooks, n⟩ : Setup (Exact ε)).parameterError? = none)
    (hδ : Scalar.isFinite par.delta = true) (hμ : Scalar.isFinite par.mu = true)
    (hp : (⟨par, p, hooks, n⟩ : Setup (Exact ε)).OverReals h J) {x : Euclidean n} (hx : s₀.x = vec x) :
    ∃ vs, (p.solve par hooks s₀).visits = (.beginningOfOptimization, s₀) :: vs ∧
      (∀ v ∈ vs, (⟨par, p, hooks, n⟩ : Setup (Exact ε)).Admissible v.2) ∧
      vs.IsChain (⟨par, p, hooks, n⟩ : Setup (Exact ε)).Evolves := by
  generalize hsetup : (⟨par, p, hooks, n⟩ : Setup (Exact ε)) = k at hvalid hp
  have hlength : (⟨par, p, hooks, s₀.x.length⟩ : Setup (Exact ε)) = k := by rw [← hsetup, hx, length_vec]
  have hk : k.Governed h J := by
    subst hsetup
    exact ⟨hp, rfl, hhooks, hvalid, isFinite_iff.mp hδ, isFinite_iff.mp hμ⟩
  have hprepared : k.Admissible (k.prepare s₀) := hk.prepare_admissible
  have hnothing : ∃ rest, [(Location.beginningOfOptimization, s₀)] = (.beginningOfOptimization, s₀) :: rest ∧
      (∀ v ∈ rest, k.Admissible v.2) ∧ rest.IsChain k.Evolves :=
    ⟨[], rfl, fun v hv => absurd hv List.not_mem_nil, List.isChain_nil⟩
  have hfollows : ∀ vs, k.Halted s₀ vs → ∃ rest, vs = (.beginningOfOptimization, s₀) :: rest ∧
      (∀ v ∈ rest, k.Admissible v.2) ∧ rest.IsChain k.Evolves := by
    rintro vs ⟨hopened, hchain⟩
    obtain ⟨rest, hrest, hall, hevolves⟩ := Setup.globalizes_of_follows hprepared hopened hchain
    exact ⟨rest, hrest, fun v hv => (hall v hv).admissible, hevolves⟩
  refine Problem.solve_course (P := fun vs => ∃ rest, vs = (.beginningOfOptimization, s₀) :: rest ∧
    (∀ v ∈ rest, k.Admissible v.2) ∧ rest.IsChain k.Evolves) hhooks.stepOnly hlength (fun _ => hk.loopCourse s₀)
    (fun v y grad hv => hk.opened hx hv) ?_ ?_ hfollows
  · intro vs hvs
    cases hvs with
    | refused =>
      refine ⟨hnothing, fun t ht => ⟨[(.endOfOptimization, t)], rfl, ?_, List.isChain_singleton _⟩⟩
      intro v hv
      obtain rfl := List.mem_singleton.mp hv
      exact hprepared.of_eq ht
    | unsound =>
      refine ⟨hfollows _ (Setup.openingVisits_underway s₀).halted, fun t ht => ?_⟩
      exact hfollows _ ((Setup.openingVisits_underway s₀).push (b := (.endOfOptimization, t)) (.of_eq nofun nofun ht)).halted
  · rintro t vs ⟨a, ha, hend⟩
    exact hfollows _ (ha.push hend).halted

theorem Problem.solve_globalizes_leastHalfSquare :
    let k : Setup (Exact ⟨1, Set.mem_Ioi.mpr one_pos⟩) := ⟨.default, .leastHalfSquare, .passive, 1⟩
    let x : Euclidean 1 := WithLp.toLp 2 fun _ => 1
    let s : State (Exact ⟨1, Set.mem_Ioi.mpr one_pos⟩) := State.new (vec x)
    k.hooks.Observing ∧ k.parameterError? = none ∧
      k.OverReals (fun x : Euclidean 1 => (LinearMap.id : Euclidean 1 →ₗ[ℝ] Euclidean 1) x + 0) (fun _ => LinearMap.id) ∧
      ∃ vs, (k.problem.solve k.par k.hooks s).visits = (.beginningOfOptimization, s) :: vs ∧
        (∀ v ∈ vs, k.Admissible v.2) ∧ vs.IsChain k.Evolves := by
  intro k x s
  have hhooks : k.hooks.Observing := fun _ _ => rfl
  have hvalid : k.parameterError? = none := by
    unfold Setup.parameterError?
    rw [Parameters.default_valid]
    rfl
  have hreals := (Setup.leastHalfSquare_affineSlack (ε := ⟨1, Set.mem_Ioi.mpr one_pos⟩) .default .passive).overReals
  exact ⟨hhooks, hvalid, hreals, Problem.solve_globalizes hhooks hvalid rfl rfl hreals rfl⟩

end ConstrainedOpt
