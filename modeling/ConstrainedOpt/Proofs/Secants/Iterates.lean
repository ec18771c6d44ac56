import ConstrainedOpt.Proofs.Containment.Points
import ConstrainedOpt.Proofs.Run.Course
import ConstrainedOpt.Proofs.Secants.Steps

/-! # Real iterates

Over the reals an observed run with checked parameters and a finite first radius only accepts real points: the radius of
a trust region stays real, a line search starts from a real direction and a real length, and the stored pairs are real.
-/
namespace ConstrainedOpt

/-- What the visits of one hook point show of the iterate. -/
def iteratesAt {F : Type} (loc : Location) (vs : Visits F) : List (Iterate F) :=
  vs.filterMap fun v => if v.1 = loc then some v.2.iterate else none

section Iterates
variable {F : Type} {loc : Location} {vs ws : Visits F}

@[simp] theorem iteratesAt_nil : iteratesAt loc ([] : Visits F) = [] := rfl

@[simp] theorem iteratesAt_cons (v : Location × State F) (vs : Visits F) :
    iteratesAt loc (v :: vs) = if v.1 = loc then v.2.iterate :: iteratesAt loc vs else iteratesAt loc vs := by
  unfold iteratesAt
  rw [List.filterMap_cons]
  split
  case h_1 h => rw [if_neg fun hv => by simp [hv] at h]
  case h_2 h =>
    split at h
    · rw [if_pos ‹_›, Option.some.inj h]
    · cases h

@[simp] theorem iteratesAt_append : iteratesAt loc (vs ++ ws) = iteratesAt loc vs ++ iteratesAt loc ws :=
  List.filterMap_append

theorem exists_visit_of_mem_iteratesAt {i : Iterate F} (h : i ∈ iteratesAt loc vs) : ∃ s, (loc, s) ∈ vs ∧ s.iterate = i := by
  obtain ⟨⟨loc', s⟩, hs, hi⟩ := List.mem_filterMap.mp h
  split at hi
  case isTrue hloc =>
    obtain rfl : loc' = loc := hloc
    exact ⟨s, hs, Option.some.inj hi⟩
  case isFalse => cases hi

theorem iteratesAt_eq_nil (h : ∀ v ∈ vs, v.1 ≠ loc) : iteratesAt loc vs = [] := by
  refine List.filterMap_eq_nil_iff.mpr fun v hv => ?_
  rw [if_neg (h v hv)]

theorem length_iteratesAt : (iteratesAt loc vs).length = (vs.map Prod.fst).count loc := by
  induction vs with
  | nil => rfl
  | cons v vs ih =>
    rw [iteratesAt_cons, List.map_cons, List.count_cons]
    split <;> simp [*]

end Iterates

open Exact Running
variable {ε : Set.Ioi (0 : ℝ)} {n m : ℕ} {k : Setup (Exact ε)} {s t : State (Exact ε)} {h : Euclidean n → Euclidean m}
  {J : Euclidean n → Euclidean n →ₗ[ℝ] Euclidean m} {x w : Euclidean n}

/-- The iterates are real points. -/
def RealIterates (n : ℕ) (its : List (Iterate (Exact ε))) : Prop := ∀ i ∈ its, ∃ w : Euclidean n, i.x = vec w

/-- What is asked of a run. -/
structure Setup.Grounded (k : Setup (Exact ε)) (h : Euclidean n → Euclidean m)
    (J : Euclidean n → Euclidean n →ₗ[ℝ] Euclidean m) : Prop where
  reals : k.OverReals h J
  sized : k.problem.objective.Sized
  dim : k.n = n
  hooks : k.hooks.Observing
  valid : k.parameterError? = none
  delta : ∃ δ, k.par.delta = real δ

/-- What the driver of a run works on between its steps is real. -/
structure Setup.Equipped (k : Setup (Exact ε)) (n : ℕ) (s : State (Exact ε)) : Prop where
  radius : k.par.algorithm = .trustRegion → ∃ δ, s.delta = real δ ∧ 0 < δ
  search : k.par.algorithm = .lineSearch → (∃ d : Euclidean n, s.direction = vec d) ∧ ∃ a, s.alphaStart = real a

/-- A state at a real point, with what the next step needs. -/
structure Setup.Located (k : Setup (Exact ε)) (h : Euclidean n → Euclidean m) (s : State (Exact ε)) : Prop where
  interior : ∃ x, k.InteriorAt h x s
  equipped : k.Equipped n s

/-- A state between two steps at a real point. -/
structure Setup.Settles (k : Setup (Exact ε)) (h : Euclidean n → Euclidean m) (s : State (Exact ε)) : Prop where
  standing : k.Standing n s
  located : k.Located h s
  history : s.history.Real n

theorem Setup.Located.of_eq (hs : k.Located h s) (hx : t.x = s.x) (hh : t.h = s.h) (hdelta : t.delta = s.delta)
    (hdirection : t.direction = s.direction) (hstart : t.alphaStart = s.alphaStart) : k.Located h t := by
  obtain ⟨⟨x, hpoint, hslack⟩, hradius, hsearch⟩ := hs
  refine ⟨⟨x, hx.trans hpoint, hh ▸ hslack⟩, ?_, ?_⟩
  · rwa [hdelta]
  · rwa [hdirection, hstart]

/-- The points that are accepted with a sound gradient are real. -/
def Watch.realIterates (n : ℕ) : Watch (Exact ε) where
  visit loc s := loc = .afterGradient → ∃ w : Euclidean n, s.x = vec w
  trial _ _ := True

theorem Watch.realIterates_onStep {loc : Location} (hloc : loc.OnStep) (s : State (Exact ε)) :
    (Watch.realIterates n).visit loc s := by
  rintro rfl
  exact hloc.elim

/-! ### Steps -/

/-- Accepting a real interior point. -/
theorem Setup.Grounded.accept_wp (hk : k.Grounded h J) (hequipped : k.Equipped n t)
    {v : Trial (Exact ε)} (hv : v.x = vec x) (heval : k.problem.evaluate v.x = .ok v) (hpass : v.Passes t) :
    wp (.realIterates n) (accept k v) (fun _ u => u.stop = .notConverged → k.Located h u) (fun _ _ => True) t := by
  refine Running.accept_wp hk.hooks.stepOnly v nofun (fun _ _ _ _ => ⟨x, hv⟩) (fun u hu hrunning => ?_)
    fun _ _ _ => trivial
  obtain ⟨y, grad, -, rfl⟩ := hu.sound_of_running hrunning
  exact ⟨⟨x, .of_trial hk.reals hv heval hpass.interior.2 rfl rfl⟩, hequipped.radius, hequipped.search⟩

/-- Where a whole step from a real point leads. -/
theorem Setup.InteriorAt.trial_eq_ok (hs : k.InteriorAt h x s) (ht : t.kept = s.kept) (hdx : t.dx = vec w)
    {v : Trial (Exact ε)} (hv : k.problem.trial t.x t.dx 1 = .ok v) :
    v.x = vec (x + w) ∧ k.problem.evaluate v.x = .ok v := by
  have hx : t.x = s.x := congrArg Kept.x ht
  obtain ⟨hadd, heval⟩ := Problem.trial_eq_ok hv
  rw [hdx, hx, hs.point] at hadd
  have hadd := checked_add_eq_ok (a := 1) hadd
  rw [one_smul] at hadd
  exact ⟨hadd, heval⟩

theorem Setup.Grounded.attemptFrame (hk : k.Grounded h J) (hs : k.InteriorAt h x s)
    (htr : k.par.algorithm = .trustRegion) :
    TrustRegion.AttemptFrame k (.realIterates n) (fun _ t => t.stop = .notConverged → k.Located h t) (fun _ _ => True)
      s.kept (fun r _ => ∃ δ, r = real δ ∧ 0 < δ)
      (fun u => (∃ δ, u.delta = real δ ∧ 0 < δ) ∧ ∃ w : Euclidean n, u.dx = vec w ∧ u.normDx = real ‖w‖) where
  hooks := hk.hooks.stepOnly
  visit loc _ hloc _ _ := Watch.realIterates_onStep hloc _
  failed _ _ hstop hrunning := nomatch hstop.symm.trans hrunning
  vanished _ _ _ _ := nofun
  halted _ _ _ := trivial
  composed u stop t dx hu hR ht hhook := by
    obtain ⟨δ, hδ, hδ0⟩ := hR
    obtain ⟨γ, ζ, hfractions⟩ := Setup.exists_fractions hk.valid
    have hreal := (hs.realAt hk.reals hk.dim).of_kept hu.kept
    obtain ⟨d, e, hcomp⟩ := TrustRegion.CompositeStep.composed hreal hfractions hδ hδ0
      (fun u _ => TrustRegion.projector_into k u) ht
    have hdx : dx = t.dx := congrArg State.dx (hhook.symm.trans (hk.hooks _ t))
    obtain ⟨-, hdelta, -⟩ := ht.normalStep
    refine ⟨⟨δ, hdelta.trans hδ, hδ0⟩, d + e, hdx.trans hcomp.dx, ?_⟩
    exact (congrArg Vec.norm (hdx.trans hcomp.dx)).trans norm_vec
  seen _ _ _ := nofun
  trial _ _ _ _ _ _ := trivial
  shrunk u _ _ hC _ := by
    obtain ⟨⟨δ, hδ, hδ0⟩, w, -, hnorm⟩ := hC
    exact TrustRegion.shrunk_real hδ hδ0 hnorm
  grown u _ _ hC _ := by
    obtain ⟨⟨δ, hδ, hδ0⟩, -⟩ := hC
    obtain ⟨δ₀, hδ₀⟩ := hk.delta
    obtain ⟨hδ₀0, hmax⟩ := Setup.radius_pos hk.valid hδ₀
    exact ⟨⟨δ, hδ, hδ0⟩, TrustRegion.grown_real hδ hδ0 hδ₀0 hmax⟩
  accepted u t v hu hC hv happroves ht hdx hR := by
    obtain ⟨-, w, hw, -⟩ := hC
    obtain ⟨hadd, heval⟩ := hs.trial_eq_ok hu.kept hw hv
    refine hk.accept_wp ⟨fun _ => hR, fun hls => ?_⟩ hadd heval happroves.passes
    exact nomatch htr.symm.trans hls

theorem Setup.Grounded.containedFrame (hk : k.Grounded h J) (hs : k.InteriorAt h x s) (hstanding : k.Standing n s)
    (hhistory : s.history.Real n) (hls : k.par.algorithm = .lineSearch) {γ ζ : ℝ} (hfractions : k.par.Fractions γ ζ) :
    LineSearch.ContainedFrame k (.realIterates n) (fun _ t => t.stop = .notConverged → k.Located h t) (fun _ _ => True)
      s.kept (J x) (h x) γ where
  hooks := hk.hooks.stepOnly
  visit loc _ hloc _ := Watch.realIterates_onStep hloc _
  stuck _ ht hrunning := (ht.not_running hrunning).elim
  halted _ _ _ := trivial
  realAt _ hu := (hs.realAt hk.reals hk.dim).of_kept hu
  gamma := hfractions.gamma
  gamma_nonneg := hfractions.gamma_pos.le
  grad := by
    obtain ⟨a, ha, -⟩ := hstanding.gradient
    exact ⟨a, ha⟩
  history := hhistory
  trial _ _ _ _ := trivial
  accepted u v t hu hv hpass ht hdirection hdx hstart := by
    obtain ⟨w, -, hmoved⟩ := hdx
    obtain ⟨α, d, hd, htrial, -⟩ := hv
    have hx : u.x = s.x := congrArg Kept.x hu
    have heval := (Problem.trial_eq_ok htrial).2
    refine hk.accept_wp ⟨fun htr => ?_, fun _ => ⟨⟨d, hdirection.trans hd⟩, hstart⟩⟩
      (hmoved x (hx.trans hs.point)) heval hpass
    exact nomatch hls.symm.trans htr

/-- A manipulator that only looks supplies the step zero. -/
theorem Setup.Grounded.supplyFrame (hk : k.Grounded h J) (hs : k.InteriorAt h x s)
    (huser : k.par.algorithm = .userDefined) :
    UserStep.SupplyFrame k (.realIterates n) (fun _ t => t.stop = .notConverged → k.Located h t) (fun _ _ => True)
      s.kept fun d => ∃ e, d = Vec.zerosLike e where
  hooks := hk.hooks.stepOnly
  visit loc _ hloc _ := Watch.realIterates_onStep hloc _
  trial _ _ _ := trivial
  supplied u d _ hd := ⟨d, (congrArg State.dx (hk.hooks _ u)).trans hd⟩
  accepted u v hu hZ hlen hv hpass := by
    obtain ⟨e, he⟩ := hZ
    have hzero : u.dx = vec (0 : Euclidean n) := by
      rw [he, Vec.zerosLike, Vec.length_zeros, hk.dim] at hlen
      rw [he, Vec.zerosLike, hlen, zeros_eq]
    obtain ⟨hadd, heval⟩ := hs.trial_eq_ok hu.kept hzero hv
    refine hk.accept_wp ⟨fun htr => ?_, fun hls => ?_⟩ hadd heval hpass
    · cases huser.symm.trans htr
    · cases huser.symm.trans hls
  refused _ _ _ _ _ := by simp
  halted _ _ _ := trivial

/-- A step of any driver that goes on leads from a real point to a real one. -/
theorem Setup.Settles.takeStep_wp (hk : k.Grounded h J) (hs : k.Settles h s) (hrunning : s.stop = .notConverged) :
    wp (.realIterates n) (takeStep k) (fun _ t => t.stop = .notConverged → k.Located h t) (fun _ _ => True) s := by
  obtain ⟨hstanding, ⟨⟨x, hx⟩, hradius, hsearch⟩, hhistory⟩ := hs
  unfold takeStep
  split
  case h_1 htr =>
    unfold TrustRegion.step
    exact TrustRegion.attempts_wp (hk.attemptFrame hx htr) _ ⟨⟨rfl, hrunning⟩, hradius htr⟩
  case h_2 hls =>
    obtain ⟨γ, ζ, hfractions⟩ := Setup.exists_fractions hk.valid
    obtain ⟨hdirection, hstart⟩ := hsearch hls
    exact LineSearch.step_wp (hk.containedFrame hx hstanding hhistory hls hfractions).searchFrame
      ⟨⟨rfl, hrunning⟩, hdirection, hstart⟩
  case h_3 huser => exact UserStep.supplied_wp (hk.supplyFrame hx huser) ⟨rfl, hrunning⟩

/-! ### Runs -/

/-- A real step from a real point is stored with a real change of the gradient. -/
theorem Setup.Settles.stored (hk : k.Grounded h J) (hs : k.Settles h s) {v : Vec (Exact ε)}
    (hv : WithoutMultipliers k s.x s.y s.grad v) (hmoved : k.Moved n (s.beforeStep v) t) (ht : k.Located h t)
    {u : Vec (Exact ε)} (hu : Changed k t u) : (t.history.push t.dx u k.par.storedHistory).Real n := by
  obtain ⟨⟨x, hx⟩, -⟩ := hs.located
  obtain ⟨⟨z, hz⟩, -⟩ := ht
  obtain ⟨g, rfl, -⟩ := hs.standing.gradOld hv hx.point
  obtain ⟨d, hd, hu⟩ := hu
  obtain ⟨a, hgrad, -⟩ := hmoved.standing.gradient
  have hgradOld : t.gradOld = vec g := hmoved.gradOld
  have hxOld : t.xOld = vec x := hmoved.xOld.trans hx.point
  rw [hgradOld, hgrad] at hd
  rw [hxOld, checked_add_eq_ok (a := -1) hd] at hu
  obtain ⟨b, hb⟩ := hu.exists_add (fun c hc => hk.reals.equality c hc x) hmoved.multipliers
  rw [hu.eq_sub hb, hmoved.dx x z hx.point hz.point, hmoved.history]
  exact hs.history.push _ _ _

/-- A state after a step at a real point, whose pair is to be stored. -/
structure Setup.Lands (k : Setup (Exact ε)) (h : Euclidean n → Euclidean m) (s : State (Exact ε)) : Prop where
  standing : k.Standing n s
  located : k.Located h s
  history : ∀ u, Changed k s u → (s.history.push s.dx u k.par.storedHistory).Real n

theorem Setup.Settles.lowered (hk : k.Grounded h J) (hs : k.Settles h s) (ht : Lowered k s t)
    (hrunning : t.stop = .notConverged) : k.Settles h t := by
  refine ⟨hs.standing.lowered hk.sized ht hrunning, ?_, (ht.same hrunning).2 ▸ hs.history⟩
  rcases ht with rfl | ⟨-, ht⟩
  · exact hs.located
  · obtain ⟨y, grad, -, rfl⟩ := ht.sound_of_running hrunning
    exact hs.located.of_eq rfl rfl rfl rfl rfl

theorem Setup.Settles.saved (hk : k.Grounded h J) (hs : k.Settles h s) (hrunning : s.stop = .notConverged)
    {v : Vec (Exact ε)} (hv : WithoutMultipliers k s.x s.y s.grad v) :
    wp (.realIterates n) (takeStep k) (fun _ => StepEnds (k.Lands h) fun _ => True) (fun _ _ => True) (s.beforeStep v) := by
  have hbefore : k.Settles h (s.beforeStep v) := by
    obtain ⟨⟨⟨hvalues, hlength, hsize⟩, hgrad⟩, hlocated, hhistory⟩ := hs
    exact ⟨⟨⟨hvalues, hlength, hsize⟩, hgrad⟩, hlocated.of_eq rfl rfl rfl rfl rfl, hhistory⟩
  have hmoved := ConstrainedOpt.takeStep_wp (hbefore.standing.stepFrame hk.sized hk.hooks) ⟨rfl, hrunning⟩
  refine wp_mono (wp_and (hbefore.takeStep_wp hk hrunning) hmoved) ?_ fun _ _ _ => trivial
  rintro _ t ⟨hlocated, hmoved⟩
  refine .of_running fun hrunning => ?_
  exact ⟨(hmoved hrunning).standing, hlocated hrunning, fun u hu => hs.stored hk hv (hmoved hrunning) (hlocated hrunning) hu⟩

theorem Setup.Grounded.loopFrame (hk : k.Grounded h J) :
    LoopFrame k (.realIterates n) (fun _ _ => True) (k.Settles h) (k.Settles h) (k.Lands h) (fun _ => True) where
  hooks := hk.hooks.stepOnly
  head _ _ := nofun
  assessed _ _ hs ht := .of_running fun hrunning => hs.lowered hk (ht.lowered hrunning) hrunning
  assessHalted _ _ _ _ _ := trivial
  started _ _ := nofun
  saved _ _ hs hrunning hv := ⟨nofun, hs.saved hk hrunning hv⟩
  saveHalted _ _ _ _ := trivial
  stepped _ _ := nofun
  paired s v hs _ hv := by
    obtain ⟨⟨⟨hvalues, hlength, hsize⟩, hgrad⟩, hlocated, hhistory⟩ := hs
    exact ⟨nofun, nofun, ⟨⟨hvalues, hlength, hsize⟩, hgrad⟩, hlocated.of_eq rfl rfl rfl rfl rfl, hhistory v hv⟩
  pairHalted _ _ _ := trivial
  outOfFuel _ _ := trivial

theorem Setup.Grounded.opened (hk : k.Grounded h J) (hx : s.x = vec x) {v : Trial (Exact ε)} {y grad : Vec (Exact ε)}
    (hv : k.Opened s v y grad) : k.Settles h (k.openedState s v y grad) := by
  have hpoint : v.x = s.x := (Problem.evaluate_eq_ok hv.evaluated).1
  have heval := hv.evaluated
  rw [← hpoint] at heval
  refine ⟨hv.standing hk.sized hk.dim (by rw [hx, length_vec]), ⟨⟨x, ?_⟩, fun _ => ?_, fun _ => ?_⟩, nofun⟩
  · exact .of_trial hk.reals (hpoint.trans hx) heval (Barrier.objective_finite hv.feasible).2 rfl rfl
  · obtain ⟨δ, hδ⟩ := hk.delta
    exact ⟨δ, hδ, (Setup.radius_pos hk.valid hδ).1⟩
  · have hzero : (Vec.zeros k.n : Vec (Exact ε)) = vec (0 : Euclidean n) := by rw [hk.dim, zeros_eq]
    exact ⟨⟨0, hzero⟩, 1, rfl⟩

/-- Over the reals the points that an observed run accepts with a sound gradient are real. -/
theorem Problem.solve_realIterates {p : Problem (Exact ε)} {par : Parameters (Exact ε)} {hooks : Hooks (Exact ε)}
    (hhooks : hooks.Observing) (hδ : Scalar.isFinite par.delta = true) (hp : p.objective.Sized)
    (hreals : (⟨par, p, hooks, n⟩ : Setup (Exact ε)).OverReals h J) {s₀ : State (Exact ε)} (hx : s₀.x = vec x) :
    RealIterates n (iteratesAt .afterGradient (p.solve par hooks s₀).visits) := by
  have hgoes : (p.solve par hooks s₀).Goes (.realIterates n) (fun _ _ _ => True) (fun _ _ _ => True)
      ⟨par, p, hooks, n⟩ s₀ := by
    refine solve_goes (by rw [hx, length_vec]) hhooks.stepOnly fun v y grad hv => ?_
    have hk : (⟨par, p, hooks, n⟩ : Setup (Exact ε)).Grounded h J :=
      ⟨hreals, hp, rfl, hhooks, hv.valid, isFinite_iff.mp hδ⟩
    exact wp_mono (LoopFrame.loop_wp hk.loopFrame (hk.opened hx hv) nofun fun _ _ => nofun) (fun _ _ _ => trivial)
      fun _ _ h => h
  intro i hi
  obtain ⟨s, hs, rfl⟩ := exists_visit_of_mem_iteratesAt hi
  rcases hgoes.visit hs with hopening | hstart | hreal
  · simp [Watch.opening] at hopening
  · cases hstart
  · exact hreal rfl

end ConstrainedOpt
