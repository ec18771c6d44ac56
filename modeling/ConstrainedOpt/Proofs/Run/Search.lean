import ConstrainedOpt.Proofs.Run.Kept

/-! # Searches and steps

What the parts of a line-search step do, and that the step of every driver obeys a frame.
-/
namespace ConstrainedOpt
variable {F : Type} [Scalar F]

namespace LineSearch
open Running
variable {W : Watch F} {k : Setup F} {s : State F}

/-! ### Directions -/

/-- The directions a rule may compute at `s` from the last one. -/
inductive Directed (k : Setup F) (s : State F) (last : Vec F) : Vec F → Prop
  | steepest : Directed k s last (Vec.scale (-1) s.grad)
  | conjugate {β d} : conjugateWeight k s last = .ok β →
      Checked.add (-1) s.grad (Vec.scale β last) = .ok d → Directed k s last d
  | inverse {d} : ((QuasiNewton.operator .invBfgs k.n 1 s.history).apply (-1) s.grad 0 last).answer = .ok d →
      Directed k s last d
  | newton {r} : (newtonSolve k s last).answer = .ok (.ok r) → Directed k s last r.step

/-- Apart from the direction and the records of its computation `t` is `s`. -/
structure SameButDirection (s t : State F) : Prop where
  kept : t.kept = s.kept
  stop : t.stop = s.stop ∨ t.stop = .globalizationFailure
  alphaStart : t.alphaStart = s.alphaStart
  dx : t.dx = s.dx

theorem newtonDirection_spec (last : Vec F) :
    wp W (newtonDirection k last)
      (fun o t => SameButDirection s t ∧ ∀ d, o = .ok d → Directed k s last d)
      (fun _ t => t.kept = s.kept) s := by
  unfold newtonDirection
  refine wp_bind (wp_getState (wp_bind (wp_lift (fun r hr => ?_) fun _ _ => rfl)))
  split
  · exact wp_bind (wp_update (wp_pure ⟨⟨rfl, .inl rfl, rfl, rfl⟩, nofun⟩))
  case h_2 r =>
    have hd : ∀ d, (.ok r.step : Except StepError (Vec F)) = .ok d → Directed k s last d := by
      rintro d ⟨⟩
      exact .newton hr
    refine wp_bind (wp_update_of (P := SameButDirection s) ⟨rfl, .inl rfl, rfl, rfl⟩ fun t ht => ?_)
    split
    · refine wp_bind (wp_getState (wp_bind (wp_log (wp_bind (wp_setStop (wp_pure ?_))))))
      exact ⟨⟨ht.kept, .inr rfl, ht.alphaStart, ht.dx⟩, hd⟩
    · exact wp_pure ⟨ht, hd⟩

theorem direction_spec (last : Vec F) :
    wp W (direction k last)
      (fun o t => SameButDirection s t ∧ ∀ d, o = .ok d → Directed k s last d)
      (fun _ t => t.kept = s.kept) s := by
  have same : SameButDirection s s := ⟨rfl, .inl rfl, rfl, rfl⟩
  have hconj : wp W (do
      let β ← conjugateWeight k s last
      return .ok (← Checked.add (-1) s.grad (Vec.scale β last)) : Running F (Except StepError (Vec F)))
      (fun o t => SameButDirection s t ∧ ∀ d, o = .ok d → Directed k s last d)
      (fun _ t => t.kept = s.kept) s := by
    refine wp_bind (wp_lift (fun β hβ => ?_) fun _ _ => rfl)
    refine wp_bind (wp_lift (fun d hd => wp_pure ⟨same, ?_⟩) fun _ _ => rfl)
    rintro _ ⟨⟩
    exact .conjugate (Checked.lift_answer hβ) (Checked.lift_answer hd)
  unfold direction
  refine wp_bind (wp_getState ?_)
  split
  · refine wp_bind (wp_lift (fun d hd => wp_pure ⟨same, ?_⟩) fun _ _ => rfl)
    rintro _ ⟨⟩
    obtain ⟨_, _, h⟩ := Checked.bind_eq_ok.mp (Checked.lift_answer hd)
    cases h
    exact .steepest
  · exact hconj
  · exact hconj
  · exact hconj
  · refine wp_bind (wp_lift (fun d hd => wp_pure ⟨same, ?_⟩) fun _ _ => rfl)
    rintro _ ⟨⟩
    exact .inverse hd
  · exact newtonDirection_spec last

theorem updateDirection_spec :
    wp W (updateDirection k)
      (fun o t => SameButDirection s t ∧ (o = .ok () → Directed k s (lastDirection k s) t.direction))
      (fun _ t => t.kept = s.kept) s := by
  unfold updateDirection
  refine wp_bind (wp_getState (wp_bind (wp_mono (direction_spec _) ?_ fun _ _ h => h)))
  rintro (e | d) t ⟨ht, hd⟩
  · exact wp_pure ⟨ht, nofun⟩
  · exact wp_bind (wp_update (wp_pure ⟨⟨ht.kept, ht.stop, ht.alphaStart, ht.dx⟩, fun _ => hd d rfl⟩))

/-- `slope` is the slope along the direction of `s`, which descends or is the negative gradient. -/
inductive Descends (s : State F) (slope : F) : Prop
  | downhill (h : Checked.inner s.grad s.direction = .ok slope) (hneg : slope < 0)
  | restarted (h : s.direction = Vec.scale (-1) s.grad) (hslope : slope = -s.normGrad * s.normGrad)

theorem Descends.of_eq {t : State F} {slope : F} (h : Descends s slope) (hgrad : t.grad = s.grad)
    (hnorm : t.normGrad = s.normGrad) (hdir : t.direction = s.direction) : Descends t slope := by
  rcases h with ⟨hinner, hneg⟩ | ⟨hd, hslope⟩
  · exact .downhill (by rw [hgrad, hdir, hinner]) hneg
  · exact .restarted (by rw [hgrad, hdir, hd]) (by rw [hnorm, hslope])

theorem descend_spec :
    wp W descend
      (fun slope t => SameButDirection s t ∧ t.stop = s.stop ∧
        (t.direction = s.direction ∨ t.direction = Vec.scale (-1) s.grad) ∧ Descends t slope)
      (fun _ t => t = s) s := by
  unfold descend
  refine wp_bind (wp_getState (wp_bind (wp_lift (fun slope hslope => ?_) fun _ _ => rfl)))
  split
  case isTrue hneg =>
    exact wp_pure ⟨⟨rfl, .inl rfl, rfl, rfl⟩, rfl, .inl rfl, .downhill (Checked.lift_answer hslope) hneg⟩
  case isFalse =>
    refine wp_bind (wp_log (wp_bind (wp_update (wp_pure ?_))))
    exact ⟨⟨rfl, .inl rfl, rfl, rfl⟩, rfl, .inr rfl, .restarted rfl rfl⟩

/-! ### Lengths -/

theorem twoPointLength?_usable {a : F} (h : twoPointLength? k s = .ok (some a)) :
    0 < a ∧ Scalar.isFinite a = true := by
  have husable : ∀ b, (if 0 < b ∧ Scalar.isFinite b then some b else none) = some a →
      0 < a ∧ Scalar.isFinite a = true := by
    intro b hb
    split at hb
    · cases hb
      assumption
    · cases hb
  unfold twoPointLength? at h
  split at h
  · cases h
  · dsimp only at h
    split at h
    · obtain ⟨b, -, hb⟩ := Checked.bind_eq_ok.mp h
      exact husable _ (Except.ok.inj hb)
    · obtain ⟨b, -, hb⟩ := Checked.bind_eq_ok.mp h
      exact husable _ (Except.ok.inj hb)
    · cases h

/-- The lengths the safeguard may cut the starting length of `s` to. -/
def SafeLength (k : Setup F) (s : State F) (b : F) : Prop :=
  match k.problem.inequality with
  | none => b = s.alphaStart
  | some _ => ∃ safeguard θ, (k.safeguard s k.par.gamma).answer = .ok (.ok safeguard) ∧
      (safeguard.fraction 0 (Vec.zeros k.n) (Vec.scale s.alphaStart s.direction)).answer = .ok θ ∧
      b = s.alphaStart * θ

theorem safeLength_spec :
    wp W (safeLength k s.alphaStart) (fun b t => t = s ∧ SafeLength k s b) (fun _ t => t = s) s := by
  unfold safeLength
  cases hp : k.problem.inequality with
  | none =>
    rw [if_pos (by simp)]
    exact wp_pure ⟨rfl, by simp [SafeLength, hp]⟩
  | some c =>
    rw [if_neg (by simp)]
    refine wp_bind (wp_getState (wp_bind (wp_lift (fun q hq => ?_) fun _ _ => rfl)))
    split
    · exact wp_fail rfl
    · refine wp_bind (wp_lift (fun θ hθ => wp_pure ⟨rfl, ?_⟩) fun _ _ => rfl)
      simp only [SafeLength, hp]
      exact ⟨_, θ, hq, hθ, rfl⟩

/-- A probe at `s`: the trial point at its length, and its merit. -/
structure Probe.At (k : Setup F) (s : State F) (p : Probe F) : Prop where
  trial : k.problem.trial s.x s.direction p.alpha = .ok p.trial
  merit : p.merit = p.trial.probeMerit s.mu

/-- A set `L` of lengths no search leaves; `Z` has the lower ends of the brackets besides. -/
structure Lengths (Z L : F → Prop) : Prop where
  zero : Z 0
  lower : ∀ a, L a → Z a
  half : ∀ a, L a → L (Scalar.half * a)
  below : ∀ a b, Z a → L b → L (b - goldenRatio * (b - a))
  above : ∀ a b, Z a → L b → L (a + goldenRatio * (b - a))

/-- What probing at `s` has to bring along: the watch sees the trial points at lengths of a set. -/
structure Probing (k : Setup F) (W : Watch F) (E : Halt → State F → Prop) (s : State F) (Z L : F → Prop) :
    Prop extends Lengths Z L where
  sees : ∀ p : Probe F, L p.alpha → p.At k s → W.trial s p.trial
  halted : ∀ p, E (.panic p) s

variable {E : Halt → State F → Prop} {Z L : F → Prop}

/-- What a probe answers: its state is left alone, its length is in the set. -/
abbrev Probed (k : Setup F) (s : State F) (L : F → Prop) (p : Probe F) : Prop := L p.alpha ∧ p.At k s

theorem probe_wp (pr : Probing k W E s Z L) {a : F} (ha : L a) :
    wp W (probe k a) (fun p t => t = s ∧ p.alpha = a ∧ Probed k s L p) E s := by
  unfold probe
  refine wp_bind (wp_getState (wp_bind (wp_tryStep (fun t ht => ?_) pr.halted)))
  have hat : Probe.At k s ⟨a, t, t.probeMerit s.mu⟩ := ⟨ht, rfl⟩
  exact ⟨pr.sees _ ha hat, wp_pure ⟨rfl, rfl, ha, hat⟩⟩

/-- A bracket whose ends and probes are in a set of lengths. -/
structure Bracket.Within (k : Setup F) (s : State F) (Z L : F → Prop) (br : Bracket F) : Prop where
  a : Z br.a
  b : L br.b
  left : Probed k s L br.left
  right : Probed k s L br.right

theorem Bracket.narrow_wp (pr : Probing k W E s Z L) {br : Bracket F} (h : br.Within k s Z L) :
    wp W (br.narrow k) (fun br t => t = s ∧ br.Within k s Z L) E s := by
  unfold Bracket.narrow
  split
  · refine wp_bind (wp_mono (probe_wp pr (pr.below _ _ h.a h.right.1)) ?_ fun _ _ h => h)
    rintro p t ⟨rfl, -, hp⟩
    exact wp_pure ⟨rfl, h.a, h.right.1, hp, h.left⟩
  · refine wp_bind (wp_mono (probe_wp pr (pr.above _ _ (pr.lower _ h.left.1) h.b)) ?_ fun _ _ h => h)
    rintro p t ⟨rfl, -, hp⟩
    exact wp_pure ⟨rfl, pr.lower _ h.left.1, h.b, h.right, hp⟩

theorem Bracket.narrowTimes_wp (pr : Probing k W E s Z L) (n : Nat) {br : Bracket F} (h : br.Within k s Z L) :
    wp W (br.narrowTimes k n) (fun br t => t = s ∧ br.Within k s Z L) E s := by
  induction n generalizing br with
  | zero => exact wp_pure ⟨rfl, h⟩
  | succ n ih =>
    refine wp_bind (wp_mono (narrow_wp pr h) ?_ fun _ _ h => h)
    rintro br t ⟨rfl, hbr⟩
    exact ih hbr

theorem goldenSection_wp (pr : Probing k W E s Z L) (iterMax : Nat) {a : F} (ha : L a) :
    wp W (goldenSection k iterMax a) (fun r t => t = s ∧ Probed k s L r.1) E s := by
  unfold goldenSection
  refine wp_bind (wp_mono (probe_wp pr (pr.below _ _ pr.zero ha)) ?_ fun _ _ h => h)
  rintro left t ⟨rfl, -, hleft⟩
  split
  · exact wp_pure ⟨rfl, hleft⟩
  · refine wp_bind (wp_mono (probe_wp pr (pr.above _ _ pr.zero ha)) ?_ fun _ _ h => h)
    rintro right t ⟨rfl, -, hright⟩
    refine wp_bind (wp_mono (Bracket.narrowTimes_wp pr _ ⟨pr.zero, ha, hleft, hright⟩) ?_ fun _ _ h => h)
    rintro br t ⟨rfl, hbr⟩
    refine wp_pure ⟨rfl, ?_⟩
    dsimp only
    split
    · exact hbr.left
    · exact hbr.right

theorem backTrack_wp (pr : Probing k W E s Z L) (limit slope : F) (budget evals : Nat) {a : F} (ha : L a) :
    wp W (backTrack k limit slope budget evals a) (fun r t => t = s ∧ Probed k s L r.1) E s := by
  induction budget generalizing evals a with
  | zero =>
    refine wp_bind (wp_mono (probe_wp pr ha) ?_ fun _ _ h => h)
    rintro p t ⟨rfl, -, hp⟩
    exact wp_pure ⟨rfl, hp⟩
  | succ budget ih =>
    refine wp_bind (wp_mono (probe_wp pr ha) ?_ fun _ _ h => h)
    rintro p t ⟨rfl, -, hp⟩
    split
    · exact wp_pure ⟨rfl, hp⟩
    · exact ih _ (pr.half _ ha)

theorem search_wp (pr : Probing k W E s Z L) (limit slope : F) {a : F} (ha : L a) :
    wp W (search k a limit slope) (fun r t => t = s ∧ Probed k s L r.1) E s := by
  have hone : wp W (do return (← probe k a, 1)) (fun r t => t = s ∧ Probed k s L r.1) E s := by
    refine wp_bind (wp_mono (probe_wp pr ha) ?_ fun _ _ h => h)
    rintro p t ⟨rfl, -, hp⟩
    exact wp_pure ⟨rfl, hp⟩
  unfold search
  split
  · exact goldenSection_wp pr _ ha
  · exact backTrack_wp pr limit slope _ _ ha
  · exact hone
  · exact hone

/-! ### The step -/

/-- The states of a line-search step that goes on, with a direction in `D` and a starting length in `A`. -/
structure Searching (c : Kept F) (D : Vec F → Prop) (A : F → Prop) (s : State F) : Prop extends Active c s where
  direction : D s.direction
  alphaStart : A s.alphaStart

/-- The lengths of the searches from `s` are measured against `r`. -/
structure Refers (s : State F) (r : Reference F) : Prop where
  values : r = reference s r.slope
  slope : Descends s r.slope

/-- The probe `p` is taken from `s`: its merit is finite, and low enough where the length rule asks for it. -/
structure Approves (k : Setup F) (s : State F) (r : Reference F) (p : Probe F) : Prop where
  refers : Refers s r
  finite : Scalar.isFinite p.merit = true
  decrease : k.par.lengthRule.isSufficientDecrease = true → p.merit ≤ r.limit + k.par.c1 * p.alpha * r.slope

/-- What the state `t` that accepts the probe `p` of `s` records of it. -/
structure Recorded (k : Setup F) (s : State F) (p : Probe F) (t : State F) : Prop where
  direction : t.direction = s.direction
  alpha : t.alpha = p.alpha
  dx : t.dx = Vec.scale p.alpha s.direction
  alphaStart : t.alphaStart = nextStart k.par.direction p.alpha

/-- What a statement about a line-search step has to bring along: a set `D` of directions and a set `A` of
starting lengths that the step keeps to, and for each starting length the lengths `L` it is cut to. -/
structure SearchFrame (k : Setup F) (W : Watch F) (Q : Unit → State F → Prop) (E : Halt → State F → Prop)
    (c : Kept F) (D : Vec F → Prop) (A : F → Prop) (L : State F → F → F → Prop) : Prop where
  hooks : k.hooks.StepOnly
  visit : ∀ loc s, loc.OnStep → s.kept = c → W.visit loc s
  failed : ∀ s, s.kept = c → s.stop = .globalizationFailure → Q () s
  vanished : ∀ s b, Searching c D A s → SafeLength k s b → ¬ 0 < b → Q () { s with stop := .interiorPointInstability }
  halted : ∀ e s, s.kept = c → E e s
  descent : D (Vec.scale (-1) c.grad)
  directed : ∀ s d, s.kept = c → D s.direction → Directed k s (lastDirection k s) d → D d
  usable : ∀ a, 0 < a → Scalar.isFinite a = true → A a
  probing : ∀ s b, Searching c D A s → SafeLength k s b → 0 < b →
    A (Scalar.half * b) ∧ L s b b ∧ ∃ Z, Probing k W E s Z (L s b)
  accepted : ∀ s b r p t, Searching c D A s → SafeLength k s b → Probed k s (L s b) p → Approves k s r p →
    Active c t → Recorded k s p t → wp W (accept k p.trial) Q E t

variable {Q : Unit → State F → Prop} {c : Kept F} {D : Vec F → Prop} {A : F → Prop} {L : State F → F → F → Prop}

theorem Refers.of_kept {t : State F} {r : Reference F} (h : Refers s r) (ht : t.kept = s.kept)
    (hdir : t.direction = s.direction) : Refers t r := by
  have hf : t.f = s.f := congrArg Kept.f ht
  have hh : t.h = s.h := congrArg Kept.h ht
  have hmu : t.mu = s.mu := congrArg Kept.mu ht
  have hgrad : t.grad = s.grad := congrArg Kept.grad ht
  have hnorm : t.normGrad = s.normGrad := congrArg Kept.normGrad ht
  constructor
  · unfold reference
    rw [hf, hh, hmu]
    exact h.values
  · exact h.slope.of_eq hgrad hnorm hdir

theorem SearchFrame.hook (fr : SearchFrame k W Q E c D A L) (hs : Searching c D A s) (loc : Location) :
    Searching c D A (k.hooks.manipulate loc s) := by
  obtain ⟨dx, hdx⟩ := fr.hooks.writes loc s
  rw [hdx]
  exact ⟨⟨hs.kept, hs.running⟩, hs.direction, hs.alphaStart⟩

/-- What an attempt ends in under a frame: the start of another one against the same reference, or an end of the
step. -/
def AttemptEnds (Q : Unit → State F → Prop) (c : Kept F) (D : Vec F → Prop) (A : F → Prop) (r : Reference F)
    (more : Bool) (t : State F) : Prop :=
  if more then Searching c D A t ∧ Refers t r else Q () t

theorem reject_wp (fr : SearchFrame k W Q E c D A L) (hs : Searching c D A s) {r : Reference F} (hr : Refers s r)
    {a : F} (p : Probe F) (ha : A (Scalar.half * a)) : wp W (reject k r a p) (AttemptEnds Q c D A r) E s := by
  unfold reject
  refine wp_bind (wp_update_of (P := fun t => Searching c D A t ∧ Refers t r)
    ⟨⟨⟨hs.kept, hs.running⟩, hs.direction, ha⟩, hr.of_kept rfl rfl⟩ ?_)
  rintro t ⟨ht, hr⟩
  refine wp_bind (wp_getState (wp_bind (wp_log (wp_bind (wp_quiet fr.hooks nofun (fr.visit _ _ trivial ht.kept) ?_)))))
  refine wp_bind (wp_getState ?_)
  split
  · exact wp_bind (wp_log (wp_bind (wp_setStop (wp_pure (fr.failed _ ht.kept rfl)))))
  · refine wp_pure ?_
    unfold AttemptEnds
    rw [if_pos (by simpa using ht.running)]
    exact ⟨ht, hr⟩

theorem attempt_wp (fr : SearchFrame k W Q E c D A L) (hs : Searching c D A s) {r : Reference F} (hr : Refers s r) :
    wp W (attempt k r) (AttemptEnds Q c D A r) E s := by
  unfold attempt
  refine wp_bind (wp_getState (wp_bind (wp_mono safeLength_spec ?_ fun e t h => fr.halted e t (h ▸ hs.kept))))
  rintro b t ⟨rfl, hb⟩
  split
  case isTrue hpos =>
    exact wp_bind (wp_getState (wp_bind (wp_log (wp_bind (wp_setStop (wp_pure (fr.vanished t b hs hb hpos)))))))
  case isFalse hpos =>
    obtain ⟨hhalf, hL, Z, hpr⟩ := fr.probing t b hs hb (Classical.not_not.mp hpos)
    refine wp_bind (wp_mono (search_wp hpr r.limit r.slope hL) ?_ fun _ _ h => h)
    rintro ⟨p, evals⟩ u ⟨rfl, hp⟩
    refine wp_bind (wp_update_of (P := fun t => Searching c D A t ∧ t.kept = u.kept ∧ t.direction = u.direction)
      ⟨⟨⟨hs.kept, hs.running⟩, hs.direction, hs.alphaStart⟩, rfl, rfl⟩ fun t ht => ?_)
    obtain ⟨ht, hkept, hdir⟩ := ht
    dsimp only
    split
    case isTrue h =>
      have happroves : Approves k u r p := by
        refine ⟨hr, h.1, fun hrule => ?_⟩
        rcases h.2 with hle | hnot
        · exact of_decide_eq_true hle
        · simp [hrule] at hnot
      refine wp_bind (wp_mono ?_ (fun _ t (h : Q () t) => wp_pure h) fun _ _ h => h)
      refine wp_bind (wp_update_of (P := fun v => Active c v ∧ Recorded k u p v) ?_ fun v hv => ?_)
      · exact ⟨⟨ht.kept, ht.running⟩, hdir, rfl, congrArg (Vec.scale p.alpha) hdir, rfl⟩
      · exact fr.accepted u b r p v hs hb hp happroves hv.1 hv.2
    case isFalse => exact reject_wp fr ht (hr.of_kept hkept hdir) p hhalf

theorem attempts_wp (fr : SearchFrame k W Q E c D A L) {r : Reference F} (fuel : Nat)
    (hs : Searching c D A s) (hr : Refers s r) : wp W (attempts k r fuel) Q E s := by
  induction fuel generalizing s with
  | zero => exact wp_throw (fr.halted _ _ hs.kept)
  | succ fuel ih =>
    refine wp_bind (wp_mono (attempt_wp fr hs hr) ?_ fun _ _ h => h)
    rintro (_ | _) t ht
    · exact wp_pure ht
    · exact ih ht.1 ht.2

theorem step_wp (fr : SearchFrame k W Q E c D A L) (hs : Searching c D A s) : wp W (step k) Q E s := by
  unfold step
  refine wp_bind (wp_visit (fr.visit _ _ trivial hs.kept) ?_)
  have hs := fr.hook hs .beforeGetStep
  generalize k.hooks.manipulate .beforeGetStep s = s at hs
  refine wp_bind (wp_mono updateDirection_spec ?_ fun e t h => fr.halted e t (h.trans hs.kept))
  rintro o t ⟨ht, hd⟩
  have hk := ht.kept.trans hs.kept
  split
  case h_1 e =>
    exact wp_bind (wp_stepFailure (wp_pure (fr.failed _ hk rfl)) fun f => fr.halted _ _ hk)
  case h_2 ho =>
    have ho : o = .ok () := by
      rcases o with e | ⟨⟨⟩⟩
      · exact absurd rfl (ho e)
      · rfl
    refine wp_bind (wp_stopped ?_)
    rcases ht.stop with hstop | hstop
    case inr =>
      rw [if_pos (by simp [hstop])]
      exact wp_pure (fr.failed t hk hstop)
    case inl =>
      rw [hstop, hs.running]
      have ht : Searching c D A t := {
        kept := hk
        running := hstop.trans hs.running
        direction := fr.directed s _ hs.kept hs.direction (hd ho)
        alphaStart := ht.alphaStart ▸ hs.alphaStart }
      refine wp_bind (wp_visit (fr.visit _ _ trivial hk) ?_)
      have ht := fr.hook ht .getStep
      generalize k.hooks.manipulate .getStep t = t at ht
      refine wp_bind (wp_mono descend_spec ?_ fun e u h => fr.halted e u (h ▸ ht.kept))
      rintro slope u ⟨hsame, hstop, hdir, hslope⟩
      have hdir : D u.direction := by
        have hgrad : t.grad = c.grad := congrArg Kept.grad ht.kept
        rcases hdir with h | h <;> rw [h]
        · exact ht.direction
        · exact hgrad ▸ fr.descent
      have hu : Searching c D A u :=
        ⟨⟨hsame.kept.trans ht.kept, hstop.trans ht.running⟩, hdir, hsame.alphaStart ▸ ht.alphaStart⟩
      have hgo : ∀ v, Searching c D A v → Descends v slope → wp W (do
          visit k .beforeLineSearch
          attempts k (reference (← getState) slope) (k.par.rejectedMax + patience)) Q E v := by
        intro v hv hslope
        refine wp_bind (wp_quiet fr.hooks nofun (fr.visit _ _ trivial hv.kept) (wp_bind (wp_getState ?_)))
        exact attempts_wp fr _ hv ⟨rfl, hslope⟩
      refine wp_bind (wp_getState (wp_bind (wp_lift (fun q hq => ?_) fun p _ => fr.halted _ _ hu.kept)))
      split
      case h_1 a =>
        obtain ⟨hpos, hfin⟩ := twoPointLength?_usable (Checked.lift_answer hq)
        refine wp_bind (wp_update_of (P := fun v => Searching c D A v ∧ Descends v slope) ?_ fun v hv => hgo v hv.1 hv.2)
        exact ⟨⟨⟨hu.kept, hu.running⟩, hu.direction, fr.usable a hpos hfin⟩, hslope.of_eq rfl rfl rfl⟩
      case h_2 => exact hgo u hu hslope

end LineSearch
end ConstrainedOpt
