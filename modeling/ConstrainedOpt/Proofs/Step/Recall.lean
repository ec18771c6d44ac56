import ConstrainedOpt.Proofs.Assertion.Agreement
import ConstrainedOpt.Proofs.Step.Ring
import ConstrainedOpt.Scalar.Binary64

/-! # Residuals that are compared

A solve in work memory compares a residual with the preconditioned residuals of the last passes since the recurrence
last started, each once, whatever the memory held before, and it never leaves the memory of the ring. So it answers as a
solve that makes its slots as it needs them.
-/
namespace ConstrainedOpt.TruncatedCG
open Journaled
variable {F : Type} [Scalar F] {k : Model F} {it it' : Iterate F} {ring ring' : Ring F} {past slots : List (Slot F)}
  {notes mid rest : Array (Note F)} {z p hp : Vec F} {rz normZ : F}

/-! ### The rest of a pass does not look at the slots -/

def Progress.withSlots (slots : List (Slot F)) : Progress F → Progress F
  | .next it => .next { it with slots }
  | .stop reason it => .stop reason { it with slots }

theorem followNegative_withSlots (p : Vec F) (rp κ : F) :
    followNegative k { it with slots } p rp κ = Progress.withSlots slots <$> followNegative k it p rp κ := by
  unfold followNegative
  simp only [map_bind, map_pure]
  rfl

theorem restart_withSlots (p : Vec F) (α fraction rp κ : F) :
    restart k { it with slots } p α fraction rp κ = Progress.withSlots slots <$> restart k it p α fraction rp κ := by
  unfold restart
  simp only [map_bind, map_pure, apply_ite (Progress.withSlots slots <$> ·)]
  rfl

theorem followPositive_withSlots (z p hp : Vec F) (rz rp κ : F) :
    followPositive k { it with slots } z p hp rz rp κ =
      Progress.withSlots slots <$> followPositive k it z p hp rz rp κ := by
  unfold followPositive
  simp only [map_bind, map_pure, apply_ite (Progress.withSlots slots <$> ·), ← restart_withSlots]
  rfl

theorem follow_withSlots (z p hp : Vec F) (rz normZ : F) :
    follow k { it with slots } z p hp rz normZ = Progress.withSlots slots <$> follow k it z p hp rz normZ := by
  unfold follow
  simp only [map_bind, apply_ite (Progress.withSlots slots <$> ·), ← followNegative_withSlots,
    ← followPositive_withSlots]

/-- Of the slots the check of the residuals reads the first ones. -/
theorem residualFault_take (z : Vec F) (rz : F) :
    residualFault? k.par { it with slots := slots.take (min k.par.orthogMax it.seq) } z rz =
      residualFault? k.par { it with slots } z rz := by
  unfold residualFault?
  dsimp only
  rw [List.take_take, min_self]

/-! ### Passes that go on -/

/-- After `seq` passes since the last start and `failed` cuts by the safeguard, a pass that goes on counts both on or
starts again from a cut. -/
structure Iterate.GoesOn (k : Model F) (seq failed : Nat) (it : Iterate F) : Prop where
  residual : it.r.length = k.g.length
  previous : it.previous = none ↔ it.seq = 0
  seq : it.seq = if failed < it.failedSafeguard then 0 else seq + 1

def Progress.GoesOn (k : Model F) (seq failed : Nat) : Progress F → Prop
  | .next it => it.GoesOn k seq failed
  | .stop _ _ => True

theorem restart_goesOn (p : Vec F) (α fraction rp κ : F) (seq : Nat) :
    (restart k it p α fraction rp κ).Ensures (Progress.GoesOn k seq it.failedSafeguard) := by
  unfold restart
  refine ensures_bind (ensures_true _) fun s _ => ensures_bind (ensures_true _) fun x _ => ?_
  dsimp only
  split
  · exact ensures_pure trivial
  · refine ensures_bind (ensures_true _) fun _ _ => ensures_bind (ensures_true _) fun hs _ => ?_
    refine ensures_bind (ensures_lift fun r hr => hr) fun r hr => ensures_pure ⟨?_, by simp, ?_⟩
    · rw [Vec.length_scale, Checked.add_length hr, (Checked.add_eq_ok.mp hr).1]
    · exact (if_pos (Nat.lt_succ_self _)).symm

theorem follow_goesOn (hr : it.r.length = k.g.length) (z p hp : Vec F) (rz normZ : F) :
    (follow k it z p hp rz normZ).Ensures (Progress.GoesOn k it.seq it.failedSafeguard) := by
  unfold follow
  refine ensures_bind (ensures_true _) fun κ _ => ensures_bind (ensures_true _) fun rp _ => ?_
  refine ensures_bind (ensures_true _) fun _ _ => ?_
  split
  · unfold followNegative
    exact ensures_bind (ensures_true _) fun _ _ => ensures_bind (ensures_true _) fun _ _ =>
      ensures_bind (ensures_true _) fun _ _ => ensures_pure trivial
  · unfold followPositive
    refine ensures_bind (ensures_true _) fun target _ => ensures_bind (ensures_true _) fun α _ => ?_
    dsimp only
    split
    · exact ensures_pure trivial
    · refine ensures_bind (ensures_true _) fun fraction _ => ?_
      split
      · exact restart_goesOn _ _ _ _ _ _
      · refine ensures_bind (ensures_true _) fun s _ => ensures_bind (ensures_true _) fun x _ => ?_
        split
        · exact ensures_pure trivial
        · refine ensures_bind (ensures_lift fun r h => h) fun r h => ensures_pure ⟨?_, by simp, ?_⟩
          · exact (Checked.add_length h).trans hr
          · exact (if_neg (lt_irrefl _)).symm

/-! ### One pass -/

/-- What is in memory at the head of a pass, with the entries of the passes since the last start. -/
structure Ring.KeepsUp (ring : Ring F) (k : Model F) (it : Iterate F) (past : List (Slot F)) : Prop where
  residual : it.r.length = k.g.length
  seq : past.length = it.seq
  previous : it.previous = none ↔ it.seq = 0
  sized : ring.Sized k.g.length k.par.orthogMax
  recalls : Recalls (ring.slots k.g.length) k.par.orthogMax past

/-- The entries since the last start when a pass with the entry `e` leads from `it` to `it'`: none, if the safeguard cut
its step. -/
def pastAfter (past : List (Slot F)) (e : Slot F) (it it' : Iterate F) : List (Slot F) :=
  if it.failedSafeguard < it'.failedSafeguard then [] else past ++ [e]

omit [Scalar F] in
theorem Recalls.pastAfter {size : Nat} {e : Slot F} (h : Recalls slots size (past ++ [e])) :
    Recalls slots size (pastAfter past e it it') := by
  unfold TruncatedCG.pastAfter
  split
  · exact recalls_nil _ _
  · exact h

omit [Scalar F] in
theorem Iterate.GoesOn.length_pastAfter {e : Slot F} (h : it'.GoesOn k it.seq it.failedSafeguard)
    (hseq : past.length = it.seq) : (pastAfter past e it it').length = it'.seq := by
  rw [h.seq, ← hseq]
  unfold pastAfter
  split
  · rfl
  · rw [List.length_append, List.length_singleton]

/-- How a pass over slots that are made as they are needed goes on, and one over a ring. -/
inductive Advanced (k : Model F) (it : Iterate F) (z : Vec F) (past : List (Slot F)) :
    Progress F → Progress F × Ring F → Prop
  | next {it' : Iterate F} {ring' : Ring F} {slots' : List (Slot F)} {rz : F} (hrz : Checked.inner it.r z = .ok rz)
      (hring : ring'.KeepsUp k it' (pastAfter past ⟨z, rz⟩ it it'))
      (hslots : Recalls slots' k.par.orthogMax (pastAfter past ⟨z, rz⟩ it it')) :
      Advanced k it z past (.next { it' with slots := slots' }) (.next it', ring')
  | stop (reason : TruncatedStop) (it' : Iterate F) (ring' : Ring F) (slots' : List (Slot F)) :
      Advanced k it z past (.stop reason { it' with slots := slots' }) (.stop reason it', ring')

/-- The rest of a pass over slots that are made as they are needed. -/
def advance (k : Model F) (it : Iterate F) (z : Vec F) : Journaled F (Progress F) := do
  let normZ := Vec.norm z
  if normZ ≤ k.par.eps * it.normZ0 then return .stop .relativeErrorSmall it
  let rz ← Checked.inner it.r z
  if let some fault ← residualFault? k.par it z rz then return .stop fault it
  let it := { it with slots := record k.par.orthogMax it.seq ⟨z, rz⟩ it.slots }
  let p ← direction it z rz
  let hp ← k.H.apply 1 p 0 (Vec.zerosLike p)
  if !Vec.isFinite hp then return .stop .nanOperator it
  if let some fault ← directionFault? k.par it p hp then return .stop fault it
  follow k it z p hp rz normZ

theorem pass_eq : pass k it = (do
    match ← precondition k it.r with
    | .error fault => return .stop fault it
    | .ok z => advance k (it.begun z) z) := rfl

theorem Ring.KeepsUp.residualFault_eq (h : ring.KeepsUp k it past) (hslots : Recalls slots k.par.orthogMax past) :
    residualFault? k.par { it with slots := (ring.slots k.g.length).take (min k.par.orthogMax it.seq) } z rz =
      residualFault? k.par { it with slots } z rz := by
  have htake := h.recalls.take_eq hslots
  rw [h.seq] at htake
  rw [htake, residualFault_take]

/-- A pass over a ring does what it does over slots that recall the same. -/
theorem advanceIn_agree (h : ring.KeepsUp k it past) (hslots : Recalls slots k.par.orthogMax past) :
    Agree notes (Advanced k it z past) (advance k { it with slots } z) (advanceIn k it ring z) := by
  unfold advance advanceIn
  dsimp only
  split
  · exact agree_pure (.stop _ it ring slots)
  · refine agree_bind (ensures_lift fun rz hrz => hrz) fun rz notes hrz => ?_
    refine agree_lift h.sized.compared_eq ?_
    rw [h.residualFault_eq hslots]
    refine agree_bind (ensures_true _) fun fault? notes _ => ?_
    rcases fault? with _ | fault
    · have hzlen : z.length = k.g.length := (Checked.inner_eq_ok.mp hrz).1.symm.trans h.residual
      obtain ⟨ring', hrecord, hsized, hrecalls⟩ := h.sized.record_answers (e := ⟨z, rz⟩) h.recalls hzlen
      rw [h.seq] at hrecord
      refine agree_lift hrecord ?_
      -- from here on neither of the two looks at its slots
      refine agree_bind (ensures_true _) fun p notes _ => agree_bind (ensures_true _) fun hp notes _ => ?_
      split
      · exact agree_pure (.stop _ it ring' _)
      · refine agree_bind (ensures_true _) fun fault? notes _ => ?_
        rcases fault? with _ | fault
        · dsimp only
          rw [follow_withSlots, map_eq_pure_bind]
          refine agree_bind (follow_goesOn h.residual z p hp rz (Vec.norm z)) fun pr notes hpr => agree_pure ?_
          cases pr with
          | next it' =>
            exact .next hrz ⟨hpr.residual, hpr.length_pastAfter h.seq, hpr.previous, hsized, hrecalls.pastAfter⟩
              (h.seq ▸ hslots.record _).pastAfter
          | stop reason it' => exact .stop reason it' ring' _
        · exact agree_pure (.stop _ it ring' _)
    · exact agree_pure (.stop _ it ring slots)

theorem begun_withSlots : Iterate.begun { it with slots } z = { it.begun z with slots } := by
  unfold Iterate.begun
  split <;> rfl

theorem begun_r : (it.begun z).r = it.r := by
  unfold Iterate.begun
  split <;> rfl

theorem pastAfter_begun (e : Slot F) : pastAfter past e (it.begun z) it' = pastAfter past e it it' := by
  unfold Iterate.begun
  split <;> rfl

theorem Ring.KeepsUp.begun (h : ring.KeepsUp k it past) (z : Vec F) : ring.KeepsUp k (it.begun z) past := by
  unfold Iterate.begun
  split
  · exact ⟨h.residual, h.seq, h.previous, h.sized, h.recalls⟩
  · exact h

theorem passIn_agree (h : ring.KeepsUp k it past) (hslots : Recalls slots k.par.orthogMax past) :
    Agree notes (fun a b => ∃ it z, Advanced k it z past a b) (pass k { it with slots }) (passIn k it ring) := by
  rw [pass_eq]
  unfold passIn
  refine agree_bind (ensures_true _) fun answer notes _ => ?_
  rcases answer with fault | z
  · exact agree_pure ⟨it, [], .stop fault it ring slots⟩
  · dsimp only
    rw [begun_withSlots]
    exact (advanceIn_agree (h.begun z) hslots).mono fun a b hab => ⟨_, z, hab⟩

/-! ### Runs -/

/-- The answers of two solves whose iterates differ in their slots only. -/
def SameButSlots (a b : TruncatedStop × Iterate F) : Prop := ∃ slots, a = (b.1, { b.2 with slots })

theorem iterateIn_agree (budget : Nat) (h : ring.KeepsUp k it past) (hslots : Recalls slots k.par.orthogMax past) :
    Agree notes SameButSlots (iterate k budget { it with slots }) (iterateIn k budget it ring) := by
  induction budget generalizing it ring past slots notes with
  | zero => exact agree_pure ⟨slots, rfl⟩
  | succ budget ih =>
    unfold iterate iterateIn
    refine (passIn_agree h hslots).bind fun a b notes hab => ?_
    obtain ⟨it₁, z, hab⟩ := hab
    cases hab with
    | next hrz hring hslots => exact ih hring hslots
    | stop reason it' ring' slots' => exact agree_pure ⟨slots', rfl⟩

omit [Scalar F] in
theorem Ring.ofWork_answers {n size : Nat} {work : Vec F} (hwork : workLength n size ≤ work.length) :
    (Ring.ofWork n size work).Answers fun ring => ring.Sized n size := by
  unfold workLength at hwork
  unfold Ring.ofWork
  rw [Checked.split_eq_ok (by omega)]
  change (Checked.splitTwice (work.drop (n * 11)) (size * n) size >>= _).Answers _
  rw [Checked.splitTwice_eq_ok (by rw [List.length_drop]; omega)]
  refine ⟨_, rfl, ?_, ?_⟩
  · rw [List.length_take, List.length_drop]
    omega
  · rw [List.length_take, List.length_drop, List.length_drop]
    omega

theorem keepsUp_start (h : ring.Sized k.g.length k.par.orthogMax) (offset : Vec F) :
    ring.KeepsUp k (start k.g offset) [] where
  residual := Vec.length_scale _ _
  seq := rfl
  previous := iff_of_true rfl rfl
  sized := h
  recalls := recalls_nil _ _

/-- Work memory serves a solve only as memory. -/
theorem solveIn_eq (k : Model F) (offset s work : Vec F) : solveIn k offset s work = solve k offset s work.length := by
  refine (eq_of_agree fun notes => ?_).symm
  unfold solveIn solve
  dsimp only
  split
  · exact agree_refl _ _
  split
  · exact agree_refl _ _
  split
  case isTrue => exact agree_refl _ _
  case isFalse hwork =>
    obtain ⟨ring, hring, hsized⟩ := Ring.ofWork_answers (Nat.le_of_not_lt hwork)
    refine agree_lift hring ?_
    refine agree_bind (ensures_true _) fun fault? notes _ => ?_
    rcases fault? with _ | fault
    · have hstart := keepsUp_start (k := k) hsized offset
      refine (iterateIn_agree k.par.iterMax hstart (recalls_nil _ _)).bind fun a b notes hab => ?_
      obtain ⟨slots, rfl⟩ := hab
      exact agree_refl _ _
    · exact agree_refl _ _

/-- A pass that goes on has recorded its entry. -/
theorem Ring.KeepsUp.pass (h : ring.KeepsUp k it past)
    (hpass : (passIn k it ring).run notes = (.ok (.next it', ring'), rest)) :
    ∃ z mid rz, (precondition k it.r).run notes = (.ok (.ok z), mid) ∧ Checked.inner it.r z = .ok rz ∧
      ring'.KeepsUp k it' (pastAfter past ⟨z, rz⟩ it it') := by
  unfold passIn at hpass
  rw [run_bind] at hpass
  rcases hz : (precondition k it.r).run notes with ⟨e | fault | z, mid⟩ <;> rw [hz] at hpass
  · cases hpass
  · cases hpass
  · obtain ⟨_, -, hadvanced⟩ := (advanceIn_agree (h.begun z) h.recalls).of_answer hpass
    cases hadvanced with
    | next hrz hring =>
      rw [begun_r] at hrz
      rw [pastAfter_begun] at hring
      exact ⟨z, mid, _, rfl, hrz, hring⟩

/-- What there is when a pass begins. -/
structure Head (F : Type) where
  it : Iterate F
  ring : Ring F
  /-- The entries of the passes since the last start. -/
  past : List (Slot F)
  notes : Array (Note F)

namespace Head

/-- What there is when the next pass begins, if this one goes on. -/
def next (k : Model F) (h : Head F) : Option (Head F) :=
  match (precondition k h.it.r).run h.notes, (passIn k h.it h.ring).run h.notes with
  | (.ok (.ok z), _), (.ok (.next it', ring'), rest) =>
      (Checked.inner h.it.r z).toOption.map fun rz => ⟨it', ring', pastAfter h.past ⟨z, rz⟩ h.it it', rest⟩
  | _, _ => none

/-- A pass of a solve that started with `ring₀` in memory begins so. -/
inductive Reached (k : Model F) (offset : Vec F) (ring₀ : Ring F) : Head F → Prop
  | start (notes : Array (Note F)) : Reached k offset ring₀ ⟨TruncatedCG.start k.g offset, ring₀, [], notes⟩
  | next {h h' : Head F} (hreached : Reached k offset ring₀ h) (hnext : h.next k = some h') : Reached k offset ring₀ h'

variable {h h' : Head F}

theorem next_keepsUp (hnext : h.next k = some h') (hh : h.ring.KeepsUp k h.it h.past) :
    h'.ring.KeepsUp k h'.it h'.past := by
  unfold next at hnext
  split at hnext
  case h_1 z mid it' ring' rest hz hpass =>
    obtain ⟨z', mid', rz, hz', hrz, hring⟩ := hh.pass hpass
    cases hz.symm.trans hz'
    rw [hrz] at hnext
    cases hnext
    exact hring
  case h_2 => cases hnext

theorem exists_next (hh : h.ring.KeepsUp k h.it h.past)
    (hpass : (passIn k h.it h.ring).run h.notes = (.ok (.next it', ring'), rest)) :
    ∃ past', h.next k = some ⟨it', ring', past', rest⟩ := by
  obtain ⟨z, mid, rz, hz, hrz, -⟩ := hh.pass hpass
  refine ⟨pastAfter h.past ⟨z, rz⟩ h.it it', ?_⟩
  unfold next
  rw [hz, hpass]
  dsimp only
  rw [hrz]
  rfl

theorem Reached.keepsUp {offset : Vec F} {ring₀ : Ring F} (hh : h.Reached k offset ring₀)
    (hsized : ring₀.Sized k.g.length k.par.orthogMax) : h.ring.KeepsUp k h.it h.past := by
  induction hh with
  | start notes => exact keepsUp_start hsized offset
  | next _ hnext ih => exact next_keepsUp hnext ih

/-- The check of a pass reads what the last passes since the last start have left. -/
structure Recent (k : Model F) (h : Head F) : Prop where
  seq : h.past.length = h.it.seq
  /-- There is a check unless the pass is the first one since then. -/
  previous : h.it.previous = none ↔ h.it.seq = 0
  z : h.ring.z.length = k.par.orthogMax * k.g.length
  rz : h.ring.rz.length = k.par.orthogMax
  compared : ∃ slots, h.ring.compared k h.it = .ok slots ∧ slots.Perm (h.past.rtake (min k.par.orthogMax h.it.seq))
  record : ∀ e, e.z.length = k.g.length → ∃ ring', h.ring.record k h.it.seq e = .ok ring'

end Head

omit [Scalar F] in
theorem Ring.KeepsUp.recent {h : Head F} (hh : h.ring.KeepsUp k h.it h.past) : h.Recent k where
  seq := hh.seq
  previous := hh.previous
  z := hh.sized.z
  rz := hh.sized.rz
  compared := ⟨_, hh.sized.compared_eq, hh.seq ▸ hh.recalls.perm⟩
  record e he := by
    obtain ⟨ring', hrecord, -⟩ := hh.sized.record_answers hh.recalls he
    exact ⟨ring', hh.seq ▸ hrecord⟩

/-- Whatever work memory holds when a solve starts, each check of the residuals reads the entries of the last passes
since the last start, each once, within the ring. So the answer is that of a solve without memory. -/
theorem solve_compares_recent (k : Model F) (offset s work : Vec F)
    (hwork : workLength k.g.length k.par.orthogMax ≤ work.length) :
    solveIn k offset s work = solve k offset s work.length ∧
      ∃ ring₀, Ring.ofWork k.g.length k.par.orthogMax work = .ok ring₀ ∧
        ∀ h : Head F, h.Reached k offset ring₀ → h.Recent k ∧
          ∀ it ring rest, (passIn k h.it h.ring).run h.notes = (.ok (.next it, ring), rest) →
            ∃ past, Head.Reached k offset ring₀ ⟨it, ring, past, rest⟩ := by
  obtain ⟨ring₀, hring₀, hsized⟩ := Ring.ofWork_answers hwork
  refine ⟨solveIn_eq k offset s work, ring₀, hring₀, fun h hreached => ?_⟩
  have hh := hreached.keepsUp hsized
  refine ⟨hh.recent, fun it ring rest hpass => ?_⟩
  obtain ⟨past, hnext⟩ := Head.exists_next hh hpass
  exact ⟨past, hreached.next hnext⟩

/-! ### Memory that nothing has cleared -/

/-- Axes that curve more and more, and a safeguard that cuts the second step. -/
def curved : Model Float where
  par := { TruncatedParam.default with orthogMax := 2 }
  H := (⟨.diagonal 3, #[1, 2, 4], rfl⟩ : Matrix Float).operator
  B := .identity 3
  C := .identity 3
  g := [1, 1, 1]
  δ := 10
  safeguard := .ofFractions [1, 1, 0.5]

/-- Work memory that holds no numbers. -/
def uncleared : Vec Float := List.replicate 41 Scalar.nan

/-- The pass after the one that follows the cut. -/
theorem curved_reaches : ∃ h : Head Float, h.Reached curved [0, 0, 0] ⟨uncleared.take 6, uncleared.take 2⟩ ∧
    h.it.seq = 1 ∧ h.it.failedSafeguard = 1 := by
  have hfound : (((Head.next curved ⟨start curved.g [0, 0, 0], ⟨uncleared.take 6, uncleared.take 2⟩, [], #[]⟩).bind
      fun h => h.next curved).bind fun h => h.next curved).map (fun h => (h.it.seq, h.it.failedSafeguard)) =
        some (1, 1) := by decide +kernel
  obtain ⟨h, hthird, hcounts⟩ := Option.map_eq_some_iff.mp hfound
  obtain ⟨h₂, hsecond, hthird⟩ := Option.bind_eq_some_iff.mp hthird
  obtain ⟨h₁, hfirst, hsecond⟩ := Option.bind_eq_some_iff.mp hsecond
  obtain ⟨hseq, hfailed⟩ := Prod.mk.inj hcounts
  exact ⟨h, .next (.next (.next (.start #[]) hfirst) hsecond) hthird, hseq, hfailed⟩

theorem solve_compares_recent_uncleared :
    workLength curved.g.length curved.par.orthogMax ≤ uncleared.length ∧
      solveIn curved [0, 0, 0] [0, 0, 0] uncleared = solve curved [0, 0, 0] [0, 0, 0] 41 ∧
      ∃ ring₀ h, Ring.ofWork 3 2 uncleared = .ok ring₀ ∧ Head.Reached curved [0, 0, 0] ring₀ h ∧ h.it.seq = 1 ∧
        h.it.failedSafeguard = 1 ∧ h.Recent curved := by
  have hwork : workLength curved.g.length curved.par.orthogMax ≤ uncleared.length := by decide
  obtain ⟨hsolve, ring₀, hring₀, hrecent⟩ := solve_compares_recent curved [0, 0, 0] [0, 0, 0] uncleared hwork
  have hring : Ring.ofWork 3 2 uncleared = .ok ⟨uncleared.take 6, uncleared.take 2⟩ := rfl
  cases hring.symm.trans hring₀
  obtain ⟨h, hreached, hseq, hfailed⟩ := curved_reaches
  exact ⟨hwork, hsolve, _, h, hring, hreached, hseq, hfailed, (hrecent h hreached).1⟩

end ConstrainedOpt.TruncatedCG
