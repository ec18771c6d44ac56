import ConstrainedOpt.Run.Iteration
import ConstrainedOpt.Proofs.Run.Search

/-! # Steps of any driver

A step keeps its part of the state until it accepts a trial point that passes, whichever driver takes it.
-/
namespace ConstrainedOpt
variable {F : Type} [Scalar F] {k : Setup F} {W : Watch F} {Q : Unit → State F → Prop}
  {E : Halt → State F → Prop} {c : Kept F} {s : State F}
open Running

namespace LineSearch

/-- A frame bounds a line search in no other way than it bounds any step, apart from one whose length vanishes. -/
theorem searchFrame (fr : MoveFrame k W Q E c) (hvanished : ∀ s b, Active c s → SafeLength k s b → ¬ 0 < b →
      Q () { s with stop := .interiorPointInstability }) :
    SearchFrame k W Q E c (fun _ => True) (fun _ => True) (fun _ _ _ => True) where
  hooks := fr.hooks
  visit := fr.visit
  failed := fr.failed
  vanished s b hs := hvanished s b hs.toActive
  halted := fr.halted
  descent := trivial
  directed _ _ _ _ _ := trivial
  usable _ _ _ := trivial
  probing s _ hs _ _ := ⟨trivial, trivial, fun _ => True, {
    zero := trivial
    lower := fun _ _ => trivial
    half := fun _ _ => trivial
    below := fun _ _ _ _ => trivial
    above := fun _ _ _ _ => trivial
    sees := fun _ _ _ => fr.trial s _ hs.kept
    halted := fun _ => fr.halted _ s hs.kept }⟩
  accepted s _ _ p t hs _ hp happroves ht hrec := by
    have heq := ht.kept.trans hs.kept.symm
    have hx : t.x = s.x := congrArg Kept.x heq
    have hmu : t.mu = s.mu := congrArg Kept.mu heq
    refine fr.accepted t p.trial ht (.along (hx ▸ hp.2.trial) hrec.dx) (.probe ?_)
    rw [hmu]
    exact hp.2.merit ▸ happroves.finite

end LineSearch

namespace UserStep

/-- What a statement about the steps of the manipulator has to bring along: what is known of the step it supplies where it
is shown a zero step, and what becomes of each end of the step. -/
structure SupplyFrame (k : Setup F) (W : Watch F) (Q : Unit → State F → Prop) (E : Halt → State F → Prop) (c : Kept F)
    (Z : Vec F → Prop) : Prop where
  hooks : k.hooks.StepOnly
  visit : ∀ loc s, loc.OnStep → s.kept = c → W.visit loc s
  trial : ∀ s t, s.kept = c → W.trial s t
  supplied : ∀ s d, Active c s → s.dx = Vec.zerosLike d → Z (k.hooks.manipulate .getStep s).dx
  accepted : ∀ s t, Active c s → Z s.dx → s.dx.length = k.n → k.problem.trial s.x s.dx 1 = .ok t → t.Passes s →
    wp W (accept k t) Q E s
  refused : ∀ s t, Active c s → k.problem.trial s.x s.dx 1 = .ok t → Scalar.isFinite (t.barrier s.mu) = false →
    Q () { s with stop := .interiorPointInstability }
  halted : ∀ e s, s.kept = c → E e s

theorem supplied_wp {Z : Vec F → Prop} (fr : SupplyFrame k W Q E c Z) (hs : Active c s) : wp W (step k) Q E s := by
  unfold step
  refine wp_bind (wp_quiet fr.hooks nofun (fr.visit _ _ trivial hs.kept) ?_)
  refine wp_bind (wp_update_of (P := fun t => Active c t ∧ t.dx = Vec.zerosLike s.dx) ⟨⟨hs.kept, hs.running⟩, rfl⟩ ?_)
  rintro t ⟨ht, hzero⟩
  refine wp_bind (wp_visit (fr.visit _ _ trivial ht.kept) ?_)
  have hsupplied := fr.supplied t _ ht hzero
  obtain ⟨dx, hdx⟩ := fr.hooks.atGetStep t
  have ht : Active c (k.hooks.manipulate .getStep t) := hdx ▸ ⟨ht.kept, ht.running⟩
  generalize k.hooks.manipulate .getStep t = t at ht hsupplied
  have hgo : t.dx.length = k.n → wp W (do
      update fun s => { s with normDx := Vec.norm s.dx }
      let r ← tryStep k t.dx 1
      if !Scalar.isFinite (r.barrier t.mu) then
        log .warn ["user-defined step left the strictly feasible region"]
        setStop .interiorPointInstability
      else accept k r) Q E t := by
    intro hlen
    refine wp_bind (wp_update_of (P := fun u => Active c u ∧ u.dx = t.dx) ⟨⟨ht.kept, ht.running⟩, rfl⟩ ?_)
    rintro u ⟨hu, hstep⟩
    refine wp_bind (wp_tryStep (fun r hr => ⟨fr.trial _ _ hu.kept, ?_⟩) fun _ => fr.halted _ _ hu.kept)
    have hmu : u.mu = t.mu := congrArg Kept.mu (hu.kept.trans ht.kept.symm)
    rw [← hstep] at hr hsupplied hlen
    split
    case isTrue h => exact wp_bind (wp_log (wp_setStop (fr.refused u r hu hr (by simpa [hmu] using h))))
    case isFalse h =>
      exact fr.accepted u r hu hsupplied hlen hr (.barrier (by simpa [hmu] using h))
  refine wp_bind (wp_getState ?_)
  split
  · exact wp_bind (wp_log (wp_bind (wp_fail (fr.halted _ _ ht.kept))))
  case isFalse hlen => exact hgo (Decidable.not_not.mp hlen)

/-- A frame bounds the steps of the manipulator in no other way than it bounds any step, apart from those that are
refused. -/
theorem supplyFrame (fr : MoveFrame k W Q E c) (hrefused : ∀ s t, Active c s → k.problem.trial s.x s.dx 1 = .ok t →
      Scalar.isFinite (t.barrier s.mu) = false → Q () { s with stop := .interiorPointInstability }) :
    SupplyFrame k W Q E c fun _ => True where
  hooks := fr.hooks
  visit := fr.visit
  trial := fr.trial
  supplied _ _ _ _ := trivial
  accepted s t hs _ _ ht hpass := fr.accepted s t hs (.whole ht) hpass
  refused := hrefused
  halted := fr.halted

theorem step_wp (fr : StepFrame k W Q E c) (hs : Active c s) : wp W (step k) Q E s :=
  supplied_wp (supplyFrame fr.toMoveFrame fun _ _ ht _ _ => fr.stuck _ ⟨ht.kept, .inr rfl⟩) hs

end UserStep

/-- A step of any driver obeys a frame. -/
theorem takeStep_wp (fr : StepFrame k W Q E c) (hs : Active c s) : wp W (takeStep k) Q E s := by
  unfold takeStep
  split
  · exact TrustRegion.step_wp fr hs
  · exact LineSearch.step_wp (LineSearch.searchFrame fr.toMoveFrame fun _ _ ht _ _ => fr.stuck _ ⟨ht.kept, .inr rfl⟩)
      ⟨hs, trivial, trivial⟩
  · exact UserStep.step_wp fr hs

end ConstrainedOpt
