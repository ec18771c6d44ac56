import ConstrainedOpt.Proofs.Assertion.Journaled

/-! # What a journaled computation writes

A quiet computation only adds to the journal, and nothing it adds is an error. One that tells its faults has written an
error last when it answers with a fault, and not the one about the initial point, which is harmless.
-/
namespace ConstrainedOpt
variable {F α β : Type}

/-- Neither an error nor a failure. -/
def Note.Quiet : Note F → Prop
  | .record level _ => level ≠ .error
  | .failure _ => False
  | .line _ | .row _ => True

/-- The record that the initial point does not qualify. -/
def Note.unqualified (f : F) : Note F :=
  .record .error ["initial point: f(x) ", .scientific 2 f, ", not strictly feasible or not finite"]

/-- Neither an error nor a failure, unless it is about the initial point. -/
def Note.Harmless (n : Note F) : Prop := n.Quiet ∨ ∃ f, n = .unqualified f

theorem Note.not_harmless {m : Message F} (h : m.head? ≠ some (.text "initial point: f(x) ")) :
    ¬ (Note.record .error m).Harmless := by
  rintro (hquiet | ⟨f, hf⟩)
  · exact hquiet rfl
  · cases hf
    exact h rfl

namespace Journaled

/-! ### Quiet computations -/

def Quiet (c : Journaled F α) : Prop :=
  ∀ notes, ∃ new, (c.run notes).2.toList = notes.toList ++ new ∧ ∀ n ∈ new, n.Quiet

theorem quiet_pure (a : α) : Quiet (pure a : Journaled F α) :=
  fun _ => ⟨[], (List.append_nil _).symm, List.forall_mem_nil _⟩

/-- What comes after an answer is asked to be quiet only for answers there can be. -/
theorem quiet_bind {c : Journaled F α} {f : α → Journaled F β} {P : α → Prop} (hc : c.Quiet) (hP : c.Ensures P)
    (hf : ∀ a, P a → (f a).Quiet) : (c >>= f).Quiet := by
  intro notes
  obtain ⟨new, hnew, hquiet⟩ := hc notes
  rw [run_bind]
  rcases h : c.run notes with ⟨e | a, mid⟩ <;> rw [h] at hnew
  · exact ⟨new, hnew, hquiet⟩
  · obtain ⟨new', hnew', hquiet'⟩ := hf a (hP notes a mid h) mid
    refine ⟨new ++ new', ?_, fun n hn => ?_⟩
    · rw [hnew', hnew, List.append_assoc]
    · exact (List.mem_append.mp hn).elim (hquiet n) (hquiet' n)

theorem Quiet.bind {c : Journaled F α} {f : α → Journaled F β} (hc : c.Quiet) (hf : ∀ a, (f a).Quiet) :
    (c >>= f).Quiet := quiet_bind hc (ensures_true c) fun a _ => hf a

theorem quiet_lift (c : Checked α) : Quiet (liftM c : Journaled F α) :=
  fun _ => ⟨[], (List.append_nil _).symm, List.forall_mem_nil _⟩

theorem quiet_note {n : Note F} (hn : n.Quiet) : (note n).Quiet :=
  fun _ => ⟨[n], Array.toList_push, fun _ hm => List.mem_singleton.mp hm ▸ hn⟩

theorem quiet_log {level : Level} (hlevel : level ≠ .error) (message : Message F) : (log level message).Quiet :=
  quiet_note hlevel

/-! ### Quiet answers -/

/-- The computation answers for certain, and is quiet. -/
structure Settles (c : Journaled F α) (Q : α → Prop) : Prop where
  yields : c.Yields Q
  quiet : c.Quiet

theorem settles_pure {a : α} {Q : α → Prop} (h : Q a) : Settles (pure a : Journaled F α) Q :=
  ⟨yields_pure h, quiet_pure a⟩

theorem settles_bind {c : Journaled F α} {f : α → Journaled F β} {P : α → Prop} {Q : β → Prop} (hc : c.Settles P)
    (hf : ∀ a, P a → (f a).Settles Q) : (c >>= f).Settles Q where
  yields := yields_bind hc.yields fun a ha => (hf a ha).yields
  quiet := quiet_bind hc.quiet hc.yields.ensures fun a ha => (hf a ha).quiet

theorem settles_lift {c : Checked α} {Q : α → Prop} (h : c.Answers Q) : Settles (liftM c : Journaled F α) Q :=
  ⟨yields_lift h, quiet_lift c⟩

theorem settles_note {n : Note F} (hn : n.Quiet) : (note n).Settles fun _ => True :=
  ⟨fun _ => ⟨(), _, rfl, trivial⟩, quiet_note hn⟩

/-! ### Faults that are told -/

/-- When the answer is a fault, the last thing written is not harmless. -/
def Tells (c : Journaled F α) (fault : α → Prop) : Prop :=
  ∀ notes a rest, c.run notes = (.ok a, rest) → fault a → ∃ n, rest.back? = some n ∧ ¬ n.Harmless

variable {fault : α → Prop}

theorem tells_pure {a : α} (h : ¬ fault a) : Tells (pure a : Journaled F α) fault := by
  intro notes b rest hrun hb
  cases hrun
  exact absurd hb h

theorem tells_bind {c : Journaled F β} {f : β → Journaled F α} (hf : ∀ b, (f b).Tells fault) :
    (c >>= f).Tells fault := by
  intro notes a rest hrun
  rw [run_bind] at hrun
  rcases h : c.run notes with ⟨e | b, mid⟩ <;> rw [h] at hrun
  · cases hrun
  · exact hf b mid a rest hrun

theorem tells_error {m : Message F} (a : α) (hm : m.head? ≠ some (.text "initial point: f(x) ")) :
    Tells (do log .error m; return a) fault := by
  intro notes b rest hrun _
  cases hrun
  exact ⟨_, Array.back?_push, Note.not_harmless hm⟩

/-- A fault that is passed on stays the last thing told. -/
theorem Tells.bind {c : Journaled F β} {f : β → Journaled F α} {inner : β → Prop} (hc : c.Tells inner)
    (hf : ∀ b, (inner b ∧ ∃ a, f b = pure a) ∨ (f b).Tells fault) : (c >>= f).Tells fault := by
  intro notes a rest hrun ha
  rw [run_bind] at hrun
  rcases h : c.run notes with ⟨e | b, mid⟩ <;> rw [h] at hrun
  · cases hrun
  · rcases hf b with ⟨hb, a', ha'⟩ | hf
    · dsimp only at hrun
      rw [ha'] at hrun
      cases hrun
      exact hc notes b _ h hb
    · exact hf mid a rest hrun ha

end Journaled
end ConstrainedOpt
