import ConstrainedOpt.Proofs.Assertion.Journaled

/-! # Journaled computations that agree

Started with the same journal two computations agree when they write the same and either answer both, with related
answers, or panic alike. A computation that is a part of both is run once.
-/
namespace ConstrainedOpt.Journaled
variable {F α β γ δ : Type} {notes mid rest : Array (Note F)}

def Agree (notes : Array (Note F)) (R : α → β → Prop) (c : Journaled F α) (d : Journaled F β) : Prop :=
  (∃ a b rest, c.run notes = (.ok a, rest) ∧ d.run notes = (.ok b, rest) ∧ R a b) ∨
    ∃ e rest, c.run notes = (.error e, rest) ∧ d.run notes = (.error e, rest)

variable {R : α → β → Prop} {S : γ → δ → Prop} {c : Journaled F α} {d : Journaled F β}

theorem agree_pure {a : α} {b : β} (h : R a b) : Agree notes R (pure a) (pure b) := .inl ⟨a, b, notes, rfl, rfl, h⟩

theorem agree_refl (notes : Array (Note F)) (c : Journaled F α) : Agree notes Eq c c := by
  rcases hrun : c.run notes with ⟨e | a, rest⟩
  · exact .inr ⟨e, rest, hrun, hrun⟩
  · exact .inl ⟨a, a, rest, hrun, hrun, rfl⟩

theorem Agree.mono {R' : α → β → Prop} (h : Agree notes R c d) (hR : ∀ a b, R a b → R' a b) : Agree notes R' c d := by
  rcases h with ⟨a, b, rest, hc, hd, hab⟩ | herr
  · exact .inl ⟨a, b, rest, hc, hd, hR a b hab⟩
  · exact .inr herr

theorem Agree.bind {f : α → Journaled F γ} {g : β → Journaled F δ} (h : Agree notes R c d)
    (hf : ∀ a b mid, R a b → Agree mid S (f a) (g b)) : Agree notes S (c >>= f) (d >>= g) := by
  unfold Agree
  rw [run_bind, run_bind]
  rcases h with ⟨a, b, mid, hc, hd, hR⟩ | ⟨e, mid, hc, hd⟩ <;> rw [hc, hd]
  · exact hf a b mid hR
  · exact .inr ⟨e, mid, rfl, rfl⟩

/-- Both begin with a computation whose answer is known. -/
theorem agree_after {f : α → Journaled F γ} {g : α → Journaled F δ} {a : α} (hc : c.run notes = (.ok a, mid))
    (h : Agree mid S (f a) (g a)) : Agree notes S (c >>= f) (c >>= g) := by
  unfold Agree
  rw [run_bind, run_bind, hc]
  exact h

/-- Both begin with the same computation. -/
theorem agree_bind {f : α → Journaled F γ} {g : α → Journaled F δ} {P : α → Prop} (hc : c.Ensures P)
    (hf : ∀ a mid, P a → Agree mid S (f a) (g a)) : Agree notes S (c >>= f) (c >>= g) := by
  rcases hrun : c.run notes with ⟨e | a, mid⟩
  · unfold Agree
    rw [run_bind, run_bind, hrun]
    exact .inr ⟨e, mid, rfl, rfl⟩
  · exact agree_after hrun (hf a mid (hc notes a mid hrun))

/-- One of the two has a step more, which is sure to answer. -/
theorem agree_lift {g : α → Journaled F δ} {a : α} {x : Checked α} {c : Journaled F γ} (hx : x = .ok a)
    (h : Agree notes S c (g a)) : Agree notes S c (liftM x >>= g) := by
  subst hx
  exact h

theorem Agree.of_answer {b : β} (h : Agree notes R c d) (hd : d.run notes = (.ok b, rest)) :
    ∃ a, c.run notes = (.ok a, rest) ∧ R a b := by
  rcases h with ⟨a, b', rest', hc, hd', hR⟩ | ⟨e, rest', -, hd'⟩ <;> cases hd.symm.trans hd'
  exact ⟨a, hc, hR⟩

theorem eq_of_agree {c d : Journaled F α} (h : ∀ notes, Agree notes Eq c d) : c = d := by
  refine funext fun notes => ?_
  rcases h notes with ⟨a, _, rest, hc, hd, rfl⟩ | ⟨e, rest, hc, hd⟩ <;> exact hc.trans hd.symm

end ConstrainedOpt.Journaled
