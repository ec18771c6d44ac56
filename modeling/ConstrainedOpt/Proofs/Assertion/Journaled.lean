import ConstrainedOpt.Journal

/-! # What a journaled computation answers

`c.Ensures Q` says that an answer of `c` satisfies `Q` whatever the journal holds when it starts, so the
rules below compose without a word about notes. A computation that panics ensures everything; one that yields `Q`
does not panic.
-/
namespace ConstrainedOpt

/-- A checked computation answers, and its answer satisfies `Q`. -/
def Checked.Answers {α : Type} (c : Checked α) (Q : α → Prop) : Prop := ∃ a, c = .ok a ∧ Q a

namespace Journaled
variable {F α β : Type}

/-- The answer of a computation that starts with an empty journal. -/
def answer (c : Journaled F α) : Checked α := (c.run #[]).1

def Ensures (c : Journaled F α) (Q : α → Prop) : Prop :=
  ∀ notes a rest, c.run notes = (.ok a, rest) → Q a

theorem Ensures.answer {c : Journaled F α} {Q : α → Prop} (h : c.Ensures Q) {a : α}
    (ha : c.answer = .ok a) : Q a := h #[] a (c.run #[]).2 (Prod.ext ha rfl)

theorem Ensures.mono {c : Journaled F α} {P Q : α → Prop} (h : c.Ensures P) (hPQ : ∀ a, P a → Q a) :
    c.Ensures Q := fun notes a rest he => hPQ a (h notes a rest he)

theorem Ensures.and {c : Journaled F α} {P Q : α → Prop} (hP : c.Ensures P) (hQ : c.Ensures Q) :
    c.Ensures fun a => P a ∧ Q a := fun notes a rest he => ⟨hP notes a rest he, hQ notes a rest he⟩

theorem ensures_true (c : Journaled F α) : c.Ensures fun _ => True := fun _ _ _ _ => trivial

theorem ensures_forall {ι : Sort _} {c : Journaled F α} {Q : ι → α → Prop} (h : ∀ i, c.Ensures (Q i)) :
    c.Ensures fun a => ∀ i, Q i a := fun notes a rest he i => h i notes a rest he

theorem ensures_pure {a : α} {Q : α → Prop} (h : Q a) : Ensures (pure a : Journaled F α) Q := by
  intro notes b rest he
  cases he
  exact h

theorem run_bind (c : Journaled F α) (f : α → Journaled F β) (notes : Array (Note F)) :
    (c >>= f).run notes =
      match c.run notes with
      | (.ok a, rest) => (f a).run rest
      | (.error e, rest) => (.error e, rest) := by
  rw [ExceptT.run_bind]
  simp only [bind, StateT.bind]
  rcases c.run notes with ⟨a | e, rest⟩ <;> rfl

theorem ensures_bind {c : Journaled F α} {f : α → Journaled F β} {P : α → Prop} {Q : β → Prop}
    (hc : c.Ensures P) (hf : ∀ a, P a → (f a).Ensures Q) : (c >>= f).Ensures Q := by
  intro notes b rest he
  rw [run_bind] at he
  rcases h : c.run notes with ⟨e | a, mid⟩
  · rw [h] at he
    cases he
  · rw [h] at he
    exact hf a (hc notes a mid h) mid b rest he

theorem ensures_lift {c : Checked α} {Q : α → Prop} (h : ∀ a, c = .ok a → Q a) :
    Ensures (liftM c : Journaled F α) Q := by
  intro notes a rest he
  cases he
  exact h a rfl

/-- The computation may answer `a`. -/
def Returns (c : Journaled F α) (a : α) : Prop := ∃ notes rest, c.run notes = (.ok a, rest)

theorem ensures_returns (c : Journaled F α) : c.Ensures c.Returns := fun notes _ rest h => ⟨notes, rest, h⟩

theorem Returns.ensured {c : Journaled F α} {a : α} (h : c.Returns a) {Q : α → Prop} (hQ : c.Ensures Q) : Q a := by
  obtain ⟨notes, rest, hrun⟩ := h
  exact hQ notes a rest hrun

/-! ### Answers for certain -/

def Yields (c : Journaled F α) (Q : α → Prop) : Prop :=
  ∀ notes, ∃ a rest, c.run notes = (.ok a, rest) ∧ Q a

theorem Yields.answer {c : Journaled F α} {Q : α → Prop} (h : c.Yields Q) : ∃ a, c.answer = .ok a ∧ Q a := by
  obtain ⟨a, rest, hrun, ha⟩ := h #[]
  exact ⟨a, congrArg Prod.fst hrun, ha⟩

theorem Yields.ensures {c : Journaled F α} {Q : α → Prop} (h : c.Yields Q) : c.Ensures Q := by
  intro notes b rest hb
  obtain ⟨a, rest', hrun, ha⟩ := h notes
  cases hb.symm.trans hrun
  exact ha

theorem Yields.mono {c : Journaled F α} {P Q : α → Prop} (h : c.Yields P) (hPQ : ∀ a, P a → Q a) : c.Yields Q := by
  intro notes
  obtain ⟨a, rest, hrun, ha⟩ := h notes
  exact ⟨a, rest, hrun, hPQ a ha⟩

/-- What an answer satisfies is satisfied by an answer that comes for certain. -/
theorem Yields.and {c : Journaled F α} {P Q : α → Prop} (h : c.Yields P) (hQ : c.Ensures Q) :
    c.Yields fun a => P a ∧ Q a := by
  intro notes
  obtain ⟨a, rest, hrun, ha⟩ := h notes
  exact ⟨a, rest, hrun, ha, hQ notes a rest hrun⟩

theorem yields_pure {a : α} {Q : α → Prop} (h : Q a) : Yields (pure a : Journaled F α) Q :=
  fun notes => ⟨a, notes, rfl, h⟩

theorem yields_bind {c : Journaled F α} {f : α → Journaled F β} {P : α → Prop} {Q : β → Prop}
    (hc : c.Yields P) (hf : ∀ a, P a → (f a).Yields Q) : (c >>= f).Yields Q := by
  intro notes
  obtain ⟨a, mid, hrun, ha⟩ := hc notes
  obtain ⟨b, rest, hrun', hb⟩ := hf a ha mid
  refine ⟨b, rest, ?_, hb⟩
  rw [run_bind, hrun, ← hrun']

theorem yields_lift {c : Checked α} {Q : α → Prop} (h : c.Answers Q) : Yields (liftM c : Journaled F α) Q := by
  obtain ⟨a, rfl, ha⟩ := h
  exact fun notes => ⟨a, notes, rfl, ha⟩

/-- A sequence goes on with what a checked computation answers. -/
theorem yields_lift_bind {c : Checked α} {a : α} (hc : c = .ok a) {f : α → Journaled F β} {Q : β → Prop}
    (h : (f a).Yields Q) : (liftM c >>= f).Yields Q :=
  yields_bind (yields_lift ⟨a, hc, rfl⟩) fun _ hb => hb ▸ h

theorem yields_log (level : Level) (message : Message F) : (log level message).Yields fun _ => True :=
  fun _ => ⟨(), _, rfl, trivial⟩

end Journaled

namespace Checked
variable {α β : Type}

/-- A checked computation answers the same as a part of a journaled one. -/
theorem lift_answer {F : Type} {c : Checked α} {a : α}
    (h : Journaled.answer (liftM c : Journaled F α) = .ok a) : c = .ok a := h

/-- A sequence answers through the answer of its first part. -/
theorem bind_eq_ok {c : Checked α} {f : α → Checked β} {b : β} :
    c >>= f = .ok b ↔ ∃ a, c = .ok a ∧ f a = .ok b := by
  constructor
  · intro h
    rcases c with e | a
    · cases h
    · exact ⟨a, rfl, h⟩
  · rintro ⟨a, rfl, h⟩
    exact h

theorem length_of_mapM {f : α → Checked β} {xs : List α} {ys : List β} (h : xs.mapM f = .ok ys) :
    ys.length = xs.length := by
  induction xs generalizing ys with
  | nil =>
    cases h
    rfl
  | cons x xs ih =>
    rw [List.mapM_cons] at h
    obtain ⟨y, _, h⟩ := bind_eq_ok.mp h
    obtain ⟨rest, hrest, h⟩ := bind_eq_ok.mp h
    cases h
    simp [ih hrest]

theorem mem_of_mapM {f : α → Checked β} {xs : List α} {ys : List β} (h : xs.mapM f = .ok ys) :
    ∀ y ∈ ys, ∃ x ∈ xs, f x = .ok y := by
  induction xs generalizing ys with
  | nil =>
    cases h
    nofun
  | cons x xs ih =>
    rw [List.mapM_cons] at h
    obtain ⟨y, hy, h⟩ := bind_eq_ok.mp h
    obtain ⟨rest, hrest, h⟩ := bind_eq_ok.mp h
    cases h
    intro z hz
    rcases List.mem_cons.mp hz with rfl | hz
    · exact ⟨x, List.mem_cons_self, hy⟩
    · obtain ⟨w, hw, hz⟩ := ih hrest z hz
      exact ⟨w, List.mem_cons_of_mem x hw, hz⟩

theorem Answers.mono {c : Checked α} {P Q : α → Prop} (h : c.Answers P) (hPQ : ∀ a, P a → Q a) : c.Answers Q := by
  obtain ⟨a, ha, hp⟩ := h
  exact ⟨a, ha, hPQ a hp⟩

theorem answers_bind {c : Checked α} {f : α → Checked β} {P : α → Prop} {Q : β → Prop} (hc : c.Answers P)
    (hf : ∀ a, P a → (f a).Answers Q) : Answers (c >>= f) Q := by
  obtain ⟨a, rfl, ha⟩ := hc
  exact hf a ha

theorem answers_foldlM {f : β → α → Checked β} {P : β → Prop} {l : List α}
    (hf : ∀ b t, t ∈ l → P b → (f b t).Answers P) {b : β} (hb : P b) : Answers (l.foldlM f b) P := by
  induction l generalizing b with
  | nil => exact ⟨b, rfl, hb⟩
  | cons t l ih =>
    rw [List.foldlM_cons]
    refine answers_bind (hf b t List.mem_cons_self hb) fun c hc => ?_
    exact ih (fun b u hu => hf b u (List.mem_cons_of_mem t hu)) hc

theorem answers_mapM {f : α → Checked β} {P : β → Prop} {l : List α} (hf : ∀ t ∈ l, (f t).Answers P) :
    Answers (l.mapM f) fun ys => ∀ y ∈ ys, P y := by
  induction l with
  | nil => exact ⟨[], rfl, by simp⟩
  | cons t l ih =>
    rw [List.mapM_cons]
    refine answers_bind (hf t List.mem_cons_self) fun y hy => ?_
    refine answers_bind (ih fun u hu => hf u (List.mem_cons_of_mem t hu)) fun ys hys => ⟨_, rfl, ?_⟩
    simpa using ⟨hy, hys⟩

end Checked
end ConstrainedOpt
