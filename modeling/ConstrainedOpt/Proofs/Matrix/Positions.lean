import ConstrainedOpt.Matrix.Layout

/-! # Positions and indices

The stored positions of a layout, in their order, have the indices from zero on, and every position that is stored has one of
them. Only the mirrored positions of a packed matrix share an index.
-/
namespace ConstrainedOpt.Layout
variable {m n r c : Nat}

/-! ### Positions -/

theorem position?_general (hr : r < m) (hc : c < n) : (general m n).position? r c = some (c * m + r) := if_pos ⟨hr, hc⟩

theorem position?_packed (hr : r < n) (hc : c < n) :
    (packed n).position? r c = some (max r c * (max r c + 1) / 2 + min r c) := if_pos ⟨hr, hc⟩

theorem position?_diagonal (hr : r < n) : (diagonal n).position? r r = some r := by simp [position?, rows, cols, hr]

/-- The positions that are stored. -/
def Stores (l : Layout) (r c : Nat) : Prop :=
  match l with
  | general m n => r < m ∧ c < n
  | packed n => r < n ∧ c < n
  | diagonal n => r < n ∧ r = c

theorem isSome_position? {l : Layout} : (l.position? r c).isSome = true ↔ l.Stores r c := by
  cases l with
  | general m n | packed n => exact Option.isSome_ite
  | diagonal n =>
    by_cases h : r = c
    · simp [position?, rows, cols, Stores, h]
    · simp [position?, Stores, h]

/-- Symmetric layouts store mirrored positions in one place. -/
theorem position?_comm {l : Layout} (h : l.isSymmetric = true) (r c : Nat) : l.position? r c = l.position? c r := by
  cases l with
  | general => simp [isSymmetric] at h
  | packed n =>
    simp only [position?, rows, cols, Nat.max_comm r c, Nat.min_comm r c, and_comm]
  | diagonal n =>
    by_cases hrc : r = c
    · rw [hrc]
    · simp [position?, hrc, Ne.symm hrc]

/-! ### Their order -/

theorem mem_stored_general : (r, c) ∈ (general m n).stored ↔ r < m ∧ c < n := by
  simp only [stored, List.mem_flatMap, List.mem_map, List.mem_range, Prod.mk.injEq]
  constructor
  · rintro ⟨c, hc, r, hr, rfl, rfl⟩
    exact ⟨hr, hc⟩
  · rintro ⟨hr, hc⟩
    exact ⟨c, hc, r, hr, rfl, rfl⟩

theorem mem_stored_packed : (r, c) ∈ (packed n).stored ↔ r ≤ c ∧ c < n := by
  simp only [stored, List.mem_flatMap, List.mem_map, List.mem_range, Prod.mk.injEq]
  constructor
  · rintro ⟨c, hc, r, hr, rfl, rfl⟩
    exact ⟨Nat.le_of_lt_succ hr, hc⟩
  · rintro ⟨hr, hc⟩
    exact ⟨c, hc, r, Nat.lt_succ_of_le hr, rfl, rfl⟩

/-- Positions listed column by column are counted through by what the columns before take up. -/
theorem map_columns (width offset : Nat → Nat) (n : Nat) (hzero : offset 0 = 0)
    (hsucc : ∀ c, offset (c + 1) = offset c + width c) :
    ((List.range n).flatMap fun c => (List.range (width c)).map fun r => (r, c)).map (fun p => offset p.2 + p.1) =
      List.range (offset n) := by
  induction n with
  | zero => simp [hzero]
  | succ n ih =>
    rw [List.range_succ, List.flatMap_append, List.map_append, ih, hsucc, List.range_add]
    simp [Function.comp_def]

/-- What the first columns of a packed matrix take up. -/
theorem packed_succ (c : Nat) : (c + 1) * (c + 1 + 1) / 2 = c * (c + 1) / 2 + (c + 1) := by
  have h : (c + 1) * (c + 1 + 1) = c * (c + 1) + (c + 1) * 2 := by grind
  omega

/-- The indices of the stored positions, in their order, are the numbers from zero on. -/
theorem map_position?_stored (l : Layout) : l.stored.map (fun p => l.position? p.1 p.2) = (List.range l.size).map some := by
  cases l with
  | general m n =>
    have hcount := map_columns (fun _ => m) (fun c => c * m) n (by simp) (by simp [Nat.add_mul])
    rw [size, Nat.mul_comm m n, ← hcount, List.map_map]
    refine List.map_congr_left ?_
    rintro ⟨r, c⟩ hp
    obtain ⟨hr, hc⟩ := mem_stored_general.mp hp
    exact position?_general hr hc
  | packed n =>
    have hcount := map_columns (fun c => c + 1) (fun c => c * (c + 1) / 2) n (by simp) packed_succ
    rw [size, ← hcount, List.map_map]
    refine List.map_congr_left ?_
    rintro ⟨r, c⟩ hp
    obtain ⟨hr, hc⟩ := mem_stored_packed.mp hp
    rw [position?_packed (Nat.lt_of_le_of_lt hr hc) hc, Nat.max_eq_right hr, Nat.min_eq_left hr]
    rfl
  | diagonal n =>
    rw [size, stored, List.map_map]
    refine List.map_congr_left fun i hi => ?_
    exact position?_diagonal (List.mem_range.mp hi)

theorem length_stored (l : Layout) : l.stored.length = l.size := by
  simpa using congrArg List.length l.map_position?_stored

theorem position?_of_stored {l : Layout} {k : Nat} (h : l.stored[k]? = some (r, c)) : l.position? r c = some k := by
  have hsize : k < l.size := l.length_stored ▸ (List.getElem?_eq_some_iff.mp h).1
  have hk := congrArg (fun is => is[k]?) l.map_position?_stored
  simpa [h, hsize] using hk

/-- A stored position is listed, or the mirrored one in its place. -/
theorem exists_mem_stored {l : Layout} (h : l.Stores r c) :
    (r, c) ∈ l.stored ∨ (∃ n, l = packed n) ∧ (c, r) ∈ l.stored := by
  cases l with
  | general m n => exact .inl (mem_stored_general.mpr h)
  | packed n =>
    rcases Nat.le_total r c with hrc | hrc
    · exact .inl (mem_stored_packed.mpr ⟨hrc, h.2⟩)
    · exact .inr ⟨⟨n, rfl⟩, mem_stored_packed.mpr ⟨hrc, h.1⟩⟩
  | diagonal n =>
    obtain ⟨hr, rfl⟩ := h
    exact .inl (List.mem_map.mpr ⟨r, List.mem_range.mpr hr, rfl⟩)

/-- The index of a position finds it in the list, or the mirrored one. -/
theorem stored_of_position? {l : Layout} {i : Nat} (h : l.position? r c = some i) :
    l.stored[i]? = some (r, c) ∨ (∃ n, l = packed n) ∧ l.stored[i]? = some (c, r) := by
  have hlisted : ∀ p ∈ l.stored, l.position? p.1 p.2 = some i → l.stored[i]? = some p := by
    intro p hp hi
    obtain ⟨k, hk⟩ := List.mem_iff_getElem?.mp hp
    obtain rfl : k = i := Option.some.inj ((position?_of_stored hk).symm.trans hi)
    exact hk
  rcases exists_mem_stored (isSome_position?.mp (Option.isSome_iff_exists.mpr ⟨i, h⟩)) with hp | ⟨⟨n, rfl⟩, hp⟩
  · exact .inl (hlisted _ hp h)
  · exact .inr ⟨⟨n, rfl⟩, hlisted _ hp ((position?_comm rfl c r).trans h)⟩

theorem lt_size_of_position? {l : Layout} {i : Nat} (h : l.position? r c = some i) : i < l.size := by
  rw [← length_stored]
  rcases stored_of_position? h with hi | ⟨-, hi⟩
  · exact (List.getElem?_eq_some_iff.mp hi).1
  · exact (List.getElem?_eq_some_iff.mp hi).1

/-- Positions with one index are the same or mirrored in a packed matrix. -/
theorem eq_or_mirrored {l : Layout} {r' c' i : Nat} (h : l.position? r c = some i) (h' : l.position? r' c' = some i) :
    (r', c') = (r, c) ∨ (∃ n, l = packed n) ∧ (r', c') = (c, r) := by
  rcases stored_of_position? h with hi | ⟨hl, hi⟩ <;> rcases stored_of_position? h' with hi' | ⟨hl', hi'⟩ <;>
    simp only [hi, Option.some.injEq, Prod.mk.injEq] at hi'
  · exact .inl (Prod.ext hi'.1.symm hi'.2.symm)
  · exact .inr ⟨hl', Prod.ext hi'.2.symm hi'.1.symm⟩
  · exact .inr ⟨hl, Prod.ext hi'.1.symm hi'.2.symm⟩
  · exact .inl (Prod.ext hi'.2.symm hi'.1.symm)

/-- The stored positions, in their order, are those of the indices from zero on, and no position that is stored is without an
index. Only mirrored positions of a packed matrix share one. -/
structure Bijective (l : Layout) : Prop where
  count : l.stored.length = l.size
  index : ∀ k r c, l.stored[k]? = some (r, c) → l.position? r c = some k
  stores : ∀ r c, (l.position? r c).isSome = true ↔ l.Stores r c
  inside : ∀ r c i, l.position? r c = some i → i < l.size
  mirrored : ∀ n, l = packed n → ∀ r c, l.position? r c = l.position? c r
  apart : ∀ r c r' c' i, l.position? r c = some i → l.position? r' c' = some i →
    (r', c') = (r, c) ∨ (∃ n, l = packed n) ∧ (r', c') = (c, r)

theorem bijective (l : Layout) : l.Bijective where
  count := l.length_stored
  index _ _ _ := position?_of_stored
  stores _ _ := isSome_position?
  inside _ _ _ := lt_size_of_position?
  mirrored _ hl := position?_comm (hl ▸ rfl)
  apart _ _ _ _ _ := eq_or_mirrored

end ConstrainedOpt.Layout
