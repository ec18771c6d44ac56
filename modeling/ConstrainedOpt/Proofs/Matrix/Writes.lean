import ConstrainedOpt.Matrix
import ConstrainedOpt.Proofs.Matrix.Positions

/-! # Written matrices

What a matrix holds after values are written to a list of positions that do not share entries: each position has its value as
far as the values reach, and everything else is as before.
-/
namespace ConstrainedOpt.Matrix
variable {F : Type} {a : Matrix F} {r c r' c' i k : Nat} {u : F} {positions : List (Nat × Nat)} {values : List F}

/-! ### One entry -/

@[simp] theorem layout_set (a : Matrix F) (r c : Nat) (u : F) : (a.set r c u).layout = a.layout := by
  unfold set
  split <;> rfl

theorem entry_of_position (h : a.layout.position? r c = some i) : a.entry? r c = a.entries[i]? := by simp [ entry?, h]

theorem entries_set (h : a.layout.position? r c = some i) (u : F) : (a.set r c u).entries = a.entries.setIfInBounds i u := by
  unfold set
  split
  case h_1 j hj =>
    obtain rfl : j = i := Option.some.inj (hj.symm.trans h)
    rfl
  case h_2 hnone => cases hnone.symm.trans h

theorem lt_size (h : a.layout.position? r c = some i) : i < a.entries.size :=
  a.size_entries.symm ▸ Layout.lt_size_of_position? h

theorem entry_set_self (h : a.layout.Stores r c) : entry? (a.set r c u) r c = some u := by
  obtain ⟨i, hi⟩ := Option.isSome_iff_exists.mp (Layout.isSome_position?.mpr h)
  rw [entry_of_position (i := i) (by simpa using hi), entries_set hi]
  simp [lt_size hi]

theorem entry_set_of_ne (h : a.layout.position? r c ≠ a.layout.position? r' c') :
    entry? (a.set r c u) r' c' = a.entry? r' c' := by
  cases hi : a.layout.position? r c with
  | none => simp [set, hi]
  | some i =>
    unfold entry?
    rw [layout_set, entries_set hi]
    cases hj : a.layout.position? r' c' with
    | none => rfl
    | some j =>
      have hne : i ≠ j := fun hij => h (hi.trans (hij ▸ hj.symm))
      simp [hne]

/-! ### Lists of entries -/

theorem write_cons (p : Nat × Nat) : a.write (p :: positions) (u :: values) = (a.set p.1 p.2 u).write positions values := rfl

@[simp] theorem layout_write (a : Matrix F) (positions : List (Nat × Nat)) (values : List F) :
    (a.write positions values).layout = a.layout := by
  induction positions generalizing a values with
  | nil => rfl
  | cons p positions ih =>
    cases values with
    | nil => rfl
    | cons u values => rw [write_cons, ih, layout_set]

/-- What is not written to stays. -/
theorem entry_write_of_ne (h : ∀ p ∈ positions.take values.length, a.layout.position? p.1 p.2 ≠ a.layout.position? r c) :
    entry? (a.write positions values) r c = a.entry? r c := by
  induction positions generalizing a values with
  | nil => rfl
  | cons p positions ih =>
    cases values with
    | nil => rfl
    | cons u values =>
      simp only [List.length_cons, List.take_succ_cons, List.forall_mem_cons] at h
      rw [write_cons, ih (by simpa using h.2), entry_set_of_ne h.1]

/-- The positions are stored, and no two of them share an entry. -/
structure Separate (l : Layout) (positions : List (Nat × Nat)) : Prop where
  stores : ∀ p ∈ positions, l.Stores p.1 p.2
  apart : positions.Pairwise fun p q => l.position? p.1 p.2 ≠ l.position? q.1 q.2

/-- Each position has the value written to it. -/
theorem entry_write_getElem (h : Separate a.layout positions) (hk : k < positions.length) (hv : k < values.length) :
    entry? (a.write positions values) positions[k].1 positions[k].2 = some values[k] := by
  induction positions generalizing a values k with
  | nil => cases hk
  | cons p positions ih =>
    cases values with
    | nil => cases hv
    | cons u values =>
      obtain ⟨hfirst, hrest⟩ := List.pairwise_cons.mp h.apart
      rw [write_cons]
      cases k with
      | zero =>
        rw [entry_write_of_ne, List.getElem_cons_zero, List.getElem_cons_zero, entry_set_self (h.stores p List.mem_cons_self)]
        intro q hq
        simpa using (hfirst q (List.mem_of_mem_take hq)).symm
      | succ k =>
        have hseparate : Separate (a.set p.1 p.2 u).layout positions := by
          rw [layout_set]
          exact ⟨fun q hq => h.stores q (List.mem_cons_of_mem p hq), hrest⟩
        exact ih hseparate (Nat.lt_of_succ_lt_succ hk) (Nat.lt_of_succ_lt_succ hv)

/-! ### All entries -/

theorem separate_stored (l : Layout) : Separate l l.stored where
  stores p hp := by
    obtain ⟨k, hk⟩ := List.mem_iff_getElem?.mp hp
    exact Layout.isSome_position?.mp (Option.isSome_iff_exists.mpr ⟨k, Layout.position?_of_stored hk⟩)
  apart := by
    have hindices : (l.stored.map fun p => l.position? p.1 p.2).Pairwise (· ≠ ·) := by
      rw [l.map_position?_stored]
      exact List.pairwise_map.mpr (List.nodup_range.imp fun h heq => h (Option.some.inj heq))
    exact List.pairwise_map.mp hindices

/-- Rows are listed as the columns of the transposed layout are. -/
theorem storedByRows_general (m n : Nat) :
    (Layout.general m n).storedByRows = (Layout.general n m).stored.map fun p => (p.2, p.1) := by
  simp [Layout.storedByRows, Layout.stored, List.map_flatMap, Function.comp_def]

theorem separate_storedByRows (m n : Nat) : Separate (.general m n) (Layout.general m n).storedByRows where
  stores p hp := by
    rw [storedByRows_general] at hp
    obtain ⟨q, hq, rfl⟩ := List.mem_map.mp hp
    exact (Layout.mem_stored_general.mp hq).symm
  apart := by
    rw [storedByRows_general]
    refine List.pairwise_map.mpr ((separate_stored (.general n m)).apart.imp_of_mem fun {p q} hp hq hne heq => ?_)
    obtain ⟨hr, hc⟩ := Layout.mem_stored_general.mp hp
    have hindex := Layout.position?_general hc hr
    rcases Layout.eq_or_mirrored hindex (heq ▸ hindex) with hsame | ⟨⟨k, hk⟩, -⟩
    · obtain ⟨hrow, hcol⟩ : q.2 = p.2 ∧ q.1 = p.1 := Prod.mk.inj hsame
      exact hne (by rw [hrow, hcol])
    · cases hk

/-- A row-major list has the position in row `r` and column `c` after `r` full rows and `c` entries. -/
theorem getElem?_storedByRows {m n : Nat} (hr : r < m) (hc : c < n) :
    (Layout.general m n).storedByRows[r * n + c]? = some (r, c) := by
  have hindex : (Layout.general n m).position? c r = some (r * n + c) := Layout.position?_general hc hr
  rw [storedByRows_general, List.getElem?_map]
  rcases Layout.stored_of_position? hindex with h | ⟨⟨k, hk⟩, -⟩
  · rw [h]
    rfl
  · cases hk

/-- Writing to separate positions changes exactly those that the values reach. -/
theorem entry_write (h : Separate a.layout positions) (hk : positions[k]? = some (r, c)) :
    entry? (a.write positions values) r c = if k < values.length then values[k]? else a.entry? r c := by
  obtain ⟨hlen, hp⟩ := List.getElem?_eq_some_iff.mp hk
  split
  case isTrue hv =>
    have hwritten := entry_write_getElem h hlen hv
    rw [hp] at hwritten
    rw [hwritten, List.getElem?_eq_getElem hv]
  case isFalse hv =>
    refine entry_write_of_ne fun p hp' => ?_
    obtain ⟨i, hi, rfl⟩ := List.mem_take_iff_getElem.mp hp'
    have hik : i < k := by omega
    have hapart := List.pairwise_iff_getElem.mp h.apart i k (by omega) hlen hik
    rwa [hp] at hapart

theorem getElem?_writeColumns (a : Matrix F) (values : List F) (k : Nat) :
    (a.writeColumns values).entries[k]? = if k < values.length ∧ k < a.layout.size then values[k]? else a.entries[k]? := by
  by_cases hk : k < a.layout.size
  · obtain ⟨⟨r, c⟩, hp⟩ : ∃ p, a.layout.stored[k]? = some p :=
      ⟨_, List.getElem?_eq_getElem (a.layout.length_stored.symm ▸ hk)⟩
    have hindex := Layout.position?_of_stored hp
    have hindex' : (a.writeColumns values).layout.position? r c = some k := by rwa [writeColumns, layout_write]
    have hentry : entry? (a.writeColumns values) r c = if k < values.length then values[k]? else a.entry? r c :=
      entry_write (separate_stored a.layout) hp
    rw [entry_of_position hindex', entry_of_position hindex] at hentry
    simpa [hk] using hentry
  · have hsize : (a.writeColumns values).entries.size ≤ k := by
      rw [Matrix.size_entries, writeColumns, layout_write]
      omega
    have hold : a.entries.size ≤ k := by rw [a.size_entries]; omega
    simp [hk, hsize, hold]

theorem entry_writeRows {m n : Nat} (hl : a.layout = .general m n) (values : List F) (hr : r < m) (hc : c < n) :
    entry? (a.writeRows values) r c = if r * n + c < values.length then values[r * n + c]? else a.entry? r c := by
  unfold writeRows
  rw [hl]
  exact entry_write (hl ▸ separate_storedByRows m n) (getElem?_storedByRows hr hc)

example : ((⟨.general 2 3, #[0, 0, 0, 0, 0, 0], rfl⟩ : Matrix Nat).writeRows [1, 2, 3, 4, 5]).entries = #[1, 4, 2, 5, 3, 0] := by
  decide

/-- In a symmetric layout mirrored positions are written alike. -/
theorem write_mirrored (h : a.isSymmetric = true) (positions : List (Nat × Nat)) (values : List F) :
    a.write (positions.map fun (r, c) => (c, r)) values = a.write positions values := by
  induction positions generalizing a values with
  | nil => rfl
  | cons p positions ih =>
    cases values with
    | nil => rfl
    | cons u values =>
      have hset : a.set p.2 p.1 u = a.set p.1 p.2 u := by
        unfold set
        rw [Layout.position?_comm h p.2 p.1]
      have hlayout : (a.set p.1 p.2 u).isSymmetric = true := by
        unfold isSymmetric
        rwa [layout_set]
      rw [List.map_cons, write_cons, write_cons, hset, ih hlayout]

theorem writeRows_symmetric (h : a.isSymmetric = true) (values : List F) : a.writeRows values = a.writeColumns values := by
  have hrows : a.layout.storedByRows = a.layout.stored.map fun (r, c) => (c, r) := by
    cases hl : a.layout with
    | general => simp [isSymmetric, hl, Layout.isSymmetric] at h
    | packed | diagonal => rfl
  rw [writeRows, hrows, write_mirrored h, writeColumns]

/-! ### Functions -/

/-- As many values as there are entries replace all of them. -/
theorem toList_writeColumns (a : Matrix F) (h : values.length = a.layout.size) :
    (a.writeColumns values).entries.toList = values := by
  refine List.ext_getElem? fun k => ?_
  rw [Array.getElem?_toList, getElem?_writeColumns, h]
  by_cases hk : k < a.layout.size
  · simp [hk]
  · simp [hk, h, a.size_entries]

/-- Writing by a function calls it at the positions in turn and writes its answers. -/
theorem foldlM_set {M : Type → Type} [Monad M] [LawfulMonad M] (f : Nat → Nat → M F) :
    positions.foldlM (fun b p => b.set p.1 p.2 <$> f p.1 p.2) a =
      a.write positions <$> positions.mapM fun p => f p.1 p.2 := by
  induction positions generalizing a with
  | nil => simp [write]
  | cons p positions ih => simp [List.mapM_cons, ih, write_cons]

theorem length_mapM_run {σ : Type} (positions : List (Nat × Nat)) (f : Nat × Nat → StateM σ F) (s : σ) :
    ((positions.mapM f).run s).1.length = positions.length := by
  induction positions generalizing s with
  | nil => rfl
  | cons p positions ih =>
    rw [List.mapM_cons]
    exact congrArg (· + 1) (ih _)

theorem writeFnM_eq {M : Type → Type} [Monad M] [LawfulMonad M] (a : Matrix F) (f : Nat → Nat → M F) :
    a.writeFnM f = a.writeColumns <$> a.layout.stored.mapM fun p => f p.1 p.2 := foldlM_set f

/-- A function with a state leaves the state of its calls in the order of the layout, and its answers are the entries. -/
theorem writeFnM_run {σ : Type} (a : Matrix F) (f : Nat → Nat → StateM σ F) (s : σ) :
    ∃ values t, (a.layout.stored.mapM fun p => f p.1 p.2).run s = (values, t) ∧
      (a.writeFnM f).run s = (a.writeColumns values, t) ∧ (a.writeColumns values).entries.toList = values := by
  have hlength := length_mapM_run a.layout.stored (fun p => f p.1 p.2) s
  refine ⟨_, _, rfl, ?_, ?_⟩
  · rw [writeFnM_eq, StateT.run_map]
    rfl
  · exact a.toList_writeColumns (hlength.trans a.layout.length_stored)

theorem toList_writeFn (a : Matrix F) (f : Nat → Nat → F) :
    (a.writeFn f).entries.toList = a.layout.stored.map fun p => f p.1 p.2 := by
  have h : a.writeFn f = a.writeColumns (a.layout.stored.map fun p => f p.1 p.2) := by
    unfold writeFn
    rw [writeFnM_eq]
    simp
  rw [h, toList_writeColumns a (by rw [List.length_map, a.layout.length_stored])]

/-! ### Access -/

theorem entry_eq_none : a.entry? r c = none ↔ a.layout.position? r c = none := by
  cases hi : a.layout.position? r c with
  | none => simp [ entry?, hi]
  | some i => simp [ entry_of_position hi, lt_size hi]

theorem set_eq_none : a.set? r c u = none ↔ a.layout.position? r c = none := Option.map_eq_none_iff

/-- The indices of the entries are those of the stored positions, in their order. Values are written to them column by column
as far as they reach, by a function all at once, and row by row in a general matrix; in a symmetric one both orders write the
same. What is not stored cannot be accessed, and is read as zero where reading must answer. -/
theorem write_by_index [Scalar F] (a : Matrix F) :
    a.layout.Bijective ∧
    (∀ values, (a.writeColumns values).layout = a.layout ∧
      ∀ k, (a.writeColumns values).entries[k]? =
        if k < values.length ∧ k < a.layout.size then values[k]? else a.entries[k]?) ∧
    (∀ (σ : Type) (f : Nat → Nat → StateM σ F) (s : σ), ∃ values t b,
      (a.layout.stored.mapM fun p => f p.1 p.2).run s = (values, t) ∧ (a.writeFnM f).run s = (b, t) ∧
      b.layout = a.layout ∧ b.entries.toList = values) ∧
    (∀ f, (a.writeFn f).entries.toList = a.layout.stored.map fun p => f p.1 p.2) ∧
    (∀ m n values r c, a.layout = .general m n → r < m → c < n →
      entry? (a.writeRows values) r c = if r * n + c < values.length then values[r * n + c]? else a.entry? r c) ∧
    (a.isSymmetric = true → ∀ values, a.writeRows values = a.writeColumns values) ∧
    ∀ r c, (a.entry? r c = none ↔ a.layout.position? r c = none) ∧
      (∀ u, a.set? r c u = none ↔ a.layout.position? r c = none) ∧
      (a.layout.position? r c = none → a.get r c = 0) ∧ ∀ u, a.entry? r c = some u → a.get r c = u := by
  refine ⟨a.layout.bijective, fun values => ⟨layout_write .., getElem?_writeColumns a values⟩, ?_, toList_writeFn a, ?_,
    writeRows_symmetric, ?_⟩
  · intro σ f s
    obtain ⟨values, t, hcalls, hrun, hentries⟩ := a.writeFnM_run f s
    exact ⟨values, t, a.writeColumns values, hcalls, hrun, layout_write .., hentries⟩
  · intro m n values r c hl hr hc
    exact entry_writeRows hl values hr hc
  · intro r c
    refine ⟨entry_eq_none, fun u => set_eq_none, fun hnone => ?_, fun u hu => ?_⟩
    · rw [get, entry_eq_none.mpr hnone]
      rfl
    · rw [get, hu]
      rfl

end ConstrainedOpt.Matrix
