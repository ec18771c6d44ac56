import Mathlib.Data.List.DropRight
import Mathlib.Data.List.Rotate
import ConstrainedOpt.Step.TruncatedCG.Ring
import ConstrainedOpt.Proofs.Vec.Length

/-! # What a ring recalls

A ring in memory is a list of slots of which a write replaces one. A list of slots filled in turn recalls the last
entries that were written, as many as there are slots: read from its start it is a rotation of them, so each is found
once, and nothing that was there before.
-/
namespace ConstrainedOpt

namespace Checked
variable {F α : Type} {x : Vec F} {m n : Nat}

theorem split_eq_ok (h : m ≤ x.length) : split x m = .ok (x.take m, x.drop m) := if_pos h

theorem splitTwice_eq_ok (h : m + n ≤ x.length) :
    splitTwice x m n = .ok (x.take m, (x.drop m).take n, x.drop (m + n)) := by
  unfold splitTwice
  rw [split_eq_ok (by omega)]
  change split (x.drop m) n >>= _ = _
  rw [split_eq_ok (by rw [List.length_drop]; omega), ← List.drop_drop]
  rfl

theorem get_eq_ok {i : Nat} {u : F} (h : x[i]? = some u) : get x i = .ok u := by
  unfold get
  rw [h]

/-- The first entries of a list, read one by one. -/
theorem mapM_range_eq_ok {f : Nat → Checked α} {xs : List α} (h : ∀ j a, xs[j]? = some a → f j = .ok a) {count : Nat}
    (hcount : count ≤ xs.length) : (List.range count).mapM f = .ok (xs.take count) := by
  induction count with
  | zero => rfl
  | succ count ih =>
    have hlast : xs[count]? = some xs[count] := List.getElem?_eq_getElem hcount
    rw [List.range_succ, List.mapM_append, ih (Nat.le_of_succ_le hcount), List.mapM_cons, h count _ hlast,
      List.take_add_one, hlast]
    rfl

end Checked

namespace TruncatedCG
variable {F : Type} {n size : Nat} {e : Slot F}

/-! ### Slots filled in turn -/

/-- Entry number `i` is in slot `i % size`, unless as many others were written after it as there are slots. -/
def Recalls (slots : List (Slot F)) (size : Nat) (past : List (Slot F)) : Prop :=
  ∀ i e, past[i]? = some e → past.length ≤ i + size → slots[i % size]? = some e

section Recalls
variable {slots slots' past : List (Slot F)}

theorem recalls_nil (slots : List (Slot F)) (size : Nat) : Recalls slots size [] := by
  intro i e hi
  rw [List.getElem?_nil] at hi
  cases hi

theorem mod_ne_of_near {i j : Nat} (hij : i < j) (hnear : j < i + size) : i % size ≠ j % size := by
  intro heq
  have hdvd : size ∣ j - i := Nat.dvd_of_mod_eq_zero (Nat.sub_mod_eq_zero_of_mod_eq heq.symm)
  have hle := Nat.le_of_dvd (Nat.sub_pos_of_lt hij) hdvd
  omega

/-- One entry more, in the slot that is next. -/
theorem Recalls.push (h : Recalls slots size past) (hnew : 0 < size → slots'[past.length % size]? = some e)
    (hold : ∀ j u, j ≠ past.length % size → slots[j]? = some u → slots'[j]? = some u) :
    Recalls slots' size (past ++ [e]) := by
  intro i u hi hlen
  rw [List.length_append, List.length_singleton] at hlen
  rcases lt_or_ge i past.length with hlt | hge
  · rw [List.getElem?_append_left hlt] at hi
    exact hold _ u (mod_ne_of_near hlt (by omega)) (h i u hi (by omega))
  · rw [List.getElem?_append_right hge, List.getElem?_singleton] at hi
    split at hi
    case isTrue hlast =>
      cases hi
      obtain rfl : i = past.length := by omega
      exact hnew (by omega)
    case isFalse => cases hi

/-- As many slots are filled as there are entries, or all of them. -/
theorem Recalls.filled (h : Recalls slots size past) : min size past.length ≤ slots.length := by
  by_contra hlt
  have hlt : slots.length < size ∧ slots.length < past.length := by omega
  -- the last entry that belongs in the first slot that is not filled
  have hlast := Nat.div_add_mod (past.length - 1 - slots.length) size
  have hrest := Nat.mod_lt (past.length - 1 - slots.length) (Nat.zero_lt_of_lt hlt.1)
  have hbound : slots.length + size * ((past.length - 1 - slots.length) / size) < past.length := by omega
  have hentry := h _ _ (List.getElem?_eq_getElem hbound) (by omega)
  rw [Nat.add_mul_mod_self_left, Nat.mod_eq_of_lt hlt.1, List.getElem?_eq_none le_rfl] at hentry
  cases hentry

/-- The slots in use are a rotation of the last entries. -/
theorem Recalls.rotate_take (h : Recalls slots size past) :
    (slots.take (min size past.length)).rotate past.length = past.rtake (min size past.length) := by
  have hlen : (slots.take (min size past.length)).length = min size past.length := by
    rw [List.length_take, Nat.min_eq_left h.filled]
  unfold List.rtake
  refine List.ext_getElem (by rw [List.length_rotate, hlen, List.length_drop]; omega) fun t ht ht' => ?_
  rw [List.length_rotate, hlen] at ht
  rw [List.getElem_rotate, List.getElem_drop, List.getElem_take]
  have hentry := h (past.length - min size past.length + t) _ (List.getElem?_eq_getElem (by omega)) (by omega)
  obtain ⟨hbound, hslot⟩ := List.getElem?_eq_some_iff.mp hentry
  rw [← hslot]
  congr 1
  rw [hlen]
  rcases le_total past.length size with hle | hle
  · -- the ring has not come round
    rw [Nat.min_eq_right hle] at ht ⊢
    rw [Nat.sub_self, Nat.zero_add, Nat.add_mod_right, Nat.mod_eq_of_lt ht, Nat.mod_eq_of_lt (ht.trans_le hle)]
  · rw [Nat.min_eq_left hle, ← Nat.add_mod_right (past.length - size + t)]
    congr 1
    omega

theorem Recalls.perm (h : Recalls slots size past) :
    (slots.take (min size past.length)).Perm (past.rtake (min size past.length)) := by
  rw [← h.rotate_take]
  exact (List.rotate_perm _ _).symm

/-- Two rings that recall the same read the same. -/
theorem Recalls.take_eq (h : Recalls slots size past) (h' : Recalls slots' size past) :
    slots.take (min size past.length) = slots'.take (min size past.length) :=
  List.rotate_injective past.length (h.rotate_take.trans h'.rotate_take.symm)

/-- Slots that are made as they are needed recall as well. -/
theorem Recalls.record (h : Recalls slots size past) (e : Slot F) :
    Recalls (TruncatedCG.record size past.length e slots) size (past ++ [e]) := by
  unfold TruncatedCG.record
  split
  case isTrue hsize => exact h.push (fun hpos => absurd hsize hpos.ne') fun _ _ _ => id
  case isFalse hsize =>
    split
    case isTrue hlt =>
      refine h.push (fun _ => List.getElem?_set_self hlt) fun j u hj hu => ?_
      rwa [List.getElem?_set_ne hj.symm]
    case isFalse hge =>
      have hfilled := h.filled
      have hnext : past.length % size < size := Nat.mod_lt _ (Nat.pos_of_ne_zero hsize)
      have hle : past.length % size ≤ past.length := Nat.mod_le _ _
      have hend : past.length % size = slots.length := by
        rcases le_total size past.length with hround | hround
        · omega
        · rcases hround.eq_or_lt with heq | hlt
          · omega
          · rw [Nat.mod_eq_of_lt hlt] at hge ⊢
            omega
      refine h.push (fun _ => by rw [hend, List.getElem?_concat_length]) fun j u _ hu => ?_
      rwa [List.getElem?_append_left (List.getElem?_eq_some_iff.mp hu).1]

end Recalls

/-! ### Slots in memory -/

namespace Ring
variable {ring : Ring F} {j : Nat}

/-- The ring has `size` slots for vectors of length `n`. -/
structure Sized (ring : Ring F) (n size : Nat) : Prop where
  z : ring.z.length = size * n
  rz : ring.rz.length = size

def slots (ring : Ring F) (n : Nat) : List (Slot F) := ring.rz.mapIdx fun j rz => ⟨(ring.z.drop (j * n)).take n, rz⟩

theorem Sized.length_slots (h : ring.Sized n size) : (ring.slots n).length = size := List.length_mapIdx.trans h.rz

theorem Sized.slot_le (h : ring.Sized n size) (hj : j < size) : j * n + n ≤ ring.z.length := by
  rw [h.z, ← Nat.succ_mul]
  exact Nat.mul_le_mul_right n hj

theorem Sized.read_eq (h : ring.Sized n size) (he : (ring.slots n)[j]? = some e) : ring.read n j = .ok e := by
  rw [slots, List.getElem?_mapIdx] at he
  obtain ⟨rz, hrz, rfl⟩ := Option.map_eq_some_iff.mp he
  have hj : j < size := h.rz ▸ (List.getElem?_eq_some_iff.mp hrz).1
  unfold read
  rw [Checked.splitTwice_eq_ok (h.slot_le hj), Checked.get_eq_ok hrz]
  rfl

/-- What one slot is replaced by is in none of the others. -/
theorem take_drop_replace {z v : Vec F} {i : Nat} (hv : v.length = n) (hz : j * n + n ≤ z.length) :
    ((z.take (j * n) ++ v ++ z.drop (j * n + n)).drop (i * n)).take n =
      if i = j then v else (z.drop (i * n)).take n := by
  have hbefore : (z.take (j * n)).length = j * n := by rw [List.length_take]; omega
  rcases lt_trichotomy i j with hij | rfl | hij
  · have hle : i * n + n ≤ j * n := by
      rw [← Nat.succ_mul]
      exact Nat.mul_le_mul_right n hij
    rw [if_neg hij.ne, List.append_assoc, List.drop_append_of_le_length (by omega),
      List.take_append_of_le_length (by rw [List.length_drop]; omega), List.drop_take, List.take_take,
      Nat.min_eq_left (by omega)]
  · rw [if_pos rfl, List.append_assoc, List.drop_left' hbefore, List.take_left' hv]
  · have hle : j * n + n ≤ i * n := by
      rw [← Nat.succ_mul]
      exact Nat.mul_le_mul_right n hij
    have hthrough : (z.take (j * n) ++ v).length = j * n + n := by rw [List.length_append, hbefore, hv]
    rw [if_neg hij.ne', List.drop_append, List.drop_eq_nil_of_le (by omega), List.nil_append, List.drop_drop, hthrough,
      Nat.add_sub_cancel' hle]

theorem Sized.write_answers (h : ring.Sized n size) (hj : j < size) (he : e.z.length = n) :
    (ring.write n j e).Answers fun ring' => ring'.Sized n size ∧ ring'.slots n = (ring.slots n).set j e := by
  have hle := h.slot_le hj
  refine ⟨⟨ring.z.take (j * n) ++ e.z ++ ring.z.drop (j * n + n), ring.rz.set j e.rz⟩, ?_, ⟨?_, ?_⟩, ?_⟩
  · unfold write
    rw [Checked.splitTwice_eq_ok hle]
    change Checked.copy e.z ((ring.z.drop (j * n)).take n) >>= _ = _
    rw [Checked.copy_eq_ok.mpr ⟨by rw [he, List.length_take, List.length_drop]; omega, rfl⟩]
    change Checked.set ring.rz j e.rz >>= _ = _
    rw [Checked.set, if_pos (h.rz ▸ hj)]
    rfl
  · simp only [List.length_append, List.length_take, List.length_drop, he]
    rw [← h.z]
    omega
  · rw [List.length_set, h.rz]
  · refine List.ext_getElem? fun i => ?_
    unfold slots
    rw [List.getElem?_mapIdx, take_drop_replace he hle]
    by_cases hij : i = j
    · subst hij
      rw [List.getElem?_set_self (h.rz ▸ hj), List.getElem?_set_self (List.length_mapIdx.trans h.rz ▸ hj), if_pos rfl]
      rfl
    · rw [List.getElem?_set_ne (Ne.symm hij), List.getElem?_set_ne (Ne.symm hij), List.getElem?_mapIdx, if_neg hij]

variable {k : Model F} {it : Iterate F}

/-- The slots that are compared are the first ones. -/
theorem Sized.compared_eq (h : ring.Sized k.g.length k.par.orthogMax) :
    ring.compared k it = .ok ((ring.slots k.g.length).take (min k.par.orthogMax it.seq)) :=
  Checked.mapM_range_eq_ok (fun _ _ => h.read_eq) (h.length_slots.symm ▸ Nat.min_le_left _ _)

/-- What a pass records is what it recalls first. -/
theorem Sized.record_answers (h : ring.Sized k.g.length k.par.orthogMax) {past : List (Slot F)}
    (hpast : Recalls (ring.slots k.g.length) k.par.orthogMax past) (he : e.z.length = k.g.length) :
    (ring.record k past.length e).Answers fun ring' => ring'.Sized k.g.length k.par.orthogMax ∧
      Recalls (ring'.slots k.g.length) k.par.orthogMax (past ++ [e]) := by
  unfold record
  by_cases hsize : k.par.orthogMax = 0
  · rw [if_pos hsize]
    refine ⟨ring, rfl, h, hpast.push (fun hpos => absurd hsize hpos.ne') fun _ _ _ => id⟩
  · rw [if_neg hsize]
    have hnext : past.length % k.par.orthogMax < k.par.orthogMax := Nat.mod_lt _ (Nat.pos_of_ne_zero hsize)
    refine (h.write_answers hnext he).mono fun ring' hring' => ⟨hring'.1, hpast.push (fun _ => ?_) fun j u hj hu => ?_⟩
    · rw [hring'.2, List.getElem?_set_self (h.length_slots.symm ▸ hnext)]
    · rwa [hring'.2, List.getElem?_set_ne hj.symm]

end Ring

end TruncatedCG
end ConstrainedOpt
