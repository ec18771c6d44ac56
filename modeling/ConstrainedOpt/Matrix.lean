import ConstrainedOpt.Vec
import ConstrainedOpt.Matrix.Layout

/-! # Matrices

Dense matrices with the entries their layout stores, addressed by row and column.
-/
namespace ConstrainedOpt

structure Matrix (F : Type) where
  layout : Layout
  entries : Array F
  size_entries : entries.size = layout.size

namespace Matrix
variable {F : Type}

def rows (a : Matrix F) : Nat := a.layout.rows

def cols (a : Matrix F) : Nat := a.layout.cols

/-- The entry stored for a row and a column. -/
def entry? (a : Matrix F) (r c : Nat) : Option F :=
  (a.layout.position? r c).bind fun i => a.entries[i]?

/-- The matrix with one stored entry replaced, both triangles of a packed matrix at once. -/
def set (a : Matrix F) (r c : Nat) (u : F) : Matrix F :=
  match a.layout.position? r c with
  | some i => { a with
      entries := a.entries.setIfInBounds i u
      size_entries := by rw [Array.size_setIfInBounds]; exact a.size_entries }
  | none => a

/-- Replaces an entry that is stored. -/
def set? (a : Matrix F) (r c : Nat) (u : F) : Option (Matrix F) :=
  (a.layout.position? r c).map fun _ => a.set r c u

/-- Writes values to positions as far as both lists reach. -/
def write (a : Matrix F) (positions : List (Nat × Nat)) (values : List F) : Matrix F :=
  (positions.zip values).foldl (fun b p => b.set p.1.1 p.1.2 p.2) a

/-- Writes the stored entries in the order of the layout; entries beyond the end stay. -/
def writeColumns (a : Matrix F) (values : List F) : Matrix F := a.write a.layout.stored values

/-- Writes the stored entries row by row. -/
def writeRows (a : Matrix F) (values : List F) : Matrix F := a.write a.layout.storedByRows values

/-- Writes every stored entry by a function of its row and column, which is called in the order of the layout and may have
effects. -/
def writeFnM {M : Type → Type} [Monad M] (a : Matrix F) (f : Nat → Nat → M F) : M (Matrix F) :=
  a.layout.stored.foldlM (fun b p => b.set p.1 p.2 <$> f p.1 p.2) a

/-- Writes every stored entry by a function of its row and column. -/
def writeFn (a : Matrix F) (f : Nat → Nat → F) : Matrix F := Id.run (a.writeFnM fun r c => pure (f r c))

variable [Scalar F]

def zero (layout : Layout) : Matrix F where
  layout := layout
  entries := Array.replicate layout.size 0
  size_entries := Array.size_replicate

/-- The matrix with the given stored entries, if their number fits. -/
def ofEntries (layout : Layout) (entries : Vec F) : Checked (Matrix F) :=
  if h : entries.length = layout.size then
    .ok { layout, entries := entries.toArray, size_entries := h }
  else .error .lengthMismatch

/-- A vector as a matrix of one column. -/
def column (v : Vec F) : Matrix F where
  layout := .general v.length 1
  entries := v.toArray
  size_entries := by simp [Layout.size]

/-- The entry at a row and a column, zero where nothing is stored. -/
def get (a : Matrix F) (r c : Nat) : F := (a.entry? r c).getD 0

def scale (a : Matrix F) (s : F) : Matrix F where
  layout := a.layout
  entries := a.entries.map (s * ·)
  size_entries := by rw [Array.size_map]; exact a.size_entries

def isSymmetric (a : Matrix F) : Bool := a.layout.isSymmetric

end Matrix

end ConstrainedOpt
