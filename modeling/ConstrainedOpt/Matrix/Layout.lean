import ConstrainedOpt.Text.Column

/-! # Matrix layouts

How a matrix is stored: a general one by columns, a symmetric one as its packed upper triangle by
columns, a diagonal one as its diagonal.
-/
namespace ConstrainedOpt

inductive Layout where
  | general (rows cols : Nat)
  | packed (n : Nat)
  | diagonal (n : Nat)
deriving DecidableEq, Repr

namespace Layout

def rows : Layout → Nat
  | general m _ => m
  | packed n | diagonal n => n

def cols : Layout → Nat
  | general _ n => n
  | packed n | diagonal n => n

/-- Number of stored entries. -/
def size : Layout → Nat
  | general m n => m * n
  | packed n => n * (n + 1) / 2
  | diagonal n => n

def isSymmetric : Layout → Bool
  | general .. => false
  | packed _ | diagonal _ => true

def text : Layout → String
  | general m n => "General(" ++ Text.natural m ++ ", " ++ Text.natural n ++ ")"
  | packed n => "SymPack(" ++ Text.natural n ++ ")"
  | diagonal n => "Diag(" ++ Text.natural n ++ ")"

/-- Index of the entry at a row and a column, if the layout stores it. Both triangles of a packed
matrix share their entries. -/
def position? (layout : Layout) (r c : Nat) : Option Nat :=
  if r < layout.rows ∧ c < layout.cols then
    match layout with
    | general m _ => some (c * m + r)
    | packed _ => some (max r c * (max r c + 1) / 2 + min r c)
    | diagonal _ => if r = c then some r else none
  else none

/-- The stored positions in the order of their indices. -/
def stored : Layout → List (Nat × Nat)
  | general m n => (List.range n).flatMap fun c => (List.range m).map fun r => (r, c)
  | packed n => (List.range n).flatMap fun c => (List.range (c + 1)).map fun r => (r, c)
  | diagonal n => (List.range n).map fun i => (i, i)

/-- The stored positions row by row, a packed matrix by its lower triangle. -/
def storedByRows (layout : Layout) : List (Nat × Nat) :=
  match layout with
  | general m n => (List.range m).flatMap fun r => (List.range n).map fun c => (r, c)
  | _ => layout.stored.map fun (r, c) => (c, r)

end Layout

end ConstrainedOpt
