import ConstrainedOpt.Matrix

/-! # Matrix-vector products

`a * M * x + b * y` for each layout, reading the stored entries directly; `y` is not read when `b` is
zero, so it may hold undefined values.
-/
namespace ConstrainedOpt

/-- `a * v + b * y`, not reading `y` when `b` is zero. -/
def blend {F : Type} [Scalar F] (a v b y : F) : F := if b == 0 then a * v else a * v + b * y

namespace Matrix.Product
variable {F : Type} [Scalar F]

def entryAt (entries : Array F) (i : Nat) : F := entries[i]?.getD 0

/-- Product of row `i` with a vector, the matrix given entry by entry. -/
def row (entry : Nat → Nat → F) (i : Nat) (x : Vec F) : F :=
  Vec.sum (x.mapIdx fun j u => entry i j * u)

def blendRows (a : F) (value : Nat → F) (b : F) (y : Vec F) : Vec F :=
  y.mapIdx fun i v => blend a (value i) b v

/-- Entry of a general matrix of `m` rows, or of its transpose. -/
def generalAt (transposed : Bool) (m : Nat) (entries : Array F) (i j : Nat) : F :=
  if transposed then entryAt entries (i * m + j) else entryAt entries (j * m + i)

def packedAt (entries : Array F) (i j : Nat) : F :=
  entryAt entries (max i j * (max i j + 1) / 2 + min i j)

def general (transposed : Bool) (m n : Nat) (a : F) (entries : Array F) (x : Vec F) (b : F) (y : Vec F) :
    Checked (Vec F) :=
  let (ny, nx) := if transposed then (n, m) else (m, n)
  if entries.size = m * n ∧ x.length = nx ∧ y.length = ny then
    .ok (blendRows a (row (generalAt transposed m entries) · x) b y)
  else .error .lengthMismatch

def packed (n : Nat) (a : F) (entries : Array F) (x : Vec F) (b : F) (y : Vec F) : Checked (Vec F) :=
  if entries.size = n * (n + 1) / 2 ∧ x.length = n ∧ y.length = n then
    .ok (blendRows a (row (packedAt entries) · x) b y)
  else .error .lengthMismatch

def diagonal (a : F) (entries : Array F) (x : Vec F) (b : F) (y : Vec F) : Checked (Vec F) :=
  if entries.size = x.length ∧ entries.size = y.length then
    .ok (List.zipWith (fun v w => blend a v b w) (List.zipWith (· * ·) entries.toList x) y)
  else .error .lengthMismatch

end Matrix.Product

/-- `a * M * x + b * y`, with the transpose of `M` on demand. A matrix without entries only scales `y`,
whatever the lengths. -/
def Matrix.product {F : Type} [Scalar F] (m : Matrix F) (transposed : Bool) (a : F) (x : Vec F) (b : F)
    (y : Vec F) : Checked (Vec F) :=
  if m.layout.size = 0 then .ok (if b == 0 then Vec.zerosLike y else Vec.scale b y)
  else
    match m.layout with
    | .general r c => Product.general transposed r c a m.entries x b y
    | .packed n => Product.packed n a m.entries x b y
    | .diagonal _ => Product.diagonal a m.entries x b y

end ConstrainedOpt
