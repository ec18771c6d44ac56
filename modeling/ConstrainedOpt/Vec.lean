import ConstrainedOpt.Scalar
import ConstrainedOpt.Journal

/-! # Vectors

Lists of scalars with their Euclidean structure. The plain operations pair entries as far as both
vectors reach; the `Checked` ones stop on vectors of different lengths.
-/
namespace ConstrainedOpt

abbrev Vec (F : Type) := List F

namespace Vec
variable {F : Type} [Scalar F]

/-- The sum of the entries, from the first one to the last. -/
def sum (x : Vec F) : F := x.foldl (· + ·) 0

def inner (x y : Vec F) : F := sum (List.zipWith (· * ·) x y)

def norm (x : Vec F) : F := Scalar.sqrt (sum (x.map fun u => u * u))

def scale (a : F) (x : Vec F) : Vec F := x.map (a * ·)

/-- `a * x + y`. -/
def add (a : F) (x y : Vec F) : Vec F := List.zipWith (fun u v => v + a * u) x y

def zeros (n : Nat) : Vec F := List.replicate n 0

def zerosLike (x : Vec F) : Vec F := zeros x.length

def isFinite (x : Vec F) : Bool := x.all Scalar.isFinite

end Vec

namespace Checked
variable {F : Type} [Scalar F]

def sameLength (x y : Vec F) : Checked Unit :=
  if x.length = y.length then .ok () else .error .lengthMismatch

def inner (x y : Vec F) : Checked F := do
  sameLength x y
  return Vec.inner x y

/-- `a * x + y`. -/
def add (a : F) (x y : Vec F) : Checked (Vec F) := do
  sameLength x y
  return Vec.add a x y

/-- The entries of `x` written over those of `y`. -/
def copy (x y : Vec F) : Checked (Vec F) := do
  sameLength x y
  return x

/-- `a * x + b * y`, not reading `y` when `b` is zero. -/
def axpby (a : F) (x : Vec F) (b : F) (y : Vec F) : Checked (Vec F) :=
  add a x (if b == 0 then Vec.zerosLike y else Vec.scale b y)

/-- The first `mid` entries and the rest. -/
def split (x : Vec F) (mid : Nat) : Checked (Vec F × Vec F) :=
  if mid ≤ x.length then .ok (x.take mid, x.drop mid) else .error .outOfRange

/-- The first `m` entries, the next `n` and the rest. -/
def splitTwice (x : Vec F) (m n : Nat) : Checked (Vec F × Vec F × Vec F) := do
  let (a, rest) ← split x m
  let (b, rest) ← split rest n
  return (a, b, rest)

def get (x : Vec F) (i : Nat) : Checked F :=
  match x[i]? with
  | some u => .ok u
  | none => .error .outOfRange

def set (x : Vec F) (i : Nat) (u : F) : Checked (Vec F) :=
  if i < x.length then .ok (x.set i u) else .error .outOfRange

end Checked

end ConstrainedOpt
