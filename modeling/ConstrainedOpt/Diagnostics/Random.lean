import ConstrainedOpt.Vec

/-! # Random vectors

The xoshiro256** generator, seeded by splitmix64, and vectors with entries uniform in `[-1, 1)`.
-/
namespace ConstrainedOpt

structure Generator where
  s0 : UInt64
  s1 : UInt64
  s2 : UInt64
  s3 : UInt64

namespace Generator

def rotateLeft (x k : UInt64) : UInt64 := (x <<< k) ||| (x >>> (64 - k))

/-- One output of splitmix64 for the state after the step to it. -/
def mix (x : UInt64) : UInt64 :=
  let z := (x ^^^ (x >>> 30)) * 0xbf58476d1ce4e5b9
  let z := (z ^^^ (z >>> 27)) * 0x94d049bb133111eb
  z ^^^ (z >>> 31)

def golden : UInt64 := 0x9e3779b97f4a7c15

def ofSeed (seed : UInt64) : Generator where
  s0 := mix (seed + golden)
  s1 := mix (seed + 2 * golden)
  s2 := mix (seed + 3 * golden)
  s3 := mix (seed + 4 * golden)

def next (g : Generator) : UInt64 × Generator :=
  let s2 := g.s2 ^^^ g.s0
  let s3 := g.s3 ^^^ g.s1
  (rotateLeft (g.s1 * 5) 7 * 9,
    { s0 := g.s0 ^^^ s3, s1 := g.s1 ^^^ s2, s2 := s2 ^^^ (g.s1 <<< 17), s3 := rotateLeft s3 45 })

variable {F : Type} [Scalar F]

/-- Half the number of points `uniform` takes. -/
def halfRange : Nat := 0x8000000000000

/-- One of `2 ^ 52` equidistant points of `[-1, 1)`, by the upper bits of an output. -/
def uniform (r : UInt64) : F :=
  (Scalar.ofNat (r >>> 12).toNat - Scalar.ofNat halfRange) / Scalar.ofNat halfRange

def vector : (n : Nat) → Generator → Vec F × Generator
  | 0, g => ([], g)
  | n + 1, g =>
      let (r, g) := g.next
      let (v, g) := vector n g
      (uniform r :: v, g)

end Generator

end ConstrainedOpt
