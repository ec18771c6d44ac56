import ConstrainedOpt.Decimal.Scientific

/-! # Table columns

Every column of the iteration table is left-aligned and twelve characters wide; longer content is
kept. Exponents of reals carry their sign and at least two digits there.
-/
namespace ConstrainedOpt.Text

def columnWidth : Nat := 12

def column (s : String) : String := s ++ String.ofList (List.replicate (columnWidth - s.length) ' ')

def columnExponent (k : Int) : List Char :=
  let ds := Decimal.digits k.natAbs
  (if k < 0 then '-' else '+') :: (List.replicate (2 - ds.length) '0' ++ ds)

/-- A real as a column shows it, without the padding. -/
def real : Dyadic → String
  | .nan => "NaN"
  | .infinite negative => if negative then "-Inf" else "Inf"
  | v@(.finite ..) =>
      match Decimal.scientificParts 2 v with
      | (text, none) => String.ofList text
      | (text, some k) => String.ofList (text ++ 'e' :: columnExponent k)

def natural (n : Nat) : String := String.ofList (Decimal.digits n)

end ConstrainedOpt.Text
