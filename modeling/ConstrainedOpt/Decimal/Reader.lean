/-! # Reading numbers

Decimal numerals with an optional sign, point and exponent, the names of the infinities and of the
undefined value in any case of letters, and natural numbers below a bound.
-/
namespace ConstrainedOpt.Decimal

inductive Numeral where
  | nan
  | infinite (negative : Bool)
  | finite (negative : Bool) (mantissa : Nat) (exponent : Int)
deriving DecidableEq, Repr

def digitValue (c : Char) : Nat := c.toNat - '0'.toNat

/-- The number a string of digits denotes. -/
def digitsValue (ds : List Char) : Nat := ds.foldl (fun n c => 10 * n + digitValue c) 0

def isDigit (c : Char) : Bool := '0' ≤ c && c ≤ '9'

/-- Splits off an optional sign. -/
def readSign : List Char → Bool × List Char
  | '-' :: rest => (true, rest)
  | '+' :: rest => (false, rest)
  | text => (false, text)

/-- A nonempty string of digits and nothing else. -/
def readDigits? (text : List Char) : Option Nat :=
  if text.isEmpty || !text.all isDigit then none else some (digitsValue text)

/-- What may follow the digits of a numeral: nothing, or `e` and a signed exponent. -/
def readExponent? : List Char → Option Int
  | [] => some 0
  | c :: rest =>
      if c = 'e' ∨ c = 'E' then
        let (negative, ds) := readSign rest
        (readDigits? ds).map fun n => if negative then -(n : Int) else n
      else none

/-- The digits behind a point, and what follows them. -/
def readFraction : List Char → List Char × List Char
  | '.' :: rest => rest.span isDigit
  | text => ([], text)

def readFinite? (negative : Bool) (text : List Char) : Option Numeral :=
  let (whole, rest) := text.span isDigit
  let (fractional, rest) := readFraction rest
  if whole.isEmpty && fractional.isEmpty then none
  else
    (readExponent? rest).map fun e =>
      .finite negative (digitsValue (whole ++ fractional)) (e - fractional.length)

def readName? (negative : Bool) (text : List Char) : Option Numeral :=
  let name := String.ofList (text.map Char.toLower)
  if name == "nan" then some .nan
  else if name == "inf" || name == "infinity" then some (.infinite negative)
  else none

def readNumeral? (text : String) : Option Numeral :=
  let (negative, rest) := readSign text.toList
  (readFinite? negative rest).or (readName? negative rest)

/-- A natural number below `bound`, with an optional plus sign. -/
def readNat? (bound : Nat) (text : String) : Option Nat :=
  let ds := match text.toList with
    | '+' :: rest => rest
    | ds => ds
  (readDigits? ds).filter (· < bound)

end ConstrainedOpt.Decimal
