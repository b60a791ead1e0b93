/-
  Decimal numbers, their exact values, and reading them from texts; and the rounding of exact
  rationals to the 53 significant bits of a double. The written form of a decimal is an optional
  sign, then the word Infinity or digits with an optional point and exponent. The rounding knows
  no least and no greatest exponent, so it agrees with a double wherever that has a normal value
  of the same size.
-/

namespace MacroScript

/-- A decimal number: `digits` times ten to the `exponent`, or infinity, with a sign. -/
inductive Decimal where
  | finite (negative : Bool) (digits : Nat) (exponent : Int)
  | infinite (negative : Bool)
  deriving DecidableEq

namespace Decimal

/-! ## Values -/

/-- The value of `digits` times ten to the `exponent`. -/
def scaled (digits : Nat) (exponent : Int) : Rat := (digits : Rat) * (10 : Rat) ^ exponent

/-- The exact value of a finite decimal. -/
def value? : Decimal → Option Rat
  | .finite negative digits exponent =>
    some (if negative then -scaled digits exponent else scaled digits exponent)
  | .infinite _ => none

/-! ## Reading -/

def infinityWord : List Char := ['I', 'n', 'f', 'i', 'n', 'i', 't', 'y']

/-- The number that digits write in base ten. -/
def ofDigits (s : List Char) : Nat := s.foldl (fun n c => 10 * n + (c.toNat - '0'.toNat)) 0

/-- Whether a sign in front of a text is a minus, and the text after it. -/
def splitSign : List Char → Bool × List Char
  | '-' :: s => (true, s)
  | '+' :: s => (false, s)
  | s => (false, s)

/-- The digits before a point, the digits after it, and the text left. -/
def splitPoint (s : List Char) : List Char × List Char × List Char :=
  let whole := s.takeWhile Char.isDigit
  match s.dropWhile Char.isDigit with
  | '.' :: t => (whole, t.takeWhile Char.isDigit, t.dropWhile Char.isDigit)
  | t => (whole, [], t)

/-- Reads a whole text as a signed integer of one digit at least. -/
def readInteger? (s : List Char) : Option Int :=
  let (negative, t) := splitSign s
  if t.isEmpty || !t.all Char.isDigit then none
  else some (if negative then -(ofDigits t : Int) else (ofDigits t : Int))

/-- Reads a whole text as an exponent part. A number without one has exponent zero. -/
def readExponent? : List Char → Option Int
  | [] => some 0
  | 'e' :: s => readInteger? s
  | 'E' :: s => readInteger? s
  | _ => none

/-- Reads a whole text as digits with an optional point and exponent. -/
def readFinite? (negative : Bool) (s : List Char) : Option Decimal :=
  let (whole, fraction, tail) := splitPoint s
  if whole.isEmpty && fraction.isEmpty then none
  else (readExponent? tail).map fun exponent =>
    .finite negative (ofDigits (whole ++ fraction)) (exponent - fraction.length)

/-- Reads a whole text as a decimal. -/
def read? (s : List Char) : Option Decimal :=
  let (negative, t) := splitSign s
  if t = infinityWord then some (.infinite negative)
  else readFinite? negative t

end Decimal

namespace Binary64

/-! ## Rounding to 53 significant bits -/

/-- The number of significant bits of a double. -/
def precision : Int := 53

/-- The `e` with `2 ^ e ≤ v < 2 ^ (e + 1)`, for a positive `v`. -/
def binade (v : Rat) : Int :=
  let e := (v.num.natAbs.log2 : Int) - (v.den.log2 : Int)
  if v < (2 : Rat) ^ e then e - 1 else e

/-- The distance of neighbouring numbers of 53 significant bits, at the size of `v`. -/
def spacing (v : Rat) : Rat := (2 : Rat) ^ (binade v + 1 - precision)

/-- The nearest integer, of two equally near ones the even one. -/
def roundHalfEven (x : Rat) : Int :=
  let below := x.floor
  let part := x - (below : Rat)
  if part < 1 / 2 then below
  else if 1 / 2 < part then below + 1
  else if below % 2 = 0 then below
  else below + 1

/-- The nearest number of 53 significant bits to a rational that is not negative, of two equally
near ones the one with an even last bit. Neither the least nor the greatest double bounds it. -/
def nearest (v : Rat) : Rat :=
  if v = 0 then 0 else (roundHalfEven (v / spacing v) : Rat) * spacing v

end Binary64

end MacroScript
