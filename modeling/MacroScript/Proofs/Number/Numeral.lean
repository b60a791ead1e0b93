import Mathlib.Data.Nat.Digits.Defs
import Mathlib.Data.Rat.Defs
import Mathlib.Order.WithBotTop
/-
  Numerals: the written forms of decimal numbers, apart from how they are read. A numeral is an
  optional sign and then the word Infinity, or digits with an optional point and exponent; at
  least one digit stands before or after the point. Its value is exact: a rational, or one of the
  two infinities.
-/

namespace MacroScript.Numeral

/-! ## Digits and signs -/

/-- The text of digits. -/
def digitText (ds : List (Fin 10)) : List Char := ds.map fun d => Nat.digitChar d.val

/-- The number that digits write in base ten. -/
def digitValue (ds : List (Fin 10)) : Nat := Nat.ofDigits 10 (ds.reverse.map Fin.val)

inductive Sign where
  | unsigned
  | plus
  | minus
  deriving DecidableEq

def Sign.text : Sign → List Char
  | .unsigned => []
  | .plus => ['+']
  | .minus => ['-']

def Sign.negative : Sign → Bool
  | .minus => true
  | _ => false

/-! ## Digits with a point, and exponents -/

structure Mantissa where
  whole : List (Fin 10)
  /-- The digits after the point, if there is one. -/
  fraction : Option (List (Fin 10))
  digits_ne_nil : whole ++ fraction.getD [] ≠ []
  deriving DecidableEq

namespace Mantissa

/-- All the digits, without the point. -/
def digits (x : Mantissa) : List (Fin 10) := x.whole ++ x.fraction.getD []

/-- The number of digits after the point. -/
def places (x : Mantissa) : Nat := (x.fraction.getD []).length

def text (x : Mantissa) : List Char :=
  digitText x.whole ++ x.fraction.elim [] ('.' :: digitText ·)

def value (x : Mantissa) : Rat := (digitValue x.digits : Rat) / 10 ^ x.places

end Mantissa

structure Exponent where
  /-- Whether the mark is a capital letter. -/
  capital : Bool
  sign : Sign
  digits : List (Fin 10)
  digits_ne_nil : digits ≠ []
  deriving DecidableEq

namespace Exponent

def mark (e : Exponent) : Char := if e.capital then 'E' else 'e'

def text (e : Exponent) : List Char := e.mark :: e.sign.text ++ digitText e.digits

def value (e : Exponent) : Int :=
  if e.sign.negative then -(digitValue e.digits : Int) else digitValue e.digits

end Exponent

end Numeral

/-! ## Numerals -/

/-- What stands after the sign of a numeral. -/
inductive Numeral.Magnitude where
  | infinity
  | finite (mantissa : Numeral.Mantissa) (exponent : Option Numeral.Exponent)
  deriving DecidableEq

structure Numeral where
  sign : Numeral.Sign
  magnitude : Numeral.Magnitude
  deriving DecidableEq

namespace Numeral

def Magnitude.text : Magnitude → List Char
  | .infinity => ['I', 'n', 'f', 'i', 'n', 'i', 't', 'y']
  | .finite mantissa exponent => mantissa.text ++ exponent.elim [] Exponent.text

def text (n : Numeral) : List Char := n.sign.text ++ n.magnitude.text

/-- The value of digits with a point and an exponent, where no exponent is exponent zero. -/
def scaled (mantissa : Mantissa) (exponent : Option Exponent) : Rat :=
  mantissa.value * 10 ^ exponent.elim 0 Exponent.value

def value (n : Numeral) : WithBotTop Rat :=
  match n.magnitude with
  | .infinity => if n.sign.negative then ⊥ else ⊤
  | .finite mantissa exponent =>
    ((if n.sign.negative then -scaled mantissa exponent else scaled mantissa exponent : Rat) :
      WithBotTop Rat)

/-- The text begins with the numeral and with no longer one. -/
def Leads (n : Numeral) (s : List Char) : Prop :=
  n.text <+: s ∧ ∀ m : Numeral, m.text <+: s → m.text.length ≤ n.text.length

end Numeral

end MacroScript
