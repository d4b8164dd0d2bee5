import ScriptLexer.Grammar.Numeral
import ScriptLexer.Number.Nearest

namespace ScriptLexer

structure Decimal where
  coefficient : Nat
  exponent : Int
  deriving DecidableEq, Repr

namespace Decimal

def numerator (d : Decimal) : Nat := d.coefficient * Nat.pow 10 d.exponent.toNat

def denominator (d : Decimal) : Nat := Nat.pow 10 (-d.exponent).toNat

def digitCount (n : Nat) : Nat := (Nat.toDigits 10 n).length

/-- The nearest double, if the decimal is in range. Decimals far outside the range are settled by
their first digit's place alone, since their exact fractions can be very large. -/
def nearest? (d : Decimal) : Option Binary64 :=
  let place : Int := digitCount d.coefficient + d.exponent
  if d.coefficient = 0 then some .zero
  else if 309 < place then none
  else if place < -323 then some .zero
  else Binary64.nearest? d.numerator d.denominator

def trim (coefficient : Nat) (exponent : Int) : Decimal :=
  if h : 0 < coefficient ∧ coefficient % 10 = 0 then trim (coefficient / 10) (exponent + 1)
  else ⟨coefficient, exponent⟩
termination_by coefficient
decreasing_by omega

end Decimal

namespace Numeral

def decimal (n : Numeral) : Decimal :=
  let places := n.fraction?.getD []
  let shift := (n.exponent?.map NumeralExponent.value).getD 0
  ⟨Nat.ofDigitChars 10 (n.whole ++ places) 0, shift - places.length⟩

def value? (n : Numeral) : Option Binary64 := n.decimal.nearest?

end Numeral

end ScriptLexer
