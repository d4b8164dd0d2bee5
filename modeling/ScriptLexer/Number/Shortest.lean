import ScriptLexer.Number.Decimal

/-!
The decimal that stands for a double in print: the fewest digits that read back as the same
double, and of the decimals with so many digits the nearest. The decimals that read back are
those between the midpoints to the two neighbouring doubles; the midpoints themselves belong to
the even one of two neighbours.
-/

namespace ScriptLexer

inductive Tie where
  | toEven
  | up
  deriving DecidableEq, Repr

namespace Shortest

def readsBack (magnitude : Nat) (d : Decimal) : Bool :=
  let low := (Binary64.units (magnitude - 1) + Binary64.units magnitude) * d.denominator
  let high := (Binary64.units magnitude + Binary64.units (magnitude + 1)) * d.denominator
  let twice := 2 * (d.numerator * Binary64.unitsPerOne)
  if magnitude % 2 = 0 then low ≤ twice && twice ≤ high else low < twice && twice < high

def leadingPlace (num den : Nat) : Int :=
  if den ≤ num then Decimal.digitCount (num / den) - 1
  else -(Decimal.digitCount ((den - 1) / num) : Int)

/-- The multiple of `10 ^ place` that reads back, of the two around the double; the nearer one if
both do. -/
def onGrid? (tie : Tie) (magnitude : Nat) (place : Int) : Option Decimal :=
  let num := Binary64.units magnitude * Nat.pow 10 (-place).toNat
  let den := Binary64.unitsPerOne * Nat.pow 10 place.toNat
  let low := num / den
  let rest := 2 * (num % den)
  match readsBack magnitude ⟨low, place⟩, readsBack magnitude ⟨low + 1, place⟩ with
  | false, false => none
  | true, false => some ⟨low, place⟩
  | false, true => some ⟨low + 1, place⟩
  | true, true =>
    if rest < den ∨ (rest = den ∧ tie = .toEven ∧ low % 2 = 0) then some ⟨low, place⟩
    else some ⟨low + 1, place⟩

def allDigits (magnitude : Nat) : Decimal := ⟨Binary64.units magnitude * Nat.pow 5 1074, -1074⟩

def decimal (tie : Tie) (magnitude : Nat) : Decimal :=
  if magnitude = 0 then ⟨0, 0⟩
  else
    let first := leadingPlace (Binary64.units magnitude) Binary64.unitsPerOne
    let d := ((List.range 17).findSome? fun n : Nat => onGrid? tie magnitude (first - n)).getD
      (allDigits magnitude)
    Decimal.trim d.coefficient d.exponent

end Shortest

end ScriptLexer
