import ScriptLexer.Number.Binary64

namespace ScriptLexer

def roundHalfEven (num den : Nat) : Nat :=
  let q := num / den
  let r := num % den
  if 2 * r < den ∨ (2 * r = den ∧ q % 2 = 0) then q else q + 1

namespace Binary64

/-- The magnitude nearest to `num / den`, by its leading 53 bits. It is infinite, or beyond, when
the fraction is too large for a finite number. -/
def nearestMagnitude (num den : Nat) : Nat :=
  let shift := (num * unitsPerOne / den).log2 - 52
  shift * leadingBit + roundHalfEven (num * unitsPerOne) (den * Nat.pow 2 shift)

def nearest? (num den : Nat) : Option Binary64 :=
  if h : nearestMagnitude num den < infinite then some (ofMagnitude _ h) else none

end Binary64

end ScriptLexer
