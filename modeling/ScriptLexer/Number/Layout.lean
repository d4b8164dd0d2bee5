import ScriptLexer.Number.Shortest

namespace ScriptLexer

structure NumberLayout where
  tie : Tie
  /-- The places of the leading digit, from the first to below the second, that are written
  without an exponent; without bounds all are. -/
  plainPlaces? : Option (Int × Int)
  wholeTail : Text
  deriving DecidableEq, Repr

namespace NumberLayout

def zeros (n : Nat) : Text := List.replicate n '0'

def plain (wholeTail : Text) (d : Decimal) : Text :=
  let digits := Text.ofNat d.coefficient
  let places := (-d.exponent).toNat
  if 0 ≤ d.exponent then digits ++ zeros d.exponent.toNat ++ wholeTail
  else if places < digits.length then
    digits.take (digits.length - places) ++ '.' :: digits.drop (digits.length - places)
  else '0' :: '.' :: zeros (places - digits.length) ++ digits

def leadingPlace (d : Decimal) : Int := Decimal.digitCount d.coefficient - 1 + d.exponent

def scientific (d : Decimal) : Text :=
  let place := leadingPlace d
  let mantissa := match Text.ofNat d.coefficient with
    | c :: e :: s => c :: '.' :: e :: s
    | s => s
  mantissa ++ 'e' :: (if place < 0 then '-' else '+') :: Text.ofNat place.natAbs

def isPlain (layout : NumberLayout) (place : Int) : Bool :=
  match layout.plainPlaces? with
  | some (first, below) => first ≤ place && place < below
  | none => true

def write (layout : NumberLayout) (x : Binary64) : Text :=
  let d := Shortest.decimal layout.tie x.magnitude
  let sign := if x.negative then ['-'] else []
  sign ++ if layout.isPlain (leadingPlace d) then plain layout.wholeTail d else scientific d

end NumberLayout

end ScriptLexer
