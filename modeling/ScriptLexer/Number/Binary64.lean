/-!
Double precision numbers by their bits. The bits below the sign, read as one natural number, are
the magnitude: it grows with the absolute value, the infinities stand right above the largest
finite number, and the NaNs above them. The value of a finite magnitude is a whole number of
units, a unit being the least positive double.
-/

namespace ScriptLexer

structure Binary64 where
  negative : Bool
  magnitude : Nat
  magnitude_lt : magnitude < 0x8000000000000000
  deriving DecidableEq, Repr

namespace Binary64

def signBit : Nat := 0x8000000000000000

def leadingBit : Nat := 0x10000000000000

def infinite : Nat := 0x7FF0000000000000

def unitsPerOne : Nat := Nat.pow 2 1074

def ofBits (bits : Nat) : Binary64 :=
  ⟨bits / signBit % 2 = 1, bits % signBit, Nat.mod_lt _ (by decide)⟩

def toBits (x : Binary64) : Nat := (if x.negative then signBit else 0) + x.magnitude

def isFinite (x : Binary64) : Bool := x.magnitude < infinite

def isNaN (x : Binary64) : Bool := infinite < x.magnitude

def significand (magnitude : Nat) : Nat :=
  if magnitude < leadingBit then magnitude else leadingBit + magnitude % leadingBit

def units (magnitude : Nat) : Nat :=
  significand magnitude * Nat.pow 2 (magnitude / leadingBit - 1)

def ofMagnitude (magnitude : Nat) (h : magnitude < infinite) : Binary64 :=
  ⟨false, magnitude, Nat.lt_trans h (by decide)⟩

def negate (x : Binary64) : Binary64 := { x with negative := !x.negative }

def zero : Binary64 := ofMagnitude 0 (by decide)

end Binary64

end ScriptLexer
