import ScriptLexer.Text.CharClass

namespace ScriptLexer

structure NumeralExponent where
  mark : Char
  sign? : Option Char
  digits : Text
  deriving DecidableEq, Repr

/-- A numeral as written. The fraction is present, if only as no digits, when a point is. -/
structure Numeral where
  whole : Text
  fraction? : Option Text
  exponent? : Option NumeralExponent
  deriving DecidableEq, Repr

namespace NumeralExponent

def text (e : NumeralExponent) : Text := e.mark :: (e.sign?.toList ++ e.digits)

def ofDigits? (mark : Char) (sign? : Option Char) (s : Text) : Option NumeralExponent :=
  match s.takeWhile Char.isDigit with
  | [] => none
  | digits => some ⟨mark, sign?, digits⟩

def scan? : Text → Option NumeralExponent
  | mark :: s =>
    if mark = 'e' || mark = 'E' then
      match s with
      | '+' :: r => ofDigits? mark (some '+') r
      | '-' :: r => ofDigits? mark (some '-') r
      | r => ofDigits? mark none r
    else none
  | [] => none

def value (e : NumeralExponent) : Int :=
  let size : Int := Nat.ofDigitChars 10 e.digits 0
  if e.sign? = some '-' then -size else size

theorem ofDigits?_split {mark : Char} {sign? : Option Char} {s : Text} {e : NumeralExponent}
    (h : ofDigits? mark sign? s = some e) : ∃ r, mark :: (sign?.toList ++ s) = e.text ++ r := by
  rw [ofDigits?] at h
  split at h
  · simp at h
  · obtain rfl := Option.some.inj h
    exact ⟨s.dropWhile Char.isDigit, by simp [text]⟩

theorem scan?_split {s : Text} {e : NumeralExponent} (h : scan? s = some e) :
    ∃ r, s = e.text ++ r := by
  rw [scan?.eq_def] at h
  split at h
  · split at h
    · split at h <;> exact ofDigits?_split h
    · simp at h
  · simp at h

end NumeralExponent

namespace Numeral

def fractionText : Option Text → Text
  | some digits => '.' :: digits
  | none => []

def text (n : Numeral) : Text :=
  n.whole ++ (fractionText n.fraction? ++ (n.exponent?.map NumeralExponent.text).getD [])

def leadingFraction? : Text → Option Text
  | '.' :: s => some (s.takeWhile Char.isDigit)
  | _ => none

def afterFraction : Text → Text
  | '.' :: s => s.dropWhile Char.isDigit
  | s => s

def scan? (s : Text) : Option Numeral :=
  match s.takeWhile Char.isDigit with
  | [] => none
  | whole =>
    let rest := s.dropWhile Char.isDigit
    some ⟨whole, leadingFraction? rest, NumeralExponent.scan? (afterFraction rest)⟩

def longest? (s : Text) : Option Text := (scan? s).map text

theorem fractionText_append_afterFraction (s : Text) :
    fractionText (leadingFraction? s) ++ afterFraction s = s := by
  rw [leadingFraction?.eq_def, afterFraction.eq_def]
  split
  · exact congrArg ('.' :: ·) List.takeWhile_append_dropWhile
  · rfl

theorem longest?_split {s t : Text} (h : longest? s = some t) : t ≠ [] ∧ ∃ r, s = t ++ r := by
  obtain ⟨n, hn, rfl⟩ := Option.map_eq_some_iff.1 h
  rw [scan?] at hn
  split at hn
  · simp at hn
  · rename_i hne
    obtain rfl := Option.some.inj hn
    refine ⟨fun h => hne (List.append_eq_nil_iff.1 h).1, ?_⟩
    have hf := fractionText_append_afterFraction (s.dropWhile Char.isDigit)
    cases he : NumeralExponent.scan? (afterFraction (s.dropWhile Char.isDigit)) with
    | none => exact ⟨afterFraction (s.dropWhile Char.isDigit), by simp [text, hf]⟩
    | some e =>
      obtain ⟨r, hr⟩ := NumeralExponent.scan?_split he
      exact ⟨r, by simp [text, ← hr, hf]⟩

end Numeral

end ScriptLexer
