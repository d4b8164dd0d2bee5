import ScriptLexer.Text.Basic

namespace ScriptLexer.CharClass

/-- The inclusive code point ranges of blank characters: the Unicode property `White_Space`
and, as the last range, the byte order mark. -/
def blankRanges : List (Nat × Nat) :=
  [(0x09, 0x0D), (0x20, 0x20), (0x85, 0x85), (0xA0, 0xA0), (0x1680, 0x1680), (0x2000, 0x200A),
    (0x2028, 0x2029), (0x202F, 0x202F), (0x205F, 0x205F), (0x3000, 0x3000), (0xFEFF, 0xFEFF)]

def isBlank (c : Char) : Bool :=
  blankRanges.any fun range => range.1 ≤ c.toNat && c.toNat ≤ range.2

def isLineEnd (c : Char) : Bool :=
  c = '\n' || c = '\r' || c = '\u2028' || c = '\u2029'

theorem isBlank_of_isLineEnd {c : Char} (h : isLineEnd c) : isBlank c := by
  simp only [isLineEnd, Bool.or_eq_true, decide_eq_true_eq] at h
  rcases h with ((rfl | rfl) | rfl) | rfl <;> decide

def isNameStart (c : Char) : Bool :=
  c.isAlpha || c = '_'

def isNamePart (c : Char) : Bool :=
  c.isAlphanum || c = '_'

theorem isNamePart_of_isNameStart {c : Char} (h : isNameStart c) : isNamePart c := by
  simp only [isNameStart, Bool.or_eq_true] at h
  simp only [isNamePart, Char.isAlphanum, Bool.or_eq_true]
  exact h.elim (fun h => .inl (.inl h)) .inr

def isQuote (c : Char) : Bool :=
  c = '\x27' || c = '\x22'

end ScriptLexer.CharClass
