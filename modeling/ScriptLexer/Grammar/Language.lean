import ScriptLexer.Grammar.Category

namespace ScriptLexer

inductive Quoted.Units (quote : Char) : Text → Prop where
  | nil : Units quote []
  | plain {c : Char} {s : Text} : c ≠ quote → c ≠ '\\' → Units quote s → Units quote (c :: s)
  | escaped {c : Char} {s : Text} : Units quote s → Units quote ('\\' :: c :: s)

def NumeralExponent.WellFormed (e : NumeralExponent) : Prop :=
  (e.mark = 'e' ∨ e.mark = 'E') ∧
    (e.sign? = none ∨ e.sign? = some '+' ∨ e.sign? = some '-') ∧
    e.digits ≠ [] ∧ ∀ c ∈ e.digits, c.isDigit

def Numeral.WellFormed (n : Numeral) : Prop :=
  n.whole ≠ [] ∧ (∀ c ∈ n.whole, c.isDigit) ∧
    (∀ digits ∈ n.fraction?, ∀ c ∈ digits, c.isDigit) ∧ ∀ e ∈ n.exponent?, e.WellFormed

namespace Category

def Language : Category → Text → Prop
  | whitespace, t => t ≠ [] ∧ ∀ c ∈ t, CharClass.isBlank c
  | lineComment, t => ∃ body, t = '/' :: '/' :: body ∧ ∀ c ∈ body, ¬CharClass.isLineEnd c
  | blockComment, t =>
    ∃ body, t = '/' :: '*' :: (body ++ ['*', '/']) ∧
      ∀ u v, body ++ ['*', '/'] = u ++ '*' :: '/' :: v → v = []
  | name, t =>
    ∃ c s, t = c :: s ∧ CharClass.isNameStart c ∧ ∀ d ∈ s, CharClass.isNamePart d
  | number, t => ∃ n : Numeral, n.WellFormed ∧ t = n.text
  | string, t =>
    ∃ quote units, CharClass.isQuote quote ∧ Quoted.Units quote units ∧
      t = quote :: (units ++ [quote])
  | operator, t => t ∈ Punctuator.table

def IsLongest (c : Category) (t rest : Text) : Prop :=
  c.Language t ∧ (∃ r, rest = t ++ r) ∧
    ∀ u r, rest = u ++ r → c.Language u → u.length ≤ t.length

def OpensComment (s : Text) : Prop := ∃ r, s = '/' :: '/' :: r ∨ s = '/' :: '*' :: r

/-- Pieces that make up a source: each is non-empty and as long as its category allows there, and
no operator is read off the front of a comment. -/
inductive Segments : Text → List (Category × Text) → Prop where
  | nil : Segments [] []
  | cons {c : Category} {t rest : Text} {pieces : List (Category × Text)} :
      t ≠ [] → c.IsLongest t (t ++ rest) → (c = .operator → ¬OpensComment (t ++ rest)) →
      Segments rest pieces → Segments (t ++ rest) ((c, t) :: pieces)

end Category

end ScriptLexer
