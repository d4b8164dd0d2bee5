import ScriptLexer.Text.Basic

namespace ScriptLexer

structure Place where
  line : Nat
  column : Nat
  deriving DecidableEq, Repr

namespace Place

def first : Place := ⟨1, 1⟩

def after (p : Place) (c : Char) : Place :=
  if c = '\n' then ⟨p.line + 1, 1⟩ else ⟨p.line, p.column + 1⟩

/-- The place of the character at `offset`; an offset past the end counts as the end. -/
def ofOffset (s : Text) (offset : Nat) : Place :=
  (s.take offset).foldl after first

end Place

def Text.lines (s : Text) : List Text := s.splitOn '\n'

def Place.toOffset (s : Text) (p : Place) : Nat :=
  ((s.lines.take (p.line - 1)).flatMap (· ++ ['\n'])).length + (p.column - 1)

end ScriptLexer
