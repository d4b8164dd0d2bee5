import ScriptLexer.Number.Layout

namespace ScriptLexer

inductive Json where
  | null
  | bool (value : Bool)
  | number (literal : Text)
  | string (value : Text)
  | array (items : List Json)
  | object (fields : List (Text × Json))
  deriving Repr

namespace Json

def ofNat (n : Nat) : Json := number (Text.ofNat n)

/-- In JSON a whole number keeps its point, exponents begin at the sixth place after the point
and at the sixteenth before it, and of two equally near decimals the even one is written. -/
def numberLayout : NumberLayout := ⟨.toEven, some (-5, 16), ['.', '0']⟩

def ofBinary64 (x : Binary64) : Json :=
  if x.isFinite then number (numberLayout.write x) else null

def escapeChar (c : Char) : Text :=
  if c = '\x22' then ['\\', '\x22']
  else if c = '\\' then ['\\', '\\']
  else if c = '\x08' then ['\\', 'b']
  else if c = '\t' then ['\\', 't']
  else if c = '\n' then ['\\', 'n']
  else if c = '\x0c' then ['\\', 'f']
  else if c = '\r' then ['\\', 'r']
  else if c.toNat < 0x20 then
    ['\\', 'u', '0', '0', Nat.digitChar (c.toNat / 16), Nat.digitChar (c.toNat % 16)]
  else [c]

def quote (s : Text) : Text := '\x22' :: s.flatMap escapeChar ++ ['\x22']

mutual

def compact : Json → Text
  | null => "null".toList
  | bool value => if value then "true".toList else "false".toList
  | number literal => literal
  | string value => quote value
  | array items => '[' :: [','].intercalate (compactItems items) ++ [']']
  | object fields => '\x7b' :: [','].intercalate (compactFields fields) ++ ['\x7d']

def compactItems : List Json → List Text
  | [] => []
  | item :: items => compact item :: compactItems items

def compactFields : List (Text × Json) → List Text
  | [] => []
  | (key, value) :: fields => (quote key ++ ':' :: compact value) :: compactFields fields

end

def indent (depth : Nat) : Text := List.replicate (2 * depth) ' '

def block (depth : Nat) (left right : Char) (lines : List Text) : Text :=
  if lines.isEmpty then [left, right]
  else
    left :: '\n' :: [',', '\n'].intercalate (lines.map (indent (depth + 1) ++ ·)) ++
      '\n' :: indent depth ++ [right]

mutual

def prettyAt (depth : Nat) : Json → Text
  | null => "null".toList
  | bool value => if value then "true".toList else "false".toList
  | number literal => literal
  | string value => quote value
  | array items => block depth '[' ']' (prettyItems (depth + 1) items)
  | object fields => block depth '\x7b' '\x7d' (prettyFields (depth + 1) fields)

def prettyItems (depth : Nat) : List Json → List Text
  | [] => []
  | item :: items => prettyAt depth item :: prettyItems depth items

def prettyFields (depth : Nat) : List (Text × Json) → List Text
  | [] => []
  | (key, value) :: fields =>
    (quote key ++ ':' :: ' ' :: prettyAt depth value) :: prettyFields depth fields

end

def pretty (j : Json) : Text := prettyAt 0 j

end Json

end ScriptLexer
