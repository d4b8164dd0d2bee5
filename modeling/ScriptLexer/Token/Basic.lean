import ScriptLexer.Diagnostic.Basic
import ScriptLexer.Json.Basic

namespace ScriptLexer

inductive TokenKind where
  | name
  | string
  | number
  | operator
  deriving DecidableEq, Repr

namespace TokenKind

def label : TokenKind → Text
  | name => "Name".toList
  | string => "String".toList
  | number => "Number".toList
  | operator => "Operator".toList

def toJson (k : TokenKind) : Json := .string k.label

end TokenKind

/-- What a token stands for. A string literal stands for what is between its quotes, backslashes
kept as written. -/
inductive TokenValue where
  | name (text : Text)
  | string (content : Text)
  | number (value : Binary64)
  | operator (text : Text)
  deriving DecidableEq, Repr

def TokenValue.numberLayout : NumberLayout := ⟨.up, none, []⟩

def Binary64.text (x : Binary64) : Text :=
  if x.isNaN then "NaN".toList
  else if x.isFinite then TokenValue.numberLayout.write x
  else (if x.negative then ['-'] else []) ++ "inf".toList

namespace TokenValue

def kind : TokenValue → TokenKind
  | name _ => .name
  | string _ => .string
  | number _ => .number
  | operator _ => .operator

def text? : TokenValue → Option Text
  | name s | string s | operator s => some s
  | number _ => none

def number? : TokenValue → Option Binary64
  | number x => some x
  | _ => none

def text : TokenValue → Text
  | name s | operator s => s
  | string s => '\x22' :: s ++ ['\x22']
  | number x => x.text

def payload : TokenValue → Json
  | name s | string s | operator s => .string s
  | number x => .ofBinary64 x

def fields (v : TokenValue) : List (Text × Json) :=
  [("kind".toList, v.kind.toJson), ("value".toList, v.payload)]

def toJson (v : TokenValue) : Json := .object v.fields

end TokenValue

structure Token where
  value : TokenValue
  start : Nat
  stop : Nat
  deriving DecidableEq, Repr

namespace Token

instance : HasLocation Token := ⟨fun t => some ⟨t.start, some t.stop⟩⟩

def kind (t : Token) : TokenKind := t.value.kind

def text (t : Token) : Text :=
  t.kind.label ++ ' ' :: t.value.text ++ " (".toList ++ Text.ofNat t.start ++ ", ".toList ++
    Text.ofNat t.stop ++ [')']

def fields (t : Token) : List (Text × Json) :=
  t.value.fields ++ [("from".toList, .ofNat t.start), ("to".toList, .ofNat t.stop)]

def toJson (t : Token) : Json := .object t.fields

end Token

end ScriptLexer
