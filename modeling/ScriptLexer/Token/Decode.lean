import ScriptLexer.Diagnostic.Json
import ScriptLexer.Json.Reader
import ScriptLexer.Token.Basic

namespace ScriptLexer

def Json.toNat? : Json → Option Nat
  | .number literal =>
    let n := Nat.ofDigitChars 10 literal 0
    if literal ≠ [] ∧ literal.all Char.isDigit ∧ n < 0x10000000000000000 then some n else none
  | _ => none

def Binary64.ofNumeral? (s : Text) : Option Binary64 :=
  match Numeral.scan? s with
  | some n => if n.text = s then n.value? else none
  | none => none

def Json.toBinary64? : Json → Option Binary64
  | .number ('-' :: literal) => (Binary64.ofNumeral? literal).map Binary64.negate
  | .number literal => Binary64.ofNumeral? literal
  | _ => none

namespace TokenValue

def ofJson? (kind : Text) (payload : Json) : Option TokenValue :=
  match payload with
  | .string s =>
    if kind = TokenKind.name.label then some (name s)
    else if kind = TokenKind.string.label then some (string s)
    else if kind = TokenKind.operator.label then some (operator s)
    else none
  | _ => if kind = TokenKind.number.label then payload.toBinary64?.map number else none

end TokenValue

def Token.ofJson? : Json → Option Token
  | .object [(k, .string kind), (v, payload), (f, start), (t, stop)] =>
    if k = "kind".toList ∧ v = "value".toList ∧ f = "from".toList ∧ t = "to".toList then
      match TokenValue.ofJson? kind payload, start.toNat?, stop.toNat? with
      | some value, some start, some stop => some ⟨value, start, stop⟩
      | _, _, _ => none
    else none
  | _ => none

def Token.listOfJson? : Json → Option (List Token)
  | .array items => items.mapM Token.ofJson?
  | _ => none

def Location.ofFields? : List (Text × Json) → Option Location
  | [(f, start)] =>
    if f = "from".toList then start.toNat?.map fun start => ⟨start, none⟩ else none
  | [(f, start), (t, stop)] =>
    if f = "from".toList ∧ t = "to".toList then
      match start.toNat?, stop.toNat? with
      | some start, some stop => some ⟨start, some stop⟩
      | _, _ => none
    else none
  | _ => none

def Diagnostic.ofJson? : Json → Option Diagnostic
  | .object ((k, .string kind) :: (m, .string message) :: fields) =>
    if k = "kind".toList ∧ m = "message".toList then
      match DiagnosticKind.ofLabel? kind, Location.ofFields? fields with
      | some kind, some location => some ⟨kind, message, location⟩
      | _, _ => none
    else none
  | _ => none

end ScriptLexer
