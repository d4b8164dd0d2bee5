import ScriptLexer.Lexeme.Scan
import ScriptLexer.Token.Basic

namespace ScriptLexer

def Lexeme.badNumber (l : Lexeme) : Diagnostic :=
  .about l .invalidNumber ("Bad number '".toList ++ l.text ++ ['\x27'])

def Lexeme.value? (l : Lexeme) : Except Diagnostic (Option TokenValue) :=
  match l.category with
  | .whitespace | .lineComment | .blockComment => .ok none
  | .name => .ok (some (.name l.text))
  | .string => .ok (some (.string (Quoted.content l.text)))
  | .operator => .ok (some (.operator l.text))
  | .number =>
    match (Numeral.scan? l.text).bind Numeral.value? with
    | some x => .ok (some (.number x))
    | none => .error l.badNumber

def Token.ofLexemes (failure? : Option Diagnostic) : List Lexeme → Except Diagnostic (List Token)
  | [] =>
    match failure? with
    | some d => .error d
    | none => .ok []
  | l :: ls =>
    match l.value? with
    | .error d => .error d
    | .ok none => ofLexemes failure? ls
    | .ok (some v) => (ofLexemes failure? ls).map (⟨v, l.start, l.stop⟩ :: ·)

def Scan.tokens (scan : Scan) : Except Diagnostic (List Token) :=
  Token.ofLexemes scan.failure? scan.lexemes

def tokenize (source : Text) : Except Diagnostic (List Token) := (Scan.ofText source).tokens

end ScriptLexer
