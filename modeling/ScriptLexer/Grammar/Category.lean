import ScriptLexer.Diagnostic.Basic
import ScriptLexer.Grammar.Trivia
import ScriptLexer.Grammar.Name
import ScriptLexer.Grammar.Numeral
import ScriptLexer.Grammar.Quoted
import ScriptLexer.Grammar.Punctuator

namespace ScriptLexer

inductive Category where
  | whitespace
  | lineComment
  | blockComment
  | name
  | number
  | string
  | operator
  deriving DecidableEq, Repr

structure Opening where
  marks : List Text
  kind : DiagnosticKind
  message : Text
  deriving DecidableEq, Repr

def Opening.opens (o : Opening) (s : Text) : Bool := o.marks.any (·.isPrefixOf s)

namespace Category

def priority : List Category :=
  [whitespace, lineComment, blockComment, name, number, string, operator]

theorem mem_priority (c : Category) : c ∈ priority := by
  cases c <;> decide

def label : Category → Text
  | whitespace => "Whitespace".toList
  | lineComment => "LineComment".toList
  | blockComment => "BlockComment".toList
  | name => "Name".toList
  | number => "Number".toList
  | string => "String".toList
  | operator => "Operator".toList

def isTrivia : Category → Bool
  | whitespace | lineComment | blockComment => true
  | name | number | string | operator => false

def recognize? : Category → Text → Option Text
  | whitespace => Trivia.blanks?
  | lineComment => Trivia.lineComment?
  | blockComment => Trivia.blockComment?
  | name => Name.longest?
  | number => Numeral.longest?
  | string => Quoted.literal?
  | operator => Punctuator.longest?

def opening? : Category → Option Opening
  | blockComment =>
    some ⟨[['/', '*']], .unterminatedComment, "Unterminated comment".toList⟩
  | string =>
    some ⟨[['\x27'], ['\x22']], .unterminatedString, "Unterminated string".toList⟩
  | _ => none

theorem recognize?_split {c : Category} {s t : Text} (h : c.recognize? s = some t) :
    t ≠ [] ∧ ∃ r, s = t ++ r := by
  cases c with
  | whitespace => exact Trivia.blanks?_split h
  | lineComment => exact Trivia.lineComment?_split h
  | blockComment => exact Trivia.blockComment?_split h
  | name => exact Name.longest?_split h
  | number => exact Numeral.longest?_split h
  | string => exact Quoted.literal?_split h
  | operator => exact Punctuator.longest?_split h

def matchLength? (c : Category) (s : Text) : Option Nat := (c.recognize? s).map Text.byteLength

theorem takeBytes?_recognize? {c : Category} {s t : Text} (h : c.recognize? s = some t) :
    s.takeBytes? (Text.byteLength t) = some t := by
  obtain ⟨-, r, rfl⟩ := recognize?_split h
  exact Text.takeBytes?_append t r

end Category

end ScriptLexer
