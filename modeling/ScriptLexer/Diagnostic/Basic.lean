import ScriptLexer.Text.Basic

namespace ScriptLexer

/-- A place in a source, by character offsets. The end is exclusive and may be unknown. -/
structure Location where
  start : Nat
  stop? : Option Nat
  deriving DecidableEq, Repr

def Location.span (l : Location) : Nat × Nat :=
  (l.start, l.stop?.getD (l.start + 1))

def Location.origin : Location := ⟨0, none⟩

class HasLocation (α : Type) where
  location? : α → Option Location

instance : HasLocation Unit := ⟨fun _ => none⟩

instance : HasLocation Location := ⟨some⟩

instance {α : Type} [HasLocation α] : HasLocation (Option α) :=
  ⟨fun record? => record?.bind HasLocation.location?⟩

structure Reference (α : Type) where
  target : α

instance {α : Type} [HasLocation α] : HasLocation (Reference α) :=
  ⟨fun reference => HasLocation.location? reference.target⟩

inductive DiagnosticKind where
  | unrecognizedCharacter
  | unterminatedString
  | unterminatedComment
  | invalidNumber
  | syntaxError
  deriving DecidableEq, Repr

namespace DiagnosticKind

def label : DiagnosticKind → Text
  | unrecognizedCharacter => "UnrecognizedCharacter".toList
  | unterminatedString => "UnterminatedString".toList
  | unterminatedComment => "UnterminatedComment".toList
  | invalidNumber => "InvalidNumber".toList
  | syntaxError => "SyntaxError".toList

def all : List DiagnosticKind :=
  [unrecognizedCharacter, unterminatedString, unterminatedComment, invalidNumber, syntaxError]

def ofLabel? (name : Text) : Option DiagnosticKind :=
  all.find? (·.label = name)

theorem ofLabel?_label (k : DiagnosticKind) : ofLabel? k.label = some k := by
  cases k <;> decide

end DiagnosticKind

structure Diagnostic where
  kind : DiagnosticKind
  message : Text
  location : Location
  deriving DecidableEq, Repr

namespace Diagnostic

instance : HasLocation Diagnostic := ⟨fun d => some d.location⟩

def about {α : Type} [HasLocation α] (record : α) (kind : DiagnosticKind) (message : Text) :
    Diagnostic :=
  ⟨kind, message, (HasLocation.location? record).getD .origin⟩

def text (d : Diagnostic) : Text :=
  let stop := match d.location.stop? with
    | some stop => "..".toList ++ Text.ofNat stop
    | none => []
  d.kind.label ++ " at ".toList ++ Text.ofNat d.location.start ++ stop ++ ": ".toList ++ d.message

end Diagnostic

end ScriptLexer
