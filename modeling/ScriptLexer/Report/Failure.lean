import ScriptLexer.Diagnostic.Basic
import ScriptLexer.Text.Place

namespace ScriptLexer

structure SourceDiagnostic where
  diagnostic : Diagnostic
  place : Place
  path? : Option Text
  deriving DecidableEq, Repr

namespace SourceDiagnostic

def ofSource (d : Diagnostic) (source : Text) (path? : Option Text) : SourceDiagnostic :=
  ⟨d, Place.ofOffset source d.location.start, path?⟩

def text (e : SourceDiagnostic) : Text :=
  let file := match e.path? with
    | some path => " in ".toList ++ path
    | none => []
  "Syntax error".toList ++ file ++ " at line ".toList ++ Text.ofNat e.place.line ++
    ", column ".toList ++ Text.ofNat e.place.column ++ ": ".toList ++ e.diagnostic.message

end SourceDiagnostic

inductive Failure where
  | io (message : Text)
  | path (message : Text)
  | source (error : SourceDiagnostic)
  deriving DecidableEq, Repr

namespace Failure

def missingPath (path : Text) : Failure := .path ("Path does not exist: ".toList ++ path)

def notAFile (path : Text) : Failure := .path ("Not a file: ".toList ++ path)

def invalidEncoding : Failure := .io "stream did not contain valid UTF-8".toList

def text : Failure → Text
  | io message => "IO error: ".toList ++ message
  | path message => message
  | source error => error.text

end Failure

inductive ExitStatus where
  | success
  | general
  | badSource
  | badFile
  deriving DecidableEq, Repr

def ExitStatus.code : ExitStatus → Nat
  | success => 0
  | general => 1
  | badSource => 2
  | badFile => 4

inductive Fault where
  | failure (f : Failure)
  | io (message : Text)
  | located (error : SourceDiagnostic)
  | diagnostic (d : Diagnostic)
  | other (message : Text)
  deriving DecidableEq, Repr

namespace Fault

def text : Fault → Text
  | failure f => f.text
  | io message => message
  | located error => error.text
  | diagnostic d => d.text
  | other message => message

def causes : Fault → List Fault
  | failure (.io message) => [io message]
  | failure (.source error) => [located error, diagnostic error.diagnostic]
  | located error => [diagnostic error.diagnostic]
  | _ => []

def status : Fault → ExitStatus
  | failure (.io _) | failure (.path _) | io _ => .badFile
  | failure (.source _) => .badSource
  | located _ | diagnostic _ | other _ => .general

end Fault

end ScriptLexer
