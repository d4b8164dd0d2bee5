import ScriptLexer.Diagnostic.Basic
import ScriptLexer.Json.Basic

namespace ScriptLexer

def Location.fields (l : Location) : List (Text × Json) :=
  ("from".toList, Json.ofNat l.start) ::
    (l.stop?.map fun stop => ("to".toList, Json.ofNat stop)).toList

def Location.toJson (l : Location) : Json := .object l.fields

def Diagnostic.fields (d : Diagnostic) : List (Text × Json) :=
  ("kind".toList, .string d.kind.label) :: ("message".toList, .string d.message) ::
    d.location.fields

def Diagnostic.toJson (d : Diagnostic) : Json := .object d.fields

end ScriptLexer
