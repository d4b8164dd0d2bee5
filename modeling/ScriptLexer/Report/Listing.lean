import ScriptLexer.Diagnostic.Json
import ScriptLexer.Token.Basic

namespace ScriptLexer

inductive OutputFormat where
  | text
  | json
  deriving DecidableEq, Repr

namespace OutputFormat

def label : OutputFormat → Text
  | text => "text".toList
  | json => "json".toList

def ofName? (name : Text) : Option OutputFormat :=
  [text, json].find? fun format => format.label = name.map Char.toLower

end OutputFormat

namespace Listing

def tokens (format : OutputFormat) (notice : Text) (ts : List Token) : Text :=
  match format with
  | .text => if ts.isEmpty then notice ++ ['\n'] else ts.flatMap fun t => t.text ++ ['\n']
  | .json => (Json.array (ts.map Token.toJson)).pretty

def noTokens : Text := "No tokens".toList

def diagnostic? (format : OutputFormat) (d : Diagnostic) : Option Text :=
  match format with
  | .text => none
  | .json => some d.toJson.pretty

end Listing

end ScriptLexer
