import ScriptLexer.Program.Options
import ScriptLexer.Report.Failure

namespace ScriptLexer

/-- What reading to the end gives: all bytes, or in its own words the error that stops it. -/
inductive Reading where
  | bytes (content : ByteArray)
  | failed (message : Text)

instance : Coe ByteArray Reading := ⟨.bytes⟩

inductive Entry where
  | missing
  | irregular
  | file (reading : Reading)

structure World where
  workingDirectory : Text
  entry : Text → Entry
  standardInput : Reading
  debugSetting? : Option Text

structure SourceInput where
  path? : Option Text
  text : Text
  deriving DecidableEq, Repr

def SourceInput.label (input : SourceInput) : Text := input.path?.getD "<input>".toList

namespace World

def decode (path? : Option Text) : Reading → Except Failure SourceInput
  | .failed message => .error (.io message)
  | .bytes content =>
    match Text.ofBytes? content with
    | some text => .ok ⟨path?, text⟩
    | none => .error .invalidEncoding

def read (w : World) : Channel → Except Failure SourceInput
  | .inline text => .ok ⟨none, text⟩
  | .standardInput => decode none w.standardInput
  | .file path =>
    match w.entry path with
    | .missing => .error (.missingPath path)
    | .irregular => .error (.notAFile path)
    | .file reading => decode (some path) reading

end World

end ScriptLexer
