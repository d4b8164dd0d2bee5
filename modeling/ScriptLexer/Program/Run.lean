import ScriptLexer.Program.Help
import ScriptLexer.Program.Path
import ScriptLexer.Program.World
import ScriptLexer.Text.Html
import ScriptLexer.Token.Stream

namespace ScriptLexer

structure Outcome where
  status : ExitStatus
  stdout : Text
  stderr : Text
  deriving DecidableEq, Repr

namespace Program

def endLine (s : Text) : Text := if s.getLast? = some '\n' then s else s ++ ['\n']

def emit (escapeHtml : Bool) (rendered : Text) : Text :=
  endLine (if escapeHtml then Html.escape rendered else rendered)

def debugLines (debug : Bool) (messages : List Text) : Text :=
  if debug then messages.flatMap fun m => "[debug] ".toList ++ m ++ ['\n'] else []

def errorLine (f : Fault) : Text := "Error: ".toList ++ f.text ++ ['\n']

def beganMessage (input : SourceInput) : Text :=
  "Tokenizing ".toList ++ Text.ofNat input.text.length ++ " characters from ".toList ++ input.label

def endedMessage : Except Diagnostic (List Token) → Text
  | .ok ts => "Produced ".toList ++ Text.ofNat ts.length ++ " tokens".toList
  | .error d => "Tokenizing failed: ".toList ++ d.text

def failureOf (directory : Text) (input : SourceInput) (d : Diagnostic) : Failure :=
  .source (.ofSource d input.text (input.path?.map (Path.shownFrom directory)))

def runOn (directory : Text) (options : Options) (input : SourceInput) : Outcome :=
  let result := tokenize input.text
  let notes := debugLines options.debug [beganMessage input, endedMessage result]
  match result with
  | .ok ts =>
    ⟨.success, emit options.escapeHtml (Listing.tokens options.format Listing.noTokens ts), notes⟩
  | .error d =>
    let fault := Fault.failure (failureOf directory input d)
    ⟨fault.status, ((Listing.diagnostic? options.format d).map (emit options.escapeHtml)).getD [],
      notes ++ errorLine fault⟩

def execute (w : World) (options : Options) : Outcome :=
  match w.read options.channel with
  | .ok input => runOn w.workingDirectory options input
  | .error f => ⟨(Fault.failure f).status, [], errorLine (.failure f)⟩

def perform (w : World) : Invocation → Outcome
  | .help level => ⟨.success, Help.text level, []⟩
  | .version => ⟨.success, Help.version, []⟩
  | .tokens options => execute w options

def run (w : World) (arguments : List Text) : Option Outcome :=
  (Invocation.ofArguments? w.debugSetting? arguments).map (perform w)

end Program

end ScriptLexer
