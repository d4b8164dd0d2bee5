import ScriptLexer.Report.Listing

/-!
The options of the command line, read from left to right. A help or version option takes effect
as soon as it is met; so does everything wrong with a single argument. What concerns several
options together is looked at once all are read.
-/

namespace ScriptLexer

inductive Channel where
  | inline (text : Text)
  | file (path : Text)
  | standardInput
  deriving DecidableEq, Repr

structure Options where
  debug : Bool
  channel : Channel
  format : OutputFormat
  escapeHtml : Bool
  deriving DecidableEq, Repr

inductive CommandLevel where
  | program
  | tokens
  deriving DecidableEq, Repr

inductive Invocation where
  | help (level : CommandLevel)
  | version
  | tokens (options : Options)
  deriving DecidableEq, Repr

namespace CommandLine

inductive OptionName where
  | debug
  | source
  | text
  | output
  | escapeHtml
  | help
  | version
  deriving DecidableEq, Repr

namespace OptionName

def takesValue : OptionName → Bool
  | source | text | output => true
  | debug | escapeHtml | help | version => false

def ofLetter? (level : CommandLevel) (c : Char) : Option OptionName :=
  if c = 'd' then some debug
  else if c = 's' then some source
  else if c = 't' then some text
  else if c = 'o' then some output
  else if c = 'h' then some help
  else if c = 'V' ∧ level = .program then some version
  else none

def ofWord? (level : CommandLevel) (word : Text) : Option OptionName :=
  if word = "debug".toList then some debug
  else if word = "source".toList then some source
  else if word = "text".toList then some text
  else if word = "output".toList then some output
  else if word = "escape-html".toList then some escapeHtml
  else if word = "help".toList then some help
  else if word = "version".toList ∧ level = .program then some version
  else none

end OptionName

structure Draft where
  debug : Bool
  source? : Option Text
  text? : Option Text
  format? : Option OutputFormat
  escapeHtml : Bool
  deriving DecidableEq, Repr

inductive Stop where
  | help
  | version
  | usageError
  deriving DecidableEq, Repr

namespace Draft

def empty : Draft := ⟨false, none, none, none, false⟩

def setFlag (d : Draft) : OptionName → Except Stop Draft
  | .debug => if d.debug then .error .usageError else .ok { d with debug := true }
  | .escapeHtml => if d.escapeHtml then .error .usageError else .ok { d with escapeHtml := true }
  | .help => .error .help
  | .version => .error .version
  | .source | .text | .output => .error .usageError

def setValue (d : Draft) (name : OptionName) (value : Text) : Except Stop Draft :=
  match name with
  | .source =>
    if d.source?.isSome then .error .usageError else .ok { d with source? := some value }
  | .text => if d.text?.isSome then .error .usageError else .ok { d with text? := some value }
  | .output =>
    if d.format?.isSome then .error .usageError
    else match OutputFormat.ofName? value with
      | some format => .ok { d with format? := some format }
      | none => .error .usageError
  | .debug | .escapeHtml | .help | .version => .error .usageError

end Draft

/-- The letters after one dash: flags, and possibly an option with its value as the rest. Also
gives the option that still waits for its value. -/
def readLetters (level : CommandLevel) : Draft → Text → Except Stop (Draft × Option OptionName)
  | d, [] => .ok (d, none)
  | d, c :: cs =>
    match OptionName.ofLetter? level c with
    | none => .error .usageError
    | some name =>
      if name.takesValue then
        match cs with
        | [] => .ok (d, some name)
        | '=' :: value => (d.setValue name value).map (·, none)
        | value => (d.setValue name value).map (·, none)
      else
        match d.setFlag name with
        | .ok d => readLetters level d cs
        | .error stop => .error stop

def readWord (level : CommandLevel) (d : Draft) (word : Text) :
    Except Stop (Draft × Option OptionName) :=
  match OptionName.ofWord? level (word.takeWhile (· ≠ '=')), word.dropWhile (· ≠ '=') with
  | none, _ => .error .usageError
  | some name, [] =>
    if name.takesValue then .ok (d, some name) else (d.setFlag name).map (·, none)
  | some name, _ :: value =>
    if name.takesValue then (d.setValue name value).map (·, none) else .error .usageError

def isValue : Text → Bool
  | '-' :: _ :: _ => false
  | _ => true

def readArgument (level : CommandLevel) (d : Draft) :
    Text → Except Stop (Draft × Option OptionName)
  | '-' :: '-' :: word => readWord level d word
  | '-' :: c :: cs => readLetters level d (c :: cs)
  | _ => .error .usageError

def readArguments (level : CommandLevel) : Draft → List Text → Except Stop Draft
  | d, [] => .ok d
  | d, argument :: rest =>
    if argument = ['-', '-'] then (if rest.isEmpty then .ok d else .error .usageError)
    else
      match readArgument level d argument with
      | .error stop => .error stop
      | .ok (d, none) => readArguments level d rest
      | .ok (d, some name) =>
        match rest with
        | [] => .error .usageError
        | value :: rest =>
          if isValue value then
            match d.setValue name value with
            | .ok d => readArguments level d rest
            | .error stop => .error stop
          else .error .usageError

def readSetting : Option Text → Except Stop Bool
  | none => .ok false
  | some value =>
    if value = "true".toList then .ok true
    else if value = "false".toList then .ok false
    else .error .usageError

/-- Whether debug messages are asked for. The debug option stands in for the variable when it is
an option of the program itself; the variable is read all the same when it is one of `tokens`. -/
def Draft.wantsDebug (level : CommandLevel) (setting? : Option Text) (d : Draft) :
    Except Stop Bool :=
  if d.debug ∧ level = .program then .ok true else (readSetting setting?).map (d.debug || ·)

def Draft.finish (level : CommandLevel) (setting? : Option Text) (d : Draft) :
    Except Stop Options :=
  match d.wantsDebug level setting? with
  | .error stop => .error stop
  | .ok debug =>
    let options := fun channel =>
      Options.mk debug channel (d.format?.getD .text) d.escapeHtml
    match d.source?, d.text? with
    | some _, some _ => .error .usageError
    | some path, none => .ok (options (.file path))
    | none, some text => .ok (options (.inline text))
    | none, none => .ok (options .standardInput)

def readCommand (level : CommandLevel) (setting? : Option Text) (arguments : List Text) :
    Option Invocation :=
  match (readArguments level .empty arguments).bind (Draft.finish level setting?) with
  | .ok options => some (.tokens options)
  | .error .help => some (.help level)
  | .error .version => some .version
  | .error .usageError => none

end CommandLine

/-- What the command line asks for. A command's name counts as the first argument only. -/
def Invocation.ofArguments? (setting? : Option Text) (arguments : List Text) : Option Invocation :=
  match arguments with
  | [] => CommandLine.readCommand .program setting? []
  | first :: rest =>
    if first = "tokens".toList then CommandLine.readCommand .tokens setting? rest
    else if first = "help".toList then
      if rest = [] then some (.help .program)
      else if rest = ["tokens".toList] then some (.help .tokens)
      else none
    else CommandLine.readCommand .program setting? arguments

end ScriptLexer
