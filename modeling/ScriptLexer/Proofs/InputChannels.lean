import ScriptLexer.Program.Run

namespace ScriptLexer

theorem Text.ofBytes?_eq_some_iff {bytes : ByteArray} {s : Text} :
    ofBytes? bytes = some s ↔ bytes = s.toBytes := by
  constructor
  · intro h
    exact (toBytes_of_ofBytes? h).symm
  · rintro rfl
    exact ofBytes?_toBytes s

def Channel.path? : Channel → Option Text
  | .file path => some path
  | .inline _ | .standardInput => none

def Reading.Refuses : Reading → Failure → Prop
  | .failed message, f => f = .io message
  | .bytes content, f =>
    (∀ s : Text, content ≠ s.toBytes) ∧ f = .io "stream did not contain valid UTF-8".toList

namespace World

def Holds (w : World) : Channel → Text → Prop
  | .inline text, s => s = text
  | .file path, s => w.entry path = .file s.toBytes
  | .standardInput, s => w.standardInput = s.toBytes

def Refuses (w : World) : Channel → Failure → Prop
  | .inline _, _ => False
  | .file path, f =>
    w.entry path = .missing ∧ f = .path ("Path does not exist: ".toList ++ path) ∨
    w.entry path = .irregular ∧ f = .path ("Not a file: ".toList ++ path) ∨
    ∃ reading, w.entry path = .file reading ∧ reading.Refuses f
  | .standardInput, f => w.standardInput.Refuses f

theorem decode_eq_ok_iff {path? : Option Text} {reading : Reading} {input : SourceInput} :
    decode path? reading = .ok input ↔ reading = input.text.toBytes ∧ input.path? = path? := by
  obtain ⟨inputPath?, text⟩ := input
  cases reading with
  | failed message => simp [decode]
  | bytes content =>
    rw [Reading.bytes.injEq, ← Text.ofBytes?_eq_some_iff, decode]
    cases Text.ofBytes? content with
    | none => simp
    | some s => simp [and_comm, eq_comm]

theorem decode_eq_error_iff {path? : Option Text} {reading : Reading} {f : Failure} :
    decode path? reading = .error f ↔ reading.Refuses f := by
  cases reading with
  | failed message => simp [decode, Reading.Refuses, eq_comm]
  | bytes content =>
    simp only [Reading.Refuses, ne_eq, ← Text.ofBytes?_eq_some_iff, decode]
    cases Text.ofBytes? content with
    | none => simp [Failure.invalidEncoding, eq_comm]
    | some s => simp

theorem read_eq_ok_iff {w : World} {channel : Channel} {input : SourceInput} :
    w.read channel = .ok input ↔ w.Holds channel input.text ∧ input.path? = channel.path? := by
  cases channel with
  | inline text =>
    obtain ⟨path?, s⟩ := input
    simp [read, Holds, Channel.path?, and_comm, eq_comm]
  | standardInput => exact decode_eq_ok_iff
  | file path =>
    rw [read, Holds, Channel.path?]
    cases hentry : w.entry path with
    | missing => simp
    | irregular => simp
    | file reading => simpa using decode_eq_ok_iff

theorem read_eq_error_iff {w : World} {channel : Channel} {f : Failure} :
    w.read channel = .error f ↔ w.Refuses channel f := by
  cases channel with
  | inline text => simp [read, Refuses]
  | standardInput => exact decode_eq_error_iff
  | file path =>
    rw [read, Refuses]
    cases hentry : w.entry path with
    | missing => simp [Failure.missingPath, eq_comm]
    | irregular => simp [Failure.notAFile, eq_comm]
    | file reading => simpa using decode_eq_error_iff

end World

namespace Channel

def label : Channel → Text
  | .file path => path
  | .inline _ | .standardInput => "<input>".toList

def mention (directory : Text) : Channel → Text
  | .file path => " in ".toList ++ Path.shownFrom directory path
  | .inline _ | .standardInput => []

end Channel

namespace Program

open World

def complaint (mention s : Text) (d : Diagnostic) : Text :=
  "Error: ".toList ++
    ("Syntax error".toList ++ mention ++
      " at line ".toList ++ Text.ofNat (Place.ofOffset s d.location.start).line ++
      ", column ".toList ++ Text.ofNat (Place.ofOffset s d.location.start).column ++
      ": ".toList ++ d.message) ++ ['\n']

def messages (debug : Bool) (label mention s : Text) : Text :=
  debugLines debug
    ["Tokenizing ".toList ++ Text.ofNat s.length ++ " characters from ".toList ++ label,
      endedMessage (tokenize s)] ++
  match tokenize s with
  | .ok _ => []
  | .error d => complaint mention s d

def statusOf : Except Diagnostic (List Token) → ExitStatus
  | .ok _ => .success
  | .error _ => .badSource

def output (format : OutputFormat) (escapeHtml : Bool) : Except Diagnostic (List Token) → Text
  | .ok ts => emit escapeHtml (Listing.tokens format Listing.noTokens ts)
  | .error d => ((Listing.diagnostic? format d).map (emit escapeHtml)).getD []

theorem beganMessage_eq (channel : Channel) (s : Text) :
    beganMessage ⟨channel.path?, s⟩ =
      "Tokenizing ".toList ++ Text.ofNat s.length ++ " characters from ".toList ++
        channel.label := by
  cases channel <;> rfl

theorem text_ofSource (directory : Text) (channel : Channel) (s : Text) (d : Diagnostic) :
    (SourceDiagnostic.ofSource d s (channel.path?.map (Path.shownFrom directory))).text =
      "Syntax error".toList ++ channel.mention directory ++
        " at line ".toList ++ Text.ofNat (Place.ofOffset s d.location.start).line ++
        ", column ".toList ++ Text.ofNat (Place.ofOffset s d.location.start).column ++
        ": ".toList ++ d.message := by
  cases channel <;> rfl

theorem errorLine_failureOf (directory : Text) (channel : Channel) (s : Text) (d : Diagnostic) :
    errorLine (.failure (failureOf directory ⟨channel.path?, s⟩ d)) =
      complaint (channel.mention directory) s d := by
  unfold errorLine complaint
  apply congrArg fun t => "Error: ".toList ++ t ++ ['\n']
  exact text_ofSource directory channel s d

theorem execute_of_holds {w : World} {options : Options} {s : Text}
    (h : w.Holds options.channel s) :
    execute w options =
      ⟨statusOf (tokenize s), output options.format options.escapeHtml (tokenize s),
        messages options.debug options.channel.label
          (options.channel.mention w.workingDirectory) s⟩ := by
  have hread : w.read options.channel = .ok ⟨options.channel.path?, s⟩ :=
    read_eq_ok_iff.mpr ⟨h, rfl⟩
  simp only [execute, hread, runOn, messages, beganMessage_eq]
  cases tokenize s with
  | ok ts => simp only [statusOf, output, List.append_nil]
  | error d =>
    simp only [errorLine_failureOf]
    rfl

theorem channels_agree (x : Text) (debug : Bool) (format : OutputFormat) (escapeHtml : Bool)
    {path : Text} {wInline wFile wStream : World}
    (hfile : wFile.entry path = .file x.toBytes) (hstream : wStream.standardInput = x.toBytes) :
    let inline := execute wInline ⟨debug, .inline x, format, escapeHtml⟩
    let file := execute wFile ⟨debug, .file path, format, escapeHtml⟩
    let stream := execute wStream ⟨debug, .standardInput, format, escapeHtml⟩
    inline = stream ∧ file.status = inline.status ∧ file.stdout = inline.stdout ∧
      inline.stderr = messages debug "<input>".toList [] x ∧
      file.stderr =
        messages debug path (" in ".toList ++ Path.shownFrom wFile.workingDirectory path) x := by
  intro inline file stream
  have hinline : inline = _ := execute_of_holds (s := x) rfl
  have hfile : file = _ := execute_of_holds (s := x) hfile
  have hstream : stream = _ := execute_of_holds (s := x) hstream
  rw [hinline, hfile, hstream]
  exact ⟨rfl, rfl, rfl, rfl, rfl⟩

theorem channels_agree_marked :
    let x : Text := "\uFEFFé '".toList
    let path : Text := "/home/é.js".toList
    let w : World := ⟨"/home".toList,
      fun p => if p = path then .file x.toBytes else .missing, x.toBytes, none⟩
    let run := fun channel : Channel => execute w ⟨true, channel, .json, true⟩
    w.entry path = .file x.toBytes ∧ w.standardInput = x.toBytes ∧
      run (.inline x) = run .standardInput ∧
      (run (.file path)).status = (run (.inline x)).status ∧
      (run (.file path)).stdout = (run (.inline x)).stdout ∧
      (run (.inline x)).stderr = messages true "<input>".toList [] x ∧
      (run (.file path)).stderr =
        messages true path (" in ".toList ++ Path.shownFrom "/home".toList path) x := by
  intro x path w run
  have hfile : w.entry path = .file x.toBytes := by simp [w]
  exact ⟨hfile, rfl, channels_agree x true .json true hfile rfl⟩

end Program

end ScriptLexer
