import ScriptLexer.Program.Run

namespace ScriptLexer.Main

def readAll (bytes : IO ByteArray) : IO Reading := do
  try return .bytes (← bytes)
  catch error => return .failed (toString error).toList

def probe (path : String) : IO Entry := do
  if path.isEmpty then return .missing
  let place := (← IO.currentDir) / path
  let found? ← try pure (some (← place.metadata)) catch _ => pure none
  match found? with
  | none => return .missing
  | some found =>
    if found.type == .file then return .file (← readAll (IO.FS.readBinFile place))
    else return .irregular

def surroundings : Invocation → IO World
  | .tokens options => do
    let here ← IO.currentDir
    let world := fun entry input => World.mk here.toString.toList (fun _ => entry) input none
    match options.channel with
    | .inline _ => return world .missing ByteArray.empty
    | .file path => return world (← probe (String.ofList path)) ByteArray.empty
    | .standardInput => return world .missing (← readAll (do (← IO.getStdin).readBinToEnd))
  | _ => return ⟨[], fun _ => .missing, ByteArray.empty, none⟩

end ScriptLexer.Main

open ScriptLexer in
def main (arguments : List String) : IO UInt32 := do
  let setting? := (← IO.getEnv "JSLEX_DEBUG").map String.toList
  match Invocation.ofArguments? setting? (arguments.map String.toList) with
  | none =>
    IO.eprintln "error: the arguments cannot be understood\n\nFor more information, try '--help'."
    return 2
  | some invocation =>
    let outcome := Program.perform (← ScriptLexer.Main.surroundings invocation) invocation
    IO.print (String.ofList outcome.stdout)
    IO.eprint (String.ofList outcome.stderr)
    return outcome.status.code.toUInt32
