import ScriptLexer.Text.Basic

namespace ScriptLexer.Path

def components (path : Text) : List Text := path.splitOn '/'

def isIdle (component : Text) : Bool := component = [] || component = ['.']

def isAbsolute (path : Text) : Bool := path.head? = some '/'

def below? : List Text → List Text → Option (List Text)
  | [], path => some (path.dropWhile isIdle)
  | c :: directory, path =>
    match path.dropWhile isIdle with
    | d :: rest => if d = c then below? directory rest else none
    | [] => none

def shownFrom (directory path : Text) : Text :=
  if isAbsolute directory && isAbsolute path then
    match below? ((components directory).filter (!isIdle ·)) (components path) with
    | some rest => ['/'].intercalate (rest.reverse.dropWhile isIdle).reverse
    | none => path
  else path

end ScriptLexer.Path
