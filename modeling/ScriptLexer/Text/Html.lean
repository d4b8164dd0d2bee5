import ScriptLexer.Text.Basic

namespace ScriptLexer.Html

def escape (s : Text) : Text :=
  Text.replaceChar '<' ['&', 'l', 't', ';'] (Text.replaceChar '&' ['&', 'a', 'm', 'p', ';'] s)

@[simp] theorem escape_append (s t : Text) : escape (s ++ t) = escape s ++ escape t := by
  simp [escape]

def restoreAngle : Text → Text
  | '&' :: 'l' :: 't' :: ';' :: s => '<' :: restoreAngle s
  | c :: s => c :: restoreAngle s
  | [] => []

def restoreAmpersand : Text → Text
  | '&' :: 'a' :: 'm' :: 'p' :: ';' :: s => '&' :: restoreAmpersand s
  | c :: s => c :: restoreAmpersand s
  | [] => []

def unescape (s : Text) : Text := restoreAmpersand (restoreAngle s)

end ScriptLexer.Html
