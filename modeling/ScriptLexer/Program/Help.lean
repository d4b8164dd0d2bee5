import ScriptLexer.Text.Basic
import ScriptLexer.Program.Options

namespace ScriptLexer.Help

def optionLines : List String :=
  ["Options:",
    "  -d, --debug            Enable debug logging [env: JSLEX_DEBUG=]",
    "  -s, --source <SOURCE>  Path to the source file (reads stdin when neither --source nor --text is given)",
    "  -t, --text <TEXT>      Source text to tokenize",
    "  -o, --output <OUTPUT>  Output format: text or json [default: text] [possible values: text, json]",
    "      --escape-html      Escape '&' and '<' in the rendered output",
    "  -h, --help             Print help"]

def lines : CommandLevel → List String
  | .program =>
    ["Tokenize JavaScript-like source text. Defaults to 'tokens' if no subcommand is provided.",
      "",
      "Usage: jslex [OPTIONS]",
      "       jslex <COMMAND>",
      "",
      "Commands:",
      "  tokens  Print the token stream of a source",
      "  help    Print this message or the help of the given subcommand(s)",
      ""] ++ optionLines ++
    ["  -V, --version          Print version"]
  | .tokens =>
    ["Print the token stream of a source",
      "",
      "Usage: jslex tokens [OPTIONS]",
      ""] ++ optionLines

def text (level : CommandLevel) : Text := (lines level).flatMap fun line => line.toList ++ ['\n']

def version : Text := "jslex 0.1.0\n".toList

end ScriptLexer.Help
