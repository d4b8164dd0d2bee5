import ScriptLexer.Text.Basic

namespace ScriptLexer.Punctuator

def table : List Text :=
  [">>>=".toList,
    "===".toList, "!==".toList, ">>>".toList, "<<=".toList, ">>=".toList,
    "==".toList, "!=".toList, "<=".toList, ">=".toList, "&&".toList, "||".toList, "++".toList,
    "--".toList, "+=".toList, "-=".toList, "*=".toList, "/=".toList, "%=".toList, "&=".toList,
    "^=".toList, "|=".toList, "<<".toList, ">>".toList,
    ['+'], ['-'], ['*'], ['/'], ['%'], ['&'], ['|'], ['^'], ['~'], ['!'], ['='], ['<'], ['>'],
    ['('], [')'], ['['], [']'], ['\x7b'], ['\x7d'], [','], [';'], [':'], ['?'], ['.']]

def maxBytes : Nat := 4

def longestIn? (marks : List Text) : Nat → Text → Option Text
  | 0, _ => none
  | limit + 1, s =>
    match s.takeBytes? (limit + 1) with
    | some candidate => if candidate ∈ marks then some candidate else longestIn? marks limit s
    | none => longestIn? marks limit s

def longest? (s : Text) : Option Text := longestIn? table maxBytes s

theorem byteLength_le_maxBytes : ∀ mark ∈ table, Text.byteLength mark ≤ maxBytes := by
  decide

theorem nil_notMem_table : [] ∉ table := by
  decide

theorem longestIn?_split {marks : List Text} {limit : Nat} {s t : Text}
    (h : longestIn? marks limit s = some t) : t ∈ marks ∧ t ≠ [] ∧ ∃ r, s = t ++ r := by
  induction limit with
  | zero => simp [longestIn?] at h
  | succ limit ih =>
    rw [longestIn?] at h
    split at h
    · rename_i candidate hc
      split at h
      · obtain rfl := Option.some.inj h
        obtain ⟨r, hr, hn⟩ := Text.exists_append_of_takeBytes? hc
        refine ⟨‹_›, ?_, r, hr⟩
        rintro rfl
        simp at hn
      · exact ih h
    · exact ih h

theorem longest?_split {s t : Text} (h : longest? s = some t) : t ≠ [] ∧ ∃ r, s = t ++ r :=
  (longestIn?_split h).2

end ScriptLexer.Punctuator
