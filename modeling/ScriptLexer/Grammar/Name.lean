import ScriptLexer.Text.CharClass

namespace ScriptLexer.Name

def longest? : Text → Option Text
  | c :: s => if CharClass.isNameStart c then some (c :: s.takeWhile CharClass.isNamePart) else none
  | [] => none

theorem longest?_split {s t : Text} (h : longest? s = some t) : t ≠ [] ∧ ∃ r, s = t ++ r := by
  rw [longest?.eq_def] at h
  split at h
  · split at h
    · obtain rfl := Option.some.inj h
      exact ⟨by simp, _, congrArg (_ :: ·) List.takeWhile_append_dropWhile.symm⟩
    · simp at h
  · simp at h

end ScriptLexer.Name
