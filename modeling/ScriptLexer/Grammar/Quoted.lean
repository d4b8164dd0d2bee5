import ScriptLexer.Text.CharClass

namespace ScriptLexer.Quoted

def throughQuote? (quote : Char) : Text → Option Text
  | [] => none
  | [c] => if c = quote then some [c] else none
  | c :: d :: s =>
    if c = quote then some [c]
    else if c = '\\' then (throughQuote? quote s).map fun t => c :: d :: t
    else (throughQuote? quote (d :: s)).map (c :: ·)

def literal? : Text → Option Text
  | c :: s => if CharClass.isQuote c then (throughQuote? c s).map (c :: ·) else none
  | [] => none

/-- What stands between the quotes of a literal, with its backslashes as written: all bytes but the
first and the last, or nothing where these are not characters of their own. -/
def content (literal : Text) : Text :=
  ((literal.takeBytes? (literal.byteLength - 1)).bind (·.dropBytes? 1)).getD []

theorem throughQuote?_split {quote : Char} {s t : Text} (h : throughQuote? quote s = some t) :
    ∃ r, s = t ++ r := by
  fun_induction throughQuote? quote s generalizing t with
  | case1 => simp at h
  | case2 => exact ⟨[], by simp [← Option.some.inj h]⟩
  | case3 => simp at h
  | case4 d s => exact ⟨d :: s, by simp [← Option.some.inj h]⟩
  | case5 d s hc ih =>
    obtain ⟨u, hu, rfl⟩ := Option.map_eq_some_iff.1 h
    obtain ⟨r, rfl⟩ := ih hu
    exact ⟨r, rfl⟩
  | case6 c d s hc hd ih =>
    obtain ⟨u, hu, rfl⟩ := Option.map_eq_some_iff.1 h
    obtain ⟨r, hr⟩ := ih hu
    exact ⟨r, by rw [hr]; rfl⟩

theorem literal?_split {s t : Text} (h : literal? s = some t) : t ≠ [] ∧ ∃ r, s = t ++ r := by
  rw [literal?.eq_def] at h
  split at h
  · split at h
    · obtain ⟨u, hu, rfl⟩ := Option.map_eq_some_iff.1 h
      obtain ⟨r, rfl⟩ := throughQuote?_split hu
      exact ⟨by simp, r, rfl⟩
    · simp at h
  · simp at h

end ScriptLexer.Quoted
