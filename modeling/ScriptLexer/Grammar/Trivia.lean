import ScriptLexer.Text.CharClass

namespace ScriptLexer.Trivia

def blanks? (s : Text) : Option Text :=
  match s.takeWhile CharClass.isBlank with
  | [] => none
  | t => some t

def lineComment? : Text → Option Text
  | '/' :: '/' :: s => some ('/' :: '/' :: s.takeWhile fun c => !CharClass.isLineEnd c)
  | _ => none

def throughClose? : Text → Option Text
  | [] => none
  | '*' :: '/' :: _ => some ['*', '/']
  | c :: s => (throughClose? s).map (c :: ·)

def blockComment? : Text → Option Text
  | '/' :: '*' :: s => (throughClose? s).map fun t => '/' :: '*' :: t
  | _ => none

theorem blanks?_split {s t : Text} (h : blanks? s = some t) : t ≠ [] ∧ ∃ r, s = t ++ r := by
  rw [blanks?] at h
  split at h
  · simp at h
  · rename_i hne
    obtain rfl := Option.some.inj h
    exact ⟨hne, _, List.takeWhile_append_dropWhile.symm⟩

theorem lineComment?_split {s t : Text} (h : lineComment? s = some t) :
    t ≠ [] ∧ ∃ r, s = t ++ r := by
  rw [lineComment?.eq_def] at h
  split at h
  · obtain rfl := Option.some.inj h
    exact ⟨by simp, _, congrArg (fun u => '/' :: '/' :: u) List.takeWhile_append_dropWhile.symm⟩
  · simp at h

theorem throughClose?_split {s t : Text} (h : throughClose? s = some t) : ∃ r, s = t ++ r := by
  fun_induction throughClose? s generalizing t with
  | case1 => simp at h
  | case2 s => exact ⟨s, by simp [← Option.some.inj h]⟩
  | case3 c s _ ih =>
    obtain ⟨u, hu, rfl⟩ := Option.map_eq_some_iff.1 h
    obtain ⟨r, rfl⟩ := ih hu
    exact ⟨r, rfl⟩

theorem blockComment?_split {s t : Text} (h : blockComment? s = some t) :
    t ≠ [] ∧ ∃ r, s = t ++ r := by
  rw [blockComment?.eq_def] at h
  split at h
  · obtain ⟨u, hu, rfl⟩ := Option.map_eq_some_iff.1 h
    obtain ⟨r, rfl⟩ := throughClose?_split hu
    exact ⟨by simp, r, rfl⟩
  · simp at h

end ScriptLexer.Trivia
