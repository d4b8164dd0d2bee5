import ScriptLexer.Proofs.Diagnosis
import ScriptLexer.Proofs.Places
import ScriptLexer.Report.Failure

namespace ScriptLexer

def Diagnostic.CausedBy (d : Diagnostic) (source : Text) (a : Char) : Prop :=
  match d.kind with
  | .unterminatedString =>
    CharClass.isQuote a ∧ Category.UnclosedString (source.drop d.location.start)
  | .unterminatedComment =>
    a = '/' ∧ Category.UnclosedComment (source.drop d.location.start)
  | .invalidNumber =>
    a.isDigit ∧ ∃ l : Lexeme, .ok l ∈ (Cursor.ofText source).drain.1 ∧ l.category = .number ∧
      ¬l.IsFiniteNumber ∧ l.text.head? = some a ∧
      d = ⟨.invalidNumber, "Bad number '".toList ++ l.text ++ ['\x27'], ⟨l.start, some l.stop⟩⟩
  | .unrecognizedCharacter =>
    Category.BeginsNothing a ∧ d.message = "Unrecognized character '".toList ++ [a, '\x27']
  | .syntaxError => False

theorem Lexeme.firstIn_error_causedBy {covered r : Text} {a : Char} {d : Diagnostic}
    (h : firstIn covered.length (a :: r) Category.priority = .error d) :
    d.CausedBy (covered ++ a :: r) a := by
  have hdrop : (covered ++ a :: r).drop covered.length = a :: r := List.drop_left
  rcases (firstIn_eq_error_iff_unclosed Category.priority_commentsFirst).mp h with
    ⟨hcomment, rfl⟩ | ⟨hstring, rfl⟩ | ⟨hnothing, rfl⟩
  · refine ⟨?_, hdrop.symm ▸ hcomment⟩
    obtain ⟨s, hs, -⟩ := hcomment
    exact (List.cons.inj hs).1
  · refine ⟨?_, hdrop.symm ▸ hstring⟩
    obtain ⟨quote, s, hquote, hs, -⟩ := hstring
    exact (List.cons.inj hs).1 ▸ hquote
  · exact ⟨hnothing, rfl⟩

theorem Category.exists_digit_of_language {t : Text} (h : number.Language t) :
    ∃ a, t.head? = some a ∧ a.isDigit := by
  have hbegins := begins_of_language h []
  rw [List.append_nil] at hbegins
  obtain ⟨a, r, rfl, ha⟩ := hbegins
  exact ⟨a, rfl, ha⟩

theorem exists_cause_of_error {source : Text} {e : Diagnostic} (h : tokenize source = .error e) :
    ∃ a, source[e.location.start]? = some a ∧ ¬CharClass.isBlank a ∧ e.CausedBy source a := by
  obtain ⟨ls, failure?, hdrain, hruns⟩ := Cursor.exists_drain_eq source
  rcases ((tokenize_eq_error_iff hruns e).mp h).exists_cause hruns with
    ⟨l, hl, hc, hbad, rfl⟩ | ⟨covered, a, r, rfl, herror⟩
  · obtain ⟨-, -, b, hb, hblank⟩ := hruns.first_of_mem hl (by simp [hc])
    have hlanguage := hruns.language l hl
    rw [hc] at hlanguage
    obtain ⟨a, ha, hdigit⟩ := Category.exists_digit_of_language hlanguage
    obtain rfl : a = b := by
      rw [hruns.getElem?_start hl, ha] at hb
      exact Option.some.inj hb
    exact ⟨a, hb, hblank, hdigit, l, by simp [hdrain, hl], hc, hbad, ha, rfl⟩
  · obtain ⟨hblank, -, -, stop, hlocation, -⟩ :=
      Lexeme.firstIn_error_location Category.priority_commentsFirst herror
    exact ⟨a, by simp [hlocation], hblank, Lexeme.firstIn_error_causedBy herror⟩

theorem reported_place_shows_cause {source : Text} {e : Diagnostic}
    (h : tokenize source = .error e) (path? : Option Text) :
    let place := (SourceDiagnostic.ofSource e source path?).place
    1 ≤ place.line ∧ 1 ≤ place.column ∧ place.toOffset source = e.location.start ∧
      ∃ row a, source.lines[place.line - 1]? = some row ∧ row[place.column - 1]? = some a ∧
        source[e.location.start]? = some a ∧ e.CausedBy source a := by
  obtain ⟨a, ha, hblank, hcause⟩ := exists_cause_of_error h
  have hfeed : a ≠ '\n' := by
    rintro rfl
    exact hblank (by decide)
  obtain ⟨hstart, -⟩ := List.getElem?_eq_some_iff.mp ha
  obtain ⟨hplace, hoffset⟩ := Place.ofOffset_of_le (Nat.le_of_lt hstart)
  obtain ⟨row, hrow, hcolumn⟩ := Place.exists_line_of_getElem? ha hfeed
  exact ⟨hplace.line_pos, hplace.column_pos, hoffset, row, a, hrow, hcolumn, ha, hcause⟩

theorem reported_place_shows_cause_number :
    let source := "'é'\n 9e999".toList
    ∃ e, tokenize source = .error e ∧ e.CausedBy source '9' ∧
      (SourceDiagnostic.ofSource e source none).place = ⟨2, 2⟩ := by
  have h : tokenize "'é'\n 9e999".toList =
      .error ⟨.invalidNumber, "Bad number '9e999'".toList, ⟨5, some 10⟩⟩ := by
    decide +kernel
  obtain ⟨-, -, -, row, a, -, -, ha, hcause⟩ := reported_place_shows_cause h none
  obtain rfl : '9' = a := Option.some.inj ha
  exact ⟨_, h, hcause, by decide⟩

end ScriptLexer
