import ScriptLexer.Proofs.Escaping
import ScriptLexer.Proofs.RunOutcome

namespace ScriptLexer

/-- A character reference ends in a semicolon, so escaping neither adds nor takes away a line feed
at the end. -/
theorem Html.getLast?_escape_eq_lineFeed (s : Text) :
    (escape s).getLast? = some '\n' ↔ s.getLast? = some '\n' := by
  rcases List.eq_nil_or_concat s with rfl | ⟨t, c, rfl⟩
  · rfl
  · rw [List.concat_eq_append, escape_append, escape_singleton, List.getLast?_concat, reference]
    split
    · rename_i hamp
      simp [hamp]
    · split
      · rename_i hangle
        simp [hangle]
      · rw [List.getLast?_concat]

namespace Program

theorem endLine_escape (s : Text) : endLine (Html.escape s) = Html.escape (endLine s) := by
  unfold endLine
  by_cases hlast : s.getLast? = some '\n'
  · rw [if_pos hlast, if_pos ((Html.getLast?_escape_eq_lineFeed s).mpr hlast)]
  · have hescaped : (Html.escape s).getLast? ≠ some '\n' := by
      rwa [ne_eq, Html.getLast?_escape_eq_lineFeed]
    rw [if_neg hlast, if_neg hescaped, Html.escape_append]
    rfl

theorem emit_escaped (rendered : Text) : emit true rendered = Html.escape (emit false rendered) :=
  endLine_escape rendered

theorem output_escaped (format : OutputFormat) (result : Except Diagnostic (List Token)) :
    output format true result = Html.escape (output format false result) := by
  cases result with
  | ok ts => rw [output, output, emit_escaped]
  | error d =>
    rw [output, output]
    cases Listing.diagnostic? format d with
    | none => rfl
    | some rendered => exact emit_escaped rendered

/-- What a run comes to, before any of it is presented: its exit status, the tokens or the
diagnostic if a source was read, the messages for debugging, and the error message. -/
structure Account where
  status : ExitStatus
  result? : Option (Except Diagnostic (List Token))
  notes : List Text
  complaint : Text

def account (w : World) (channel : Channel) : Account :=
  match w.read channel with
  | .error f => ⟨(Fault.failure f).status, none, [], errorLine (.failure f)⟩
  | .ok input =>
    let result := tokenize input.text
    let complaint := match result with
      | .ok _ => []
      | .error d => errorLine (.failure (failureOf w.workingDirectory input d))
    ⟨statusOf result, some result, [beganMessage input, endedMessage result], complaint⟩

def Account.present (a : Account) (debug : Bool) (format : OutputFormat) (escapeHtml : Bool) :
    Outcome :=
  ⟨a.status, (a.result?.map (output format escapeHtml)).getD [],
    debugLines debug a.notes ++ a.complaint⟩

theorem debugLines_nil (debug : Bool) : debugLines debug [] = [] := by
  cases debug <;> rfl

theorem execute_eq_present (w : World) (options : Options) :
    execute w options =
      (account w options.channel).present options.debug options.format options.escapeHtml := by
  unfold execute account
  cases w.read options.channel with
  | error f =>
    rw [Account.present, debugLines_nil, List.nil_append]
    rfl
  | ok input =>
    dsimp only [runOn, Account.present]
    cases tokenize input.text with
    | ok ts =>
      rw [List.append_nil]
      rfl
    | error d => rfl

theorem Account.stdout_escaped (a : Account) (debug : Bool) (format : OutputFormat) :
    (a.present debug format true).stdout = Html.escape (a.present debug format false).stdout := by
  unfold present
  cases a.result? with
  | none => rfl
  | some result => apply output_escaped

theorem notes_eq_nil_iff (w : World) (channel : Channel) :
    (account w channel).notes = [] ↔ ∃ f, w.Refuses channel f := by
  unfold account
  cases hread : w.read channel with
  | error f =>
    have hrefused := World.read_eq_error_iff.mp hread
    exact ⟨fun _ => ⟨f, hrefused⟩, fun _ => rfl⟩
  | ok input =>
    constructor
    · intro hnil
      cases hnil
    · rintro ⟨f, hrefused⟩
      rw [World.read_eq_error_iff.mpr hrefused] at hread
      cases hread

theorem presentation_does_not_interfere (w : World) (channel : Channel) :
    let run (debug : Bool) (format : OutputFormat) (escapeHtml : Bool) : Outcome :=
      execute w ⟨debug, channel, format, escapeHtml⟩
    (∀ debug debug' format format' escapeHtml escapeHtml',
      (run debug format escapeHtml).status = (run debug' format' escapeHtml').status) ∧
    (∀ debug format, (run debug format true).stderr = (run debug format false).stderr ∧
      (run debug format true).stdout = Html.escape (run debug format false).stdout) ∧
    (∀ format escapeHtml,
      (run true format escapeHtml).stdout = (run false format escapeHtml).stdout) ∧
    (∃ notes : List Text, (notes = [] ↔ ∃ f, w.Refuses channel f) ∧
      ∀ format escapeHtml, (run true format escapeHtml).stderr =
        notes.flatMap (fun note => "[debug] ".toList ++ note ++ ['\n']) ++
          (run false format escapeHtml).stderr) ∧
    ∀ debug format format' escapeHtml,
      (run debug format escapeHtml).stderr = (run debug format' escapeHtml).stderr := by
  intro run
  have hrun (debug : Bool) (format : OutputFormat) (escapeHtml : Bool) :
      run debug format escapeHtml = (account w channel).present debug format escapeHtml := by
    apply execute_eq_present
  simp only [hrun]
  refine ⟨?_, ?_, ?_, ⟨(account w channel).notes, notes_eq_nil_iff w channel, ?_⟩, ?_⟩
  · intros
    rfl
  · intro debug format
    exact ⟨rfl, Account.stdout_escaped _ debug format⟩
  · intros
    rfl
  · intros
    rfl
  · intros
    rfl

end Program

end ScriptLexer
