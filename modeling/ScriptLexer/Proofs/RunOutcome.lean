import Mathlib.Logic.ExistsUnique
import ScriptLexer.Program.FileTree
import ScriptLexer.Proofs.Escaping
import ScriptLexer.Proofs.InputChannels

namespace ScriptLexer

theorem TokenKind.exists_label_eq_cons (k : TokenKind) :
    ∃ c s, k.label = c :: s ∧ c ∈ ['N', 'S', 'O'] := by
  cases k with
  | name => exact ⟨'N', _, rfl, by decide⟩
  | string => exact ⟨'S', _, rfl, by decide⟩
  | number => exact ⟨'N', _, rfl, by decide⟩
  | operator => exact ⟨'O', _, rfl, by decide⟩

theorem Json.exists_block_eq (depth : Nat) (left right : Char) (lines : List Text) :
    ∃ inner : Text, block depth left right lines = left :: (inner ++ [right]) := by
  by_cases h : lines.isEmpty = true
  · exact ⟨[], by rw [block, if_pos h]; rfl⟩
  · refine ⟨'\n' :: ([',', '\n'].intercalate (lines.map (indent (depth + 1) ++ ·)) ++
      '\n' :: indent depth), ?_⟩
    rw [block, if_neg h]
    simp

theorem Diagnostic.exists_pretty_eq (d : Diagnostic) :
    ∃ inner : Text, d.toJson.pretty = '\x7b' :: (inner ++ ['\x7d']) := by
  rw [Json.pretty, toJson, Json.prettyAt]
  apply Json.exists_block_eq

theorem Reading.Refuses.status_eq {reading : Reading} {f : Failure} (h : reading.Refuses f) :
    (Fault.failure f).status = .badFile := by
  cases reading with
  | failed message =>
    obtain rfl : f = .io message := h
    rfl
  | bytes content =>
    obtain ⟨-, rfl⟩ := h
    rfl

theorem World.Refuses.status_eq {w : World} {channel : Channel} {f : Failure}
    (h : w.Refuses channel f) : (Fault.failure f).status = .badFile := by
  cases channel with
  | inline text => exact h.elim
  | standardInput => exact Reading.Refuses.status_eq h
  | file path =>
    obtain ⟨-, rfl⟩ | ⟨-, rfl⟩ | ⟨reading, -, hreading⟩ := h
    · rfl
    · rfl
    · exact hreading.status_eq

namespace Program

open World

def shown (escapeHtml : Bool) (rendered : Text) : Text :=
  if escapeHtml then rendered.flatMap Html.reference else rendered

theorem emit_eq (escapeHtml : Bool) (rendered : Text) :
    emit escapeHtml rendered = endLine (shown escapeHtml rendered) := by
  rw [emit, Html.escape_eq_flatMap, shown]

theorem shown_append (escapeHtml : Bool) (s t : Text) :
    shown escapeHtml (s ++ t) = shown escapeHtml s ++ shown escapeHtml t := by
  cases escapeHtml with
  | false => rfl
  | true => exact List.flatMap_append

theorem shown_singleton (escapeHtml : Bool) {c : Char} (hamp : c ≠ '&') (hangle : c ≠ '<') :
    shown escapeHtml [c] = [c] := by
  cases escapeHtml with
  | false => rfl
  | true => simp [shown, Html.reference, hamp, hangle]

theorem emit_concat (escapeHtml : Bool) (s : Text) {c : Char} (hamp : c ≠ '&') (hangle : c ≠ '<')
    (hline : c ≠ '\n') : emit escapeHtml (s ++ [c]) = shown escapeHtml (s ++ [c]) ++ ['\n'] := by
  rw [emit_eq, endLine, if_neg]
  rw [shown_append, shown_singleton escapeHtml hamp hangle, List.getLast?_concat]
  simpa using hline

theorem head?_emit_cons (escapeHtml : Bool) (s : Text) {c : Char} (hamp : c ≠ '&')
    (hangle : c ≠ '<') : (emit escapeHtml (c :: s)).head? = some c := by
  have hshown : shown escapeHtml (c :: s) = c :: shown escapeHtml s := by
    have happend := shown_append escapeHtml [c] s
    rwa [shown_singleton escapeHtml hamp hangle] at happend
  rw [emit_eq, hshown, endLine]
  split <;> rfl

theorem emit_diagnostic (escapeHtml : Bool) (d : Diagnostic) :
    emit escapeHtml d.toJson.pretty = shown escapeHtml d.toJson.pretty ++ ['\n'] := by
  obtain ⟨inner, hpretty⟩ := d.exists_pretty_eq
  rw [hpretty, ← List.cons_append]
  apply emit_concat <;> decide

/-- A listing of tokens begins with a bracket or a letter, never as an object does. -/
theorem exists_tokens_eq_cons (format : OutputFormat) (ts : List Token) :
    ∃ c s, Listing.tokens format Listing.noTokens ts = c :: s ∧
      c ∈ ['[', 'N', 'S', 'O'] := by
  cases format with
  | json =>
    obtain ⟨inner, hblock⟩ := Json.exists_block_eq 0 '[' ']' (Json.prettyItems 1 (ts.map Token.toJson))
    refine ⟨'[', inner ++ [']'], ?_, by decide⟩
    rw [Listing.tokens, Json.pretty, Json.prettyAt, hblock]
  | text =>
    cases ts with
    | nil => exact ⟨'N', _, rfl, by decide⟩
    | cons t ts =>
      obtain ⟨c, label, hlabel, hc⟩ := t.kind.exists_label_eq_cons
      simp only [Listing.tokens, List.isEmpty_cons, Bool.false_eq_true, if_false,
        List.flatMap_cons, Token.text, hlabel, List.cons_append]
      exact ⟨c, _, rfl, List.mem_cons_of_mem '[' hc⟩

theorem exists_head?_emit_tokens (format : OutputFormat) (escapeHtml : Bool) (ts : List Token) :
    ∃ c ∈ ['[', 'N', 'S', 'O'],
      (emit escapeHtml (Listing.tokens format Listing.noTokens ts)).head? = some c := by
  obtain ⟨c, s, htokens, hc⟩ := exists_tokens_eq_cons format ts
  refine ⟨c, hc, ?_⟩
  rw [htokens]
  apply head?_emit_cons
  · rintro rfl
    exact absurd hc (by decide)
  · rintro rfl
    exact absurd hc (by decide)

inductive Ending where
  | listed
  | rejected
  | unread
  deriving DecidableEq, Repr

namespace Ending

def code : Ending → Nat
  | listed => 0
  | rejected => 2
  | unread => 4

def Leaves (w : World) (options : Options) (o : Outcome) : Ending → Prop
  | listed => ∃ s ts, w.Holds options.channel s ∧ tokenize s = .ok ts ∧ o.stderr = [] ∧
      ∃ text, text = shown options.escapeHtml (Listing.tokens options.format Listing.noTokens ts) ∧
        (text.getLast? = some '\n' ∧ o.stdout = text ∨
          text.getLast? ≠ some '\n' ∧ o.stdout = text ++ ['\n'])
  | rejected => ∃ s d, w.Holds options.channel s ∧ tokenize s = .error d ∧
      o.stderr = complaint (options.channel.mention w.workingDirectory) s d ∧
      o.stdout = match options.format with
        | .text => []
        | .json => shown options.escapeHtml d.toJson.pretty ++ ['\n']
  | unread => ∃ f, w.Refuses options.channel f ∧ o.stdout = [] ∧
      o.stderr = "Error: ".toList ++ f.text ++ ['\n']

def Describes (w : World) (options : Options) (o : Outcome) (e : Ending) : Prop :=
  o.status.code = e.code ∧ e.Leaves w options o

theorem Describes.unique {w : World} {options : Options} {o : Outcome} {e e' : Ending}
    (h : e.Describes w options o) (h' : e'.Describes w options o) : e' = e := by
  have hcode : e'.code = e.code := h'.1.symm.trans h.1
  revert hcode
  cases e <;> cases e' <;> decide

end Ending

theorem describes_listed {w : World} {options : Options} {s : Text} {ts : List Token}
    (hdebug : options.debug = false) (hheld : w.Holds options.channel s)
    (htokens : tokenize s = .ok ts) : Ending.listed.Describes w options (execute w options) := by
  rw [execute_of_holds hheld, hdebug, htokens]
  refine ⟨rfl, s, ts, hheld, htokens, ?_, _, rfl, ?_⟩
  · simp [messages, debugLines, htokens]
  · rw [output, emit_eq, endLine]
    split
    · exact .inl ⟨by assumption, rfl⟩
    · exact .inr ⟨by assumption, rfl⟩

theorem describes_rejected {w : World} {options : Options} {s : Text} {d : Diagnostic}
    (hdebug : options.debug = false) (hheld : w.Holds options.channel s)
    (htokens : tokenize s = .error d) : Ending.rejected.Describes w options (execute w options) := by
  rw [execute_of_holds hheld, hdebug, htokens]
  refine ⟨rfl, s, d, hheld, htokens, ?_, ?_⟩
  · simp [messages, debugLines, htokens]
  · rw [output]
    cases options.format with
    | text => rfl
    | json => exact emit_diagnostic options.escapeHtml d

theorem describes_unread {w : World} {options : Options} {f : Failure}
    (hrefused : w.Refuses options.channel f) :
    Ending.unread.Describes w options (execute w options) := by
  have hrun : execute w options = ⟨.badFile, [], errorLine (.failure f)⟩ := by
    simp only [execute, read_eq_error_iff.mpr hrefused, hrefused.status_eq]
  rw [hrun]
  exact ⟨rfl, f, hrefused, rfl, rfl⟩

theorem exists_describes_execute (w : World) {options : Options} (hdebug : options.debug = false) :
    ∃ e : Ending, e.Describes w options (execute w options) := by
  cases hread : w.read options.channel with
  | error f => exact ⟨.unread, describes_unread (read_eq_error_iff.mp hread)⟩
  | ok input =>
    obtain ⟨hheld, -⟩ := read_eq_ok_iff.mp hread
    cases htokens : tokenize input.text with
    | ok ts => exact ⟨.listed, describes_listed hdebug hheld htokens⟩
    | error d => exact ⟨.rejected, describes_rejected hdebug hheld htokens⟩

theorem Ending.Describes.stdout_ne_listing {w : World} {options : Options} {o : Outcome}
    {e : Ending} (h : e.Describes w options o) (hfailed : o.status.code ≠ 0)
    (format : OutputFormat) (escapeHtml : Bool) (ts : List Token) :
    o.stdout ≠ emit escapeHtml (Listing.tokens format Listing.noTokens ts) := by
  obtain ⟨c, hc, hhead⟩ := exists_head?_emit_tokens format escapeHtml ts
  intro hstdout
  rw [← hstdout] at hhead
  obtain ⟨hcode, hleft⟩ := h
  cases e with
  | listed => exact hfailed hcode
  | unread =>
    obtain ⟨f, -, hnone, -⟩ := hleft
    rw [hnone] at hhead
    simp at hhead
  | rejected =>
    obtain ⟨s, d, -, -, -, hdiagnostic⟩ := hleft
    rw [hdiagnostic] at hhead
    split at hhead
    · simp at hhead
    · obtain ⟨inner, hpretty⟩ := d.exists_pretty_eq
      rw [← emit_diagnostic, hpretty, head?_emit_cons options.escapeHtml _ (by decide) (by decide),
        Option.some.injEq] at hhead
      subst hhead
      exact absurd hc (by decide)

theorem run_ends_one_way {w : World} {arguments : List Text} {options : Options}
    (haccepted : Invocation.ofArguments? w.debugSetting? arguments = some (.tokens options))
    (hdebug : options.debug = false) :
    ∃ o, run w arguments = some o ∧ (∃! e : Ending, e.Describes w options o) ∧
      o.status.code ≠ 1 ∧
      (o.status.code ≠ 0 → ∀ format escapeHtml ts,
        o.stdout ≠ emit escapeHtml (Listing.tokens format Listing.noTokens ts)) := by
  obtain ⟨e, hdescribed⟩ := exists_describes_execute w hdebug
  refine ⟨execute w options, ?_, ⟨e, hdescribed, fun _ => hdescribed.unique⟩, ?_, ?_⟩
  · rw [run, haccepted, Option.map_some, perform]
  · rw [hdescribed.1]
    cases e <;> decide
  · exact hdescribed.stdout_ne_listing

theorem run_ends_one_way_escaped :
    let w : World := ⟨['/'], fun _ => .missing, ByteArray.empty, none⟩
    let arguments := ["--escape-html".toList, "-t".toList, "a<'&'".toList]
    let options : Options := ⟨false, .inline "a<'&'".toList, .text, true⟩
    Invocation.ofArguments? w.debugSetting? arguments = some (.tokens options) ∧
      options.debug = false ∧
      ∃ o, run w arguments = some o ∧ (∃! e : Ending, e.Describes w options o) ∧
        o.status.code ≠ 1 ∧
        (o.status.code ≠ 0 → ∀ format escapeHtml ts,
          o.stdout ≠ emit escapeHtml (Listing.tokens format Listing.noTokens ts)) ∧
        o.stdout =
          "Name a (0, 1)\nOperator &lt; (1, 2)\nString \"&amp;\" (2, 5)\n".toList := by
  intro w arguments options
  have haccepted : Invocation.ofArguments? w.debugSetting? arguments = some (.tokens options) := by
    decide
  have hrun : run w arguments = some ⟨.success,
      "Name a (0, 1)\nOperator &lt; (1, 2)\nString \"&amp;\" (2, 5)\n".toList, []⟩ := by
    decide +kernel
  obtain ⟨o, ho, hdescribed, hgeneral, hfailed⟩ := run_ends_one_way haccepted rfl
  refine ⟨haccepted, rfl, o, ho, hdescribed, hgeneral, hfailed, ?_⟩
  obtain rfl := Option.some.inj (hrun.symm.trans ho)
  rfl

/-- A file can be there and be a regular one, and hold no ill-formed text, and still be no source:
its reading may fail. -/
theorem run_ends_on_failed_read :
    let w : World := ⟨"/home".toList, (FileTree.below ["home".toList] [] []).entry "/home".toList,
      ByteArray.empty, none⟩
    let path := "/proc/self/mem".toList
    let options : Options := ⟨false, .file path, .text, false⟩
    Invocation.ofArguments? w.debugSetting? ["-s".toList, path] = some (.tokens options) ∧
      run w ["-s".toList, path] =
        some ⟨.badFile, [], "Error: IO error: Input/output error (os error 5)\n".toList⟩ ∧
      ¬∀ o, run w ["-s".toList, path] = some o →
        o.status.code = 0 ∨ o.status.code = 2 ∨ o.status.code = 4 ∧ o.stdout = [] ∧
          (w.entry path = .missing ∨ w.entry path = .irregular ∨
            ∃ content, w.entry path = .file (.bytes content) ∧ ∀ s : Text, content ≠ s.toBytes) := by
  intro w path options
  have haccepted : Invocation.ofArguments? w.debugSetting? ["-s".toList, path] =
      some (.tokens options) := by
    decide
  have hentry : w.entry path = .file (.failed "Input/output error (os error 5)".toList) :=
    FileTree.entry_processMemory "home".toList "/home".toList
  have hrun : run w ["-s".toList, path] =
      some ⟨.badFile, [], "Error: IO error: Input/output error (os error 5)\n".toList⟩ := by
    rw [run, haccepted, Option.map_some, perform, execute, World.read, hentry]
    rfl
  refine ⟨haccepted, hrun, ?_⟩
  intro h
  rcases h _ hrun with hcode | hcode | ⟨-, -, hmissing | hirregular | ⟨content, hcontent, -⟩⟩
  · exact absurd hcode (by decide)
  · exact absurd hcode (by decide)
  · rw [hentry] at hmissing
    cases hmissing
  · rw [hentry] at hirregular
    cases hirregular
  · rw [hentry] at hcontent
    cases hcontent

end Program

end ScriptLexer
