import ScriptLexer.Program.Run

/-!
Without the name of a command the program does what `tokens` does. Both read the same options, the
version apart. They differ in one place: beside the debug option the program itself does not look at
the debug variable, so that a value it would not understand goes unnoticed there.
-/

namespace ScriptLexer

namespace CommandLine

def Stop.withoutVersion : Stop → Stop
  | .version | .usageError => .usageError
  | .help => .help

theorem OptionName.ofLetter?_tokens (c : Char) :
    ofLetter? .tokens c = (ofLetter? .program c).filter (· ≠ .version) := by
  by_cases hc : c = 'V'
  · subst hc
    rfl
  · simp only [ofLetter?, hc, false_and, if_false]
    repeat' split
    all_goals rfl

theorem OptionName.ofWord?_tokens (word : Text) :
    ofWord? .tokens word = (ofWord? .program word).filter (· ≠ .version) := by
  by_cases hword : word = "version".toList
  · subst hword
    rfl
  · simp only [ofWord?, hword, false_and, if_false]
    repeat' split
    all_goals rfl

theorem Draft.ne_version_of_setFlag {d : Draft} {name : OptionName} {stop : Stop}
    (hname : name ≠ .version) (h : d.setFlag name = .error stop) : stop ≠ .version := by
  rintro rfl
  revert h
  cases name with
  | version => exact absurd rfl hname
  | debug =>
    rw [setFlag]
    split <;> simp
  | escapeHtml =>
    rw [setFlag]
    split <;> simp
  | help | source | text | output => simp [setFlag]

theorem Draft.ne_version_of_setValue {d : Draft} {name : OptionName} {value : Text} {stop : Stop}
    (h : d.setValue name value = .error stop) : stop ≠ .version := by
  rintro rfl
  revert h
  unfold setValue
  repeat' split
  all_goals simp

@[simp] theorem Stop.withoutVersion_usageError : usageError.withoutVersion = usageError := rfl

theorem Stop.withoutVersion_of_ne {stop : Stop} (h : stop ≠ .version) :
    stop.withoutVersion = stop := by
  cases stop with
  | version => exact absurd rfl h
  | help | usageError => rfl

@[simp] theorem mapError_ok {α : Type} (f : Stop → Stop) (a : α) :
    (Except.ok a).mapError f = .ok a := rfl

@[simp] theorem mapError_error {α : Type} (f : Stop → Stop) (stop : Stop) :
    (Except.error stop : Except Stop α).mapError f = .error (f stop) := rfl

theorem mapError_map_withoutVersion {α β : Type} {x : Except Stop α} (g : α → β)
    (h : ∀ stop, x = .error stop → stop ≠ .version) :
    (x.map g).mapError Stop.withoutVersion = x.map g := by
  cases x with
  | ok a => rfl
  | error stop => exact congrArg Except.error (Stop.withoutVersion_of_ne (h stop rfl))

theorem readLetters_tokens (d : Draft) (cs : Text) :
    readLetters .tokens d cs = (readLetters .program d cs).mapError Stop.withoutVersion := by
  induction cs generalizing d with
  | nil => rfl
  | cons c cs ih =>
    rw [readLetters.eq_def .tokens, readLetters.eq_def .program]
    simp only [OptionName.ofLetter?_tokens]
    cases OptionName.ofLetter? .program c with
    | none => rfl
    | some name =>
      by_cases hname : name = .version
      · subst hname
        rfl
      · simp only [Option.filter_some, hname, ne_eq, not_false_eq_true, decide_true, if_true]
        split
        · split
          · rfl
          · rw [mapError_map_withoutVersion _ fun _ => Draft.ne_version_of_setValue]
          · rw [mapError_map_withoutVersion _ fun _ => Draft.ne_version_of_setValue]
        · cases hset : d.setFlag name with
          | ok d => exact ih d
          | error stop =>
            have hstop := Draft.ne_version_of_setFlag hname hset
            simp only [mapError_error, Stop.withoutVersion_of_ne hstop]

theorem readWord_tokens (d : Draft) (word : Text) :
    readWord .tokens d word = (readWord .program d word).mapError Stop.withoutVersion := by
  rw [readWord, readWord, OptionName.ofWord?_tokens]
  cases OptionName.ofWord? .program (word.takeWhile (· ≠ '=')) with
  | none => rfl
  | some name =>
    by_cases hname : name = .version
    · subst hname
      cases word.dropWhile (· ≠ '=') <;> rfl
    · simp only [Option.filter_some, hname, ne_eq, not_false_eq_true, decide_true, if_true]
      cases word.dropWhile (· ≠ '=') with
      | nil =>
        simp only
        split
        · rfl
        · rw [mapError_map_withoutVersion _ fun _ => Draft.ne_version_of_setFlag hname]
      | cons c value =>
        simp only
        split
        · rw [mapError_map_withoutVersion _ fun _ => Draft.ne_version_of_setValue]
        · rfl

theorem readArgument_tokens (d : Draft) (argument : Text) :
    readArgument .tokens d argument =
      (readArgument .program d argument).mapError Stop.withoutVersion := by
  unfold readArgument
  split
  · apply readWord_tokens
  · apply readLetters_tokens
  · rfl

theorem readArguments_tokens (d : Draft) (arguments : List Text) :
    readArguments .tokens d arguments =
      (readArguments .program d arguments).mapError Stop.withoutVersion := by
  fun_induction readArguments .program d arguments with
  | case1 d => rfl
  | case2 d rest hrest => simp [readArguments, hrest]
  | case3 d rest hrest => simp [readArguments, hrest]
  | case4 d argument rest hdashes stop hread =>
    simp [readArguments, hdashes, readArgument_tokens, hread]
  | case5 d argument rest hdashes d' hread ih =>
    simpa [readArguments, hdashes, readArgument_tokens, hread] using ih
  | case6 d argument hdashes d' name hread =>
    simp [readArguments, hdashes, readArgument_tokens, hread]
  | case7 d argument hdashes d' name hread value rest hvalue d'' hset ih =>
    simpa [readArguments, hdashes, readArgument_tokens, hread, hvalue, hset] using ih
  | case8 d argument hdashes d' name hread value rest hvalue stop hset =>
    have hstop := Draft.ne_version_of_setValue hset
    simp [readArguments, hdashes, readArgument_tokens, hread, hvalue, hset,
      Stop.withoutVersion_of_ne hstop]
  | case9 d argument hdashes d' name hread value rest hvalue =>
    simp [readArguments, hdashes, readArgument_tokens, hread, hvalue]

def IsUnderstood (setting? : Option Text) : Prop :=
  setting? = none ∨ setting? = some "true".toList ∨ setting? = some "false".toList

theorem readSetting_of_isUnderstood {setting? : Option Text} (h : IsUnderstood setting?) :
    ∃ debug, readSetting setting? = .ok debug := by
  obtain rfl | rfl | rfl := h
  · exact ⟨false, rfl⟩
  · exact ⟨true, rfl⟩
  · exact ⟨false, rfl⟩

theorem readSetting_of_not_isUnderstood {setting? : Option Text} (h : ¬IsUnderstood setting?) :
    readSetting setting? = .error .usageError := by
  rw [IsUnderstood, not_or, not_or] at h
  obtain ⟨hnone, htrue, hfalse⟩ := h
  cases setting? with
  | none => exact absurd rfl hnone
  | some value =>
    rw [readSetting, if_neg (fun he => htrue (congrArg some he)),
      if_neg (fun he => hfalse (congrArg some he))]

theorem Draft.wantsDebug_tokens {setting? : Option Text} (h : IsUnderstood setting?) (d : Draft) :
    d.wantsDebug .tokens setting? = d.wantsDebug .program setting? := by
  obtain ⟨debug, hsetting⟩ := readSetting_of_isUnderstood h
  cases hd : d.debug <;> simp [wantsDebug, hd, hsetting, Except.map]

theorem Draft.finish_tokens {setting? : Option Text} (h : IsUnderstood setting?) (d : Draft) :
    d.finish .tokens setting? = d.finish .program setting? := by
  rw [finish, finish, wantsDebug_tokens h]

theorem Draft.finish_tokens_of_not {setting? : Option Text} (h : ¬IsUnderstood setting?)
    (d : Draft) : d.finish .tokens setting? = .error .usageError := by
  have hwants : d.wantsDebug .tokens setting? = .error .usageError := by
    simp [wantsDebug, readSetting_of_not_isUnderstood h, Except.map]
  simp only [finish, hwants]

theorem Draft.debug_of_finish {setting? : Option Text} (h : ¬IsUnderstood setting?) {d : Draft}
    {options : Options} (hfinish : d.finish .program setting? = .ok options) :
    options.debug = true := by
  have hwants : d.wantsDebug .program setting? = .ok true := by
    cases hd : d.debug with
    | true => simp [wantsDebug, hd]
    | false =>
      have herror : d.wantsDebug .program setting? = .error .usageError := by
        simp [wantsDebug, hd, readSetting_of_not_isUnderstood h, Except.map]
      simp [finish, herror] at hfinish
  simp only [finish, hwants] at hfinish
  split at hfinish
  · cases hfinish
  · cases hfinish
    rfl
  · cases hfinish
    rfl
  · cases hfinish
    rfl

theorem readCommand_eq_tokens_iff {level : CommandLevel} {setting? : Option Text}
    {arguments : List Text} {options : Options} :
    readCommand level setting? arguments = some (.tokens options) ↔
      ∃ d, readArguments level .empty arguments = .ok d ∧ d.finish level setting? = .ok options := by
  unfold readCommand
  cases readArguments level .empty arguments with
  | error stop => cases stop <;> simp [Except.bind]
  | ok d =>
    cases hfinish : d.finish level setting? with
    | error stop => cases stop <;> simp [Except.bind, hfinish]
    | ok o => simp [Except.bind, hfinish]

theorem readArguments_tokens_eq_ok_iff {d d' : Draft} {arguments : List Text} :
    readArguments .tokens d arguments = .ok d' ↔ readArguments .program d arguments = .ok d' := by
  rw [readArguments_tokens]
  cases readArguments .program d arguments <;> simp

theorem readCommand_tokens {setting? : Option Text} (h : IsUnderstood setting?)
    {arguments : List Text} {options : Options} :
    readCommand .tokens setting? arguments = some (.tokens options) ↔
      readCommand .program setting? arguments = some (.tokens options) := by
  simp only [readCommand_eq_tokens_iff, readArguments_tokens_eq_ok_iff, Draft.finish_tokens h]

theorem readCommand_tokens_of_not {setting? : Option Text} (h : ¬IsUnderstood setting?)
    {arguments : List Text} {d : Draft} (hread : readArguments .program .empty arguments = .ok d) :
    readCommand .tokens setting? arguments = none := by
  rw [readCommand, readArguments_tokens_eq_ok_iff.mpr hread, Except.bind,
    Draft.finish_tokens_of_not h]

theorem readCommand_word {first : Text} (hfirst : first.head? ≠ some '-') (level : CommandLevel)
    (setting? : Option Text) (rest : List Text) :
    readCommand level setting? (first :: rest) = none := by
  have hread : readArguments level .empty (first :: rest) = .error .usageError := by
    have hdashes : first ≠ ['-', '-'] := by
      rintro rfl
      exact hfirst rfl
    have hargument : readArgument level .empty first = .error .usageError := by
      unfold readArgument
      split
      · exact absurd rfl hfirst
      · exact absurd rfl hfirst
      · rfl
    simp only [readArguments, hdashes, if_false, hargument]
  rw [readCommand, hread, Except.bind]

end CommandLine

open CommandLine

/-- The arguments are options of the program itself: they name no command, and ask for neither help
nor the version. -/
def Invocation.IsDefault (setting? : Option Text) (arguments : List Text) (options : Options) :
    Prop :=
  arguments.head? ≠ some "tokens".toList ∧
    Invocation.ofArguments? setting? arguments = some (.tokens options)

theorem Invocation.ofArguments?_tokens (setting? : Option Text) (arguments : List Text) :
    ofArguments? setting? ("tokens".toList :: arguments) =
      readCommand .tokens setting? arguments := by
  simp [ofArguments?]

theorem Invocation.ofArguments?_help (setting? : Option Text) (rest : List Text)
    (options : Options) : ofArguments? setting? ("help".toList :: rest) ≠ some (.tokens options) := by
  rw [ofArguments?, if_neg (by decide), if_pos rfl]
  split
  · simp
  · split <;> simp

theorem Invocation.isDefault_iff {setting? : Option Text} {arguments : List Text}
    {options : Options} :
    IsDefault setting? arguments options ↔
      readCommand .program setting? arguments = some (.tokens options) := by
  cases arguments with
  | nil => simp [IsDefault, ofArguments?]
  | cons first rest =>
    by_cases htokens : first = "tokens".toList
    · subst htokens
      rw [readCommand_word (by decide)]
      simp [IsDefault]
    · by_cases hhelp : first = "help".toList
      · subst hhelp
        rw [readCommand_word (by decide)]
        exact ⟨fun h => absurd h.2 (ofArguments?_help setting? rest options), fun h => nomatch h⟩
      · rw [IsDefault, List.head?_cons, ofArguments?, if_neg htokens, if_neg hhelp]
        exact and_iff_right fun h => htokens (Option.some.inj h)

namespace Program

theorem run_of_tokens {w : World} {arguments : List Text} {options : Options}
    (h : Invocation.ofArguments? w.debugSetting? arguments = some (.tokens options)) :
    run w arguments = some (execute w options) := by
  rw [run, h, Option.map_some, perform]

theorem default_command_is_tokens (w : World) (arguments : List Text) (options : Options) :
    (Invocation.ofArguments? w.debugSetting? ("tokens".toList :: arguments) =
        some (.tokens options) →
      Invocation.IsDefault w.debugSetting? arguments options ∧
        run w arguments = run w ("tokens".toList :: arguments)) ∧
    (Invocation.IsDefault w.debugSetting? arguments options → IsUnderstood w.debugSetting? →
      Invocation.ofArguments? w.debugSetting? ("tokens".toList :: arguments) =
          some (.tokens options) ∧
        run w ("tokens".toList :: arguments) = run w arguments) ∧
    (Invocation.IsDefault w.debugSetting? arguments options → ¬IsUnderstood w.debugSetting? →
      options.debug = true ∧ run w ("tokens".toList :: arguments) = none) := by
  have htokens := Invocation.ofArguments?_tokens w.debugSetting? arguments
  refine ⟨?_, ?_, ?_⟩
  · intro hnamed
    have hrun := run_of_tokens hnamed
    by_cases hunderstood : IsUnderstood w.debugSetting?
    · rw [htokens, readCommand_tokens hunderstood] at hnamed
      have hdefault := Invocation.isDefault_iff.mpr hnamed
      exact ⟨hdefault, by rw [run_of_tokens hdefault.2, hrun]⟩
    · rw [htokens] at hnamed
      obtain ⟨d, -, hfinish⟩ := readCommand_eq_tokens_iff.mp hnamed
      rw [Draft.finish_tokens_of_not hunderstood] at hfinish
      cases hfinish
  · intro hdefault hunderstood
    have hnamed : Invocation.ofArguments? w.debugSetting? ("tokens".toList :: arguments) =
        some (.tokens options) := by
      rw [htokens, readCommand_tokens hunderstood]
      exact Invocation.isDefault_iff.mp hdefault
    exact ⟨hnamed, by rw [run_of_tokens hnamed, run_of_tokens hdefault.2]⟩
  · intro hdefault hunderstood
    obtain ⟨d, hread, hfinish⟩ := readCommand_eq_tokens_iff.mp (Invocation.isDefault_iff.mp hdefault)
    refine ⟨Draft.debug_of_finish hunderstood hfinish, ?_⟩
    rw [run, htokens, readCommand_tokens_of_not hunderstood hread, Option.map_none]

theorem default_command_is_tokens_attached :
    let w (setting : Text) : World := ⟨['/'], fun _ => .missing, ByteArray.empty, some setting⟩
    let arguments := ["-dttokens".toList, "-oJSON".toList]
    let options : Options := ⟨true, .inline "tokens".toList, .json, false⟩
    (Invocation.IsDefault (some "false".toList) arguments options ∧
      IsUnderstood (some "false".toList) ∧
      Invocation.ofArguments? (some "false".toList) ("tokens".toList :: arguments) =
        some (.tokens options) ∧
      run (w "false".toList) ("tokens".toList :: arguments) = run (w "false".toList) arguments) ∧
    Invocation.IsDefault (some "no".toList) arguments options ∧ ¬IsUnderstood (some "no".toList) ∧
      options.debug = true ∧ run (w "no".toList) ("tokens".toList :: arguments) = none := by
  intro w arguments options
  have hfalse : Invocation.IsDefault (some "false".toList) arguments options ∧
      IsUnderstood (some "false".toList) := ⟨⟨by decide, by decide +kernel⟩, .inr (.inr rfl)⟩
  have hno : Invocation.IsDefault (some "no".toList) arguments options ∧
      ¬IsUnderstood (some "no".toList) :=
    ⟨⟨by decide, by decide +kernel⟩, by unfold IsUnderstood; decide⟩
  have hboth (setting : Text) := default_command_is_tokens (w setting) arguments options
  exact ⟨⟨hfalse.1, hfalse.2, (hboth "false".toList).2.1 hfalse.1 hfalse.2⟩,
    hno.1, hno.2, (hboth "no".toList).2.2 hno.1 hno.2⟩

theorem default_command_differs :
    ¬∀ (w : World) (arguments : List Text) (options : Options),
      Invocation.IsDefault w.debugSetting? arguments options →
        run w ("tokens".toList :: arguments) = run w arguments := by
  intro h
  let w : World := ⟨['/'], fun _ => .missing, "a < 'b'".toUTF8, some "bad".toList⟩
  have hdefault : Invocation.IsDefault w.debugSetting? ["-d".toList]
      ⟨true, .standardInput, .text, false⟩ := ⟨by decide, by decide⟩
  have hnamed : Invocation.ofArguments? w.debugSetting? ["tokens".toList, "-d".toList] = none := by
    decide
  have hrun := h w ["-d".toList] _ hdefault
  rw [run_of_tokens hdefault.2, run, hnamed, Option.map_none] at hrun
  cases hrun

end Program

end ScriptLexer
