import ScriptLexer.Proofs.Blanks
import ScriptLexer.Proofs.Shift
import ScriptLexer.Proofs.TokenRefinement

namespace ScriptLexer

def tokenizeFrom (start : Nat) (rest : Text) : Except Diagnostic (List Token) :=
  (Scan.fromIn Category.priority start rest).tokens

theorem tokenizeFrom_eq_ofLexemes {start : Nat} {rest : Text} {ls : List Lexeme}
    {failure? : Option Diagnostic} (h : Scan.Runs Category.priority start rest ls failure?) :
    tokenizeFrom start rest = Token.ofLexemes failure? ls := by
  rw [tokenizeFrom, Scan.tokens, h.fromIn_eq]

theorem tokenizeFrom_nil (start : Nat) : tokenizeFrom start [] = .ok [] :=
  tokenizeFrom_eq_ofLexemes .done

theorem tokenizeFrom_lexeme {l : Lexeme} {rest : Text}
    (h : Lexeme.firstIn l.start (l.text ++ rest) Category.priority = .ok l) :
    tokenizeFrom l.start (l.text ++ rest) =
      match l.value? with
      | .error d => .error d
      | .ok none => tokenizeFrom l.stop rest
      | .ok (some v) => (tokenizeFrom l.stop rest).map (⟨v, l.start, l.stop⟩ :: ·) := by
  have htail := Scan.runs_fromIn Category.priority l.stop rest
  rw [tokenizeFrom_eq_ofLexemes (.lexeme h htail), tokenizeFrom_eq_ofLexemes htail]
  rfl

theorem tokenizeFrom_shift (n start : Nat) (rest : Text) :
    tokenizeFrom (start + n) rest =
      ((tokenizeFrom start rest).map (List.map (Token.shift n))).mapError
        (Diagnostic.shift n) := by
  have hruns := Scan.runs_fromIn Category.priority start rest
  rw [tokenizeFrom_eq_ofLexemes hruns, tokenizeFrom_eq_ofLexemes (hruns.shift n),
    Token.ofLexemes_shift]

theorem tokenizeFrom_whitespace {w rest : Text} (hw : Category.whitespace.Language w)
    (hrest : rest.takeWhile CharClass.isBlank = []) (start : Nat) :
    tokenizeFrom start (w ++ rest) = tokenizeFrom (start + w.length) rest := by
  let l : Lexeme := ⟨.whitespace, w, start, start + w.length⟩
  have hlong : Category.whitespace.IsLongest w (w ++ rest) := by
    apply Category.recognize?_eq_some_iff.mp
    rw [Category.recognize?, Trivia.blanks?_append hw, hrest, List.append_nil]
  have hl : Lexeme.firstIn l.start (l.text ++ rest) Category.priority = .ok l := by
    apply (Lexeme.firstIn_eq_ok_iff_isLongest Category.priority_commentsFirst).mpr
    exact ⟨hlong, by simp [l], rfl, rfl⟩
  exact tokenizeFrom_lexeme hl

theorem tokenizeFrom_blanks {w : Text} (hw : ∀ c ∈ w, CharClass.isBlank c) (start : Nat)
    (rest : Text) : tokenizeFrom start (w ++ rest) = tokenizeFrom (start + w.length) rest := by
  by_cases hnil : w = []
  · rw [hnil]
    rfl
  · -- the blanks that `rest` begins with are read together with `w`
    obtain ⟨p, q, rfl, hp, hq⟩ : ∃ p q, rest = p ++ q ∧ (∀ c ∈ p, CharClass.isBlank c) ∧
        q.takeWhile CharClass.isBlank = [] :=
      ⟨_, _, List.takeWhile_append_dropWhile.symm, fun c hc => List.mem_takeWhile_imp hc,
        by simpa using List.dropWhile_get_zero_not _ rest⟩
    have hwp : Category.whitespace.Language (w ++ p) :=
      ⟨by simp [hnil], List.forall_mem_append.mpr ⟨hw, hp⟩⟩
    rw [← List.append_assoc, tokenizeFrom_whitespace hwp hq, List.length_append, ← Nat.add_assoc]
    by_cases hpnil : p = []
    · rw [hpnil]
      rfl
    · exact (tokenizeFrom_whitespace ⟨hpnil, hp⟩ hq _).symm

theorem Token.ofLexemes_cons_eq_ok {failure? : Option Diagnostic} {l : Lexeme}
    {ls : List Lexeme} {ts : List Token} (h : ofLexemes failure? (l :: ls) = .ok ts) :
    (l.value? = .ok none ∧ ofLexemes failure? ls = .ok ts) ∨
    ∃ v us, l.value? = .ok (some v) ∧ ofLexemes failure? ls = .ok us ∧
      ts = ⟨v, l.start, l.stop⟩ :: us := by
  rw [ofLexemes] at h
  cases hv : l.value? with
  | error d =>
    rw [hv] at h
    cases h
  | ok v? =>
    rw [hv] at h
    cases v? with
    | none => exact .inl ⟨rfl, h⟩
    | some v =>
      cases hus : ofLexemes failure? ls with
      | error d =>
        rw [hus] at h
        cases h
      | ok us =>
        rw [hus] at h
        exact .inr ⟨v, us, rfl, rfl, (Except.ok.inj h).symm⟩

/-- The tokens of a text come first when a blank and more is written after it. A line end is
needed where the text ends in a comment that would go on. -/
theorem Scan.Runs.tokenizeFrom_append {start : Nat} {a x : Text} {ls : List Lexeme}
    {failure? : Option Diagnostic} {ts : List Token}
    (h : Runs Category.priority start a ls failure?) (hts : Token.ofLexemes failure? ls = .ok ts)
    (hx : ∀ c ∈ x.head?, CharClass.isBlank c)
    (hcomment : ∀ l ∈ ls, l.category = .lineComment → l.stop = start + a.length →
      ∀ c ∈ x.head?, CharClass.isLineEnd c) :
    tokenizeFrom start (a ++ x) = (tokenizeFrom (start + a.length) x).map (ts ++ ·) := by
  induction h generalizing ts with
  | @done start =>
    obtain rfl := Except.ok.inj hts
    rw [List.nil_append, List.length_nil, Nat.add_zero]
    cases tokenizeFrom start x <;> rfl
  | stopped => cases hts
  | @lexeme l rest ls failure? hl _ ih =>
    obtain ⟨hr, -, hstop⟩ := Lexeme.firstIn_ok hl
    have hlength : l.start + (l.text ++ rest).length = l.stop + rest.length := by
      rw [List.length_append, hstop]
      omega
    rw [hlength] at hcomment ⊢
    rw [List.append_assoc]
    obtain ⟨hcl, hcls⟩ := List.forall_mem_cons.mp hcomment
    by_cases hw : l.category = .whitespace
    · -- whitespace may grow, but it is skipped all the same
      have hblank := Category.recognize?_language hr
      rw [hw] at hblank
      have htail : Token.ofLexemes failure? ls = .ok ts := by
        simpa only [Token.ofLexemes, Lexeme.value?, hw] using hts
      rw [tokenizeFrom_blanks hblank.2, ← hstop]
      exact ih htail hcls
    · have habs : ∀ c ∈ x.head?, l.category.absorbs c → rest ≠ [] := by
        rintro c hc habs rfl
        rcases Category.absorbs_iff.mp habs with hwhite | ⟨hline, hend⟩
        · exact hw hwhite
        · exact hend (hcl hline rfl c hc)
      have hl' := Lexeme.firstIn_append_blank Category.priority_commentsFirst hl hx habs
      rw [tokenizeFrom_lexeme hl']
      rcases Token.ofLexemes_cons_eq_ok hts with ⟨hv, htail⟩ | ⟨v, us, hv, htail, rfl⟩
      · rw [hv]
        exact ih htail hcls
      · rw [hv]
        dsimp only
        rw [ih htail hcls]
        cases tokenizeFrom (l.stop + rest.length) x <;> rfl

theorem tokenize_join {a w b : Text} {ta : List Token} (ha : tokenize a = .ok ta)
    (hw : ∀ c ∈ w, CharClass.isBlank c) (hfirst : ∃ c ∈ w.head?, CharClass.isLineEnd c) :
    (∀ tb, tokenize b = .ok tb →
      tokenize (a ++ w ++ b) = .ok (ta ++ tb.map (Token.shift (a ++ w).length))) ∧
    ∀ e, tokenize b = .error e →
      tokenize (a ++ w ++ b) = .error (e.shift (a ++ w).length) := by
  obtain ⟨c, hc, hend⟩ := hfirst
  have hne : w ≠ [] := by
    rintro rfl
    cases hc
  have hhead : (w ++ b).head? = some c := by rwa [List.head?_append_of_ne_nil w hne]
  have hruns := Scan.runs_fromIn Category.priority 0 a
  have hjoin : tokenize (a ++ w ++ b) =
      (((tokenize b).map (List.map (Token.shift (a ++ w).length))).mapError
        (Diagnostic.shift (a ++ w).length)).map (ta ++ ·) := by
    calc tokenize (a ++ w ++ b) = tokenizeFrom 0 (a ++ (w ++ b)) := by rw [List.append_assoc]; rfl
      _ = (tokenizeFrom (0 + a.length) (w ++ b)).map (ta ++ ·) := by
        apply hruns.tokenizeFrom_append ha
        · simpa [hhead] using CharClass.isBlank_of_isLineEnd hend
        · simpa [hhead] using fun _ _ _ _ => hend
      _ = (tokenizeFrom (0 + (a ++ w).length) b).map (ta ++ ·) := by
        rw [tokenizeFrom_blanks hw, List.length_append, Nat.add_assoc]
      _ = _ := by rw [tokenizeFrom_shift]; rfl
  rw [hjoin]
  constructor
  · intro tb hb
    rw [hb]
    rfl
  · intro e hb
    rw [hb]
    rfl

theorem tokenize_join_comment :
    tokenize ['x', '/', '/', '\n', ' ', '+'] =
        .ok [⟨.name ['x'], 0, 1⟩, ⟨.operator ['+'], 5, 6⟩] ∧
      tokenize ['x', '/', '/', '\n', ' ', '\x22', 'y'] =
        .error ⟨.unterminatedString, "Unterminated string".toList, ⟨5, some 7⟩⟩ := by
  have ha : tokenize ['x', '/', '/'] = .ok [⟨.name ['x'], 0, 1⟩] := by decide +kernel
  have hplus : tokenize ['+'] = .ok [⟨.operator ['+'], 0, 1⟩] := by decide +kernel
  have hquote : tokenize ['\x22', 'y'] =
      .error ⟨.unterminatedString, "Unterminated string".toList, ⟨0, some 2⟩⟩ := by
    decide +kernel
  have hw : ∀ c ∈ ['\n', ' '], CharClass.isBlank c := List.all_eq_true.mp (by decide)
  exact ⟨(tokenize_join ha hw ⟨'\n', rfl, by decide⟩).1 _ hplus,
    (tokenize_join ha hw ⟨'\n', rfl, by decide⟩).2 _ hquote⟩

end ScriptLexer
