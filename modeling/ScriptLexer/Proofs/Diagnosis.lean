import Mathlib.Algebra.Group.Nat.Even
import Mathlib.Data.List.Infix
import ScriptLexer.Proofs.Blanks
import ScriptLexer.Proofs.CursorInvariant
import ScriptLexer.Proofs.TokenRefinement

namespace ScriptLexer

namespace Trivia

theorem throughClose?_eq_none_iff {s : Text} : throughClose? s = none ↔ ¬['*', '/'] <:+: s := by
  fun_induction throughClose? s with
  | case1 => simp
  | case2 s => simpa using ⟨[], s, rfl⟩
  | case3 c s hne ih =>
    have hclose : ¬['*', '/'] <+: c :: s := by
      rintro ⟨r, hr⟩
      obtain ⟨rfl, rfl⟩ := List.cons.inj hr
      exact hne r rfl rfl
    rw [Option.map_eq_none_iff, ih, List.infix_cons_iff]
    tauto

theorem blockComment?_eq_none_iff {r : Text} :
    blockComment? ('/' :: '*' :: r) = none ↔ ¬['*', '/'] <:+: r := by
  rw [blockComment?, Option.map_eq_none_iff, throughClose?_eq_none_iff]

end Trivia

namespace Quoted

def trailingBackslashes (s : Text) : Nat := (s.reverse.takeWhile (· = '\\')).length

theorem trailingBackslashes_plain {c : Char} (hc : c ≠ '\\') (s : Text) :
    trailingBackslashes (c :: s) = trailingBackslashes s := by
  simp only [trailingBackslashes, List.reverse_cons, List.takeWhile_append]
  split
  · rename_i h
    simp [hc, h]
  · rfl

theorem even_trailingBackslashes_escaped (c : Char) (s : Text) :
    Even (trailingBackslashes ('\\' :: c :: s)) ↔ Even (trailingBackslashes s) := by
  have hr : ('\\' :: c :: s).reverse = s.reverse ++ [c, '\\'] := by simp
  simp only [trailingBackslashes, hr, List.takeWhile_append]
  split
  · rename_i h
    by_cases hc : c = '\\'
    · simp [hc, h, Nat.even_add_one]
    · simp [hc, h]
  · rfl

theorem Units.even_trailingBackslashes {quote : Char} {s : Text} (h : Units quote s) :
    Even (trailingBackslashes s) := by
  induction h with
  | nil => simp [trailingBackslashes]
  | plain _ hc _ ih => rwa [trailingBackslashes_plain hc]
  | escaped _ ih => rwa [even_trailingBackslashes_escaped]

theorem not_even_trailingBackslashes {quote : Char} {s u v : Text}
    (h : throughQuote? quote s = none) (hs : s = u ++ quote :: v) :
    ¬Even (trailingBackslashes u) := by
  fun_induction throughQuote? quote s generalizing u with
  | case1 => simp at hs
  | case2 => cases h
  | case3 c hc =>
    cases u with
    | nil => exact absurd (List.cons.inj hs).1 hc
    | cons d u => simp at hs
  | case4 => cases h
  | case5 d s hq ih =>
    rw [Option.map_eq_none_iff] at h
    -- the backslash takes the next character along, the quote itself included
    cases u with
    | nil => exact absurd (List.cons.inj hs).1 hq
    | cons b u =>
      obtain ⟨rfl, htail⟩ := List.cons.inj hs
      cases u with
      | nil => decide
      | cons e u =>
        rw [even_trailingBackslashes_escaped]
        exact ih h (List.cons.inj htail).2
  | case6 c d s hq hc ih =>
    rw [Option.map_eq_none_iff] at h
    cases u with
    | nil => exact absurd (List.cons.inj hs).1 hq
    | cons b u =>
      obtain ⟨rfl, htail⟩ := List.cons.inj hs
      rw [trailingBackslashes_plain hc]
      exact ih h htail

theorem literal?_eq_none_iff {quote : Char} (hq : CharClass.isQuote quote) {r : Text} :
    literal? (quote :: r) = none ↔
      ∀ u v, r = u ++ quote :: v → ¬Even (trailingBackslashes u) := by
  rw [literal?, if_pos hq, Option.map_eq_none_iff]
  constructor
  · intro h u v hs
    exact not_even_trailingBackslashes h hs
  · intro h
    cases ht : throughQuote? quote r with
    | none => rfl
    | some t =>
      obtain ⟨v, rfl⟩ := throughQuote?_split ht
      obtain ⟨units, hu, rfl⟩ := throughQuote?_units ht
      exact absurd hu.even_trailingBackslashes (h units v (by simp))

end Quoted

namespace Category

def UnclosedComment (s : Text) : Prop := ∃ r, s = '/' :: '*' :: r ∧ ¬['*', '/'] <:+: r

/-- A string literal begins the text, and an odd number of backslashes stands before each quote
that could close it. -/
def UnclosedString (s : Text) : Prop :=
  ∃ quote r, CharClass.isQuote quote ∧ s = quote :: r ∧
    ∀ u v, r = u ++ quote :: v → ¬Even (Quoted.trailingBackslashes u)

def BeginsNothing (a : Char) : Prop :=
  ¬CharClass.isBlank a ∧ ¬CharClass.isNamePart a ∧ ¬CharClass.isQuote a ∧
    ∀ mark ∈ Punctuator.table, mark.head? ≠ some a

theorem unclosedComment_iff {s : Text} :
    UnclosedComment s ↔ blockComment.Begins s ∧ blockComment.recognize? s = none := by
  constructor
  · rintro ⟨r, rfl, hr⟩
    exact ⟨⟨r, rfl⟩, Trivia.blockComment?_eq_none_iff.mpr hr⟩
  · rintro ⟨⟨r, rfl⟩, hr⟩
    exact ⟨r, rfl, Trivia.blockComment?_eq_none_iff.mp hr⟩

theorem unclosedString_iff {s : Text} :
    UnclosedString s ↔ string.Begins s ∧ string.recognize? s = none := by
  constructor
  · rintro ⟨quote, r, hq, rfl, hr⟩
    exact ⟨⟨quote, r, rfl, hq⟩, (Quoted.literal?_eq_none_iff hq).mpr hr⟩
  · rintro ⟨⟨quote, r, rfl, hq⟩, hr⟩
    exact ⟨quote, r, hq, rfl, (Quoted.literal?_eq_none_iff hq).mp hr⟩

theorem mem_table_of_head? {a : Char} {mark : Text} (hmark : mark ∈ Punctuator.table)
    (ha : mark.head? = some a) : [a] ∈ Punctuator.table := by
  have hhead := head_mem_table mark hmark
  rwa [List.headD_eq_head?_getD, ha, Option.getD_some] at hhead

theorem beginsNothing_iff {a : Char} {r : Text} :
    BeginsNothing a ↔ ∀ c : Category, ¬c.Begins (a :: r) := by
  constructor
  · rintro ⟨hblank, hname, hquote, hmark⟩ c hc
    have hoperator : ¬operator.Begins (a :: r) := by
      rintro ⟨b, s, hs, hb⟩
      obtain ⟨rfl, rfl⟩ := List.cons.inj hs
      exact hmark [a] hb rfl
    cases c with
    | whitespace =>
      obtain ⟨b, s, hs, hb⟩ := hc
      exact hblank ((List.cons.inj hs).1 ▸ hb)
    | lineComment =>
      obtain ⟨s, hs⟩ := hc
      exact hoperator (operator_begins_of_opensComment ⟨s, .inl hs⟩).1
    | blockComment =>
      obtain ⟨s, hs⟩ := hc
      exact hoperator (operator_begins_of_opensComment ⟨s, .inr hs⟩).1
    | name =>
      obtain ⟨b, s, hs, hb⟩ := hc
      exact hname (CharClass.isNamePart_iff.mpr (.inl ((List.cons.inj hs).1 ▸ hb)))
    | number =>
      obtain ⟨b, s, hs, hb⟩ := hc
      exact hname (CharClass.isNamePart_iff.mpr (.inr ((List.cons.inj hs).1 ▸ hb)))
    | string =>
      obtain ⟨b, s, hs, hb⟩ := hc
      exact hquote ((List.cons.inj hs).1 ▸ hb)
    | operator => exact hoperator hc
  · intro h
    refine ⟨?_, ?_, ?_, ?_⟩
    · intro ha
      exact h whitespace ⟨a, r, rfl, ha⟩
    · intro ha
      rcases CharClass.isNamePart_iff.mp ha with ha | ha
      · exact h name ⟨a, r, rfl, ha⟩
      · exact h number ⟨a, r, rfl, ha⟩
    · intro ha
      exact h string ⟨a, r, rfl, ha⟩
    · intro mark hmark ha
      exact h operator ⟨a, r, rfl, mem_table_of_head? hmark ha⟩

theorem find?_claims_eq_none_iff {order : List Category} (ho : CommentsFirst order) {a : Char}
    {r : Text} : order.find? (·.claims (a :: r)) = none ↔ BeginsNothing a := by
  rw [List.find?_eq_none, beginsNothing_iff (r := r)]
  constructor
  · intro h c hc
    exact h c (ho.complete c) (claims_of_begins hc)
  · intro h c _ hc
    exact h c (claims_iff_begins.mp hc)

end Category

namespace Lexeme

theorem firstIn_eq_error_iff {start : Nat} {rest : Text} {order : List Category}
    {d : Diagnostic} :
    firstIn start rest order = .error d ↔
      (∃ c o, order.find? (·.claims rest) = some c ∧ c.recognize? rest = none ∧
        c.opening? = some o ∧ d = unterminated o start rest) ∨
      (order.find? (·.claims rest) = none ∧ d = unrecognized (rest.headD '\uFFFD') start) := by
  rw [firstIn_eq_find?]
  cases hfind : order.find? (·.claims rest) with
  | none => simp [firstIn, eq_comm]
  | some c =>
    have hclaims : c.claims rest := by simpa using List.find?_some hfind
    rw [Option.toList_some, firstIn_cons]
    cases hr : c.recognize? rest with
    | some t => simp [hr]
    | none =>
      simp only [Category.claims, hr, Option.isSome_none, Bool.false_or] at hclaims
      obtain ⟨o, ho, hopens⟩ := (Option.any_eq_true _ _).mp hclaims
      have hf : c.opening?.filter (·.opens rest) = some o := by simp [ho, hopens]
      rw [hf]
      simp [hr, ho, eq_comm]

theorem firstIn_eq_error_iff_unclosed {start : Nat} {a : Char} {r : Text} {order : List Category}
    {d : Diagnostic} (ho : Category.CommentsFirst order) :
    firstIn start (a :: r) order = .error d ↔
      Category.UnclosedComment (a :: r) ∧
        d = ⟨.unterminatedComment, "Unterminated comment".toList,
          ⟨start, some (start + (a :: r).length)⟩⟩ ∨
      Category.UnclosedString (a :: r) ∧
        d = ⟨.unterminatedString, "Unterminated string".toList,
          ⟨start, some (start + (a :: r).length)⟩⟩ ∨
      Category.BeginsNothing a ∧
        d = ⟨.unrecognizedCharacter, "Unrecognized character '".toList ++ [a, '\x27'],
          ⟨start, some (start + 1)⟩⟩ := by
  rw [firstIn_eq_error_iff, Category.find?_claims_eq_none_iff ho]
  simp only [Category.find?_claims_eq_some_iff ho]
  constructor
  · rintro (⟨c, o, ⟨hclaims, -⟩, hr, hopening, rfl⟩ | ⟨hnone, rfl⟩)
    · have hbegins := Category.claims_iff_begins.mp hclaims
      cases c with
      | blockComment =>
        obtain rfl := Option.some.inj hopening
        exact .inl ⟨Category.unclosedComment_iff.mpr ⟨hbegins, hr⟩, rfl⟩
      | string =>
        obtain rfl := Option.some.inj hopening
        exact .inr (.inl ⟨Category.unclosedString_iff.mpr ⟨hbegins, hr⟩, rfl⟩)
      | _ => cases hopening
    · exact .inr (.inr ⟨hnone, rfl⟩)
  · rintro (⟨hcomment, rfl⟩ | ⟨hstring, rfl⟩ | ⟨hnone, rfl⟩)
    · obtain ⟨hbegins, hr⟩ := Category.unclosedComment_iff.mp hcomment
      exact .inl ⟨.blockComment, _, ⟨Category.claims_of_begins hbegins, by simp⟩, hr, rfl, rfl⟩
    · obtain ⟨hbegins, hr⟩ := Category.unclosedString_iff.mp hstring
      exact .inl ⟨.string, _, ⟨Category.claims_of_begins hbegins, by simp⟩, hr, rfl, rfl⟩
    · exact .inr ⟨hnone, rfl⟩

theorem firstIn_error_location {start : Nat} {a : Char} {r : Text} {order : List Category}
    {d : Diagnostic} (ho : Category.CommentsFirst order)
    (h : firstIn start (a :: r) order = .error d) :
    ¬CharClass.isBlank a ∧ d.kind ≠ .syntaxError ∧ d.kind ≠ .invalidNumber ∧
      ∃ stop, d.location = ⟨start, some stop⟩ ∧ start < stop ∧ stop ≤ start + (a :: r).length := by
  rcases (firstIn_eq_error_iff_unclosed ho).mp h with ⟨hu, rfl⟩ | ⟨hu, rfl⟩ | ⟨hu, rfl⟩
  · have hblank := Category.not_isBlank_of_begins (Category.unclosedComment_iff.mp hu).1 (by simp)
    exact ⟨hblank, by simp, by simp, _, rfl, by simp, Nat.le_refl _⟩
  · have hblank := Category.not_isBlank_of_begins (Category.unclosedString_iff.mp hu).1 (by simp)
    exact ⟨hblank, by simp, by simp, _, rfl, by simp, Nat.le_refl _⟩
  · exact ⟨hu.1, by simp, by simp, _, rfl, by simp, by simp⟩

end Lexeme

theorem Scan.Runs.getElem?_start {order : List Category} {source : Text} {ls : List Lexeme}
    {failure? : Option Diagnostic} (h : Runs order 0 source ls failure?) {l : Lexeme}
    (hl : l ∈ ls) : source[l.start]? = l.text.head? := by
  obtain ⟨covered, left, rfl, htile, -⟩ := h.tile
  obtain ⟨-, hlt, -⟩ := htile.bounds l hl
  rw [htile.text_eq_slice [] left rfl l hl, Text.slice, List.nil_append, List.head?_drop,
    List.getElem?_take, if_pos hlt]

theorem Scan.Runs.first_of_mem {order : List Category} {source : Text} {ls : List Lexeme}
    {failure? : Option Diagnostic} (h : Runs order 0 source ls failure?) {l : Lexeme}
    (hl : l ∈ ls) (hc : l.category ≠ .whitespace) :
    l.start < l.stop ∧ l.stop ≤ source.length ∧
      ∃ a, source[l.start]? = some a ∧ ¬CharClass.isBlank a := by
  have hbegins := Category.begins_of_language (h.language l hl) []
  rw [List.append_nil] at hbegins
  have hhead := h.getElem?_start hl
  obtain ⟨covered, left, rfl, htile, -⟩ := h.tile
  obtain ⟨-, hlt, hle⟩ := htile.bounds l hl
  refine ⟨hlt, ?_, ?_⟩
  · rw [List.length_append]
    omega
  · obtain ⟨a, r, hr, -⟩ := Category.ofFirst_of_begins hbegins
    rw [hr] at hbegins hhead
    exact ⟨a, hhead, Category.not_isBlank_of_begins hbegins hc⟩

theorem Scan.Runs.firstIn_of_failure {source : Text} {ls : List Lexeme} {failure? : Option Diagnostic}
    (h : Runs Category.priority 0 source ls failure?) {d : Diagnostic} (hd : d ∈ failure?) :
    ∃ covered a r, source = covered ++ a :: r ∧ Lexeme.Tile 0 covered ls ∧
      Lexeme.firstIn covered.length (a :: r) Category.priority = .error d := by
  obtain ⟨covered, left, rfl, htile, -, hsome⟩ := h.tile
  obtain ⟨hne, herror⟩ := hsome d hd
  obtain ⟨a, r, rfl⟩ := List.exists_cons_of_ne_nil hne
  rw [Nat.zero_add] at herror
  exact ⟨covered, a, r, rfl, htile, herror⟩

theorem Lexeme.FirstFailure.exists_cause {source : Text} {ls : List Lexeme}
    {failure? : Option Diagnostic} {e : Diagnostic}
    (hruns : Scan.Runs Category.priority 0 source ls failure?) (h : FirstFailure failure? ls e) :
    (∃ l ∈ ls, l.category = .number ∧ ¬l.IsFiniteNumber ∧
      e = ⟨.invalidNumber, "Bad number '".toList ++ l.text ++ ['\x27'],
        ⟨l.start, some l.stop⟩⟩) ∨
    ∃ covered a r, source = covered ++ a :: r ∧
      firstIn covered.length (a :: r) Category.priority = .error e := by
  rcases h with ⟨front, l, back, rfl, -, hc, hl, rfl⟩ | ⟨-, hfailure⟩
  · exact .inl ⟨l, List.mem_append_cons_self, hc, hl, rfl⟩
  · obtain ⟨covered, a, r, hsource, -, herror⟩ := hruns.firstIn_of_failure hfailure
    exact .inr ⟨covered, a, r, hsource, herror⟩

theorem Cursor.Between.next_error_iff {source before r : Text} {a : Char} {c : Cursor}
    (h : Between source before (a :: r) c) (hf : c.failed = false) {d : Diagnostic} :
    c.next.1 = some (.error d) ↔
      Lexeme.firstIn c.position (a :: r) Category.priority = .error d := by
  constructor
  · intro hd
    exact (h.firstIn_of_next hd).2
  · intro hd
    rw [Cursor.next, nextIn_of_error hf h.remaining? (by simp) hd]

theorem diagnostics_exact (source : Text) :
    (∀ c, Cursor.Reachable source c → c.failed = false → c.position < source.length →
      ∃ a r, c.remaining? = some (a :: r) ∧ a :: r = source.drop c.position ∧
        ∀ d, c.next.1 = some (.error d) ↔
          Category.UnclosedComment (a :: r) ∧
            d = ⟨.unterminatedComment, "Unterminated comment".toList,
              ⟨c.position, some source.length⟩⟩ ∨
          Category.UnclosedString (a :: r) ∧
            d = ⟨.unterminatedString, "Unterminated string".toList,
              ⟨c.position, some source.length⟩⟩ ∨
          Category.BeginsNothing a ∧
            d = ⟨.unrecognizedCharacter, "Unrecognized character '".toList ++ [a, '\x27'],
              ⟨c.position, some (c.position + 1)⟩⟩) ∧
      ∀ e, tokenize source = .error e →
        (∃ stop, e.location.stop? = some stop ∧ e.location.start < stop ∧
          stop ≤ source.length) ∧
        (∃ a, source[e.location.start]? = some a ∧ ¬CharClass.isBlank a) ∧
        e.kind ≠ .syntaxError ∧
        (e.kind = .invalidNumber → ∃ l : Lexeme, .ok l ∈ (Cursor.ofText source).drain.1 ∧
          l.category = .number ∧ ¬l.IsFiniteNumber ∧ e.location = ⟨l.start, some l.stop⟩) := by
  have ho := Category.priority_commentsFirst
  constructor
  · intro c hc hf hk
    obtain ⟨before, rest, hb⟩ := hc.between
    have hdrop : rest = source.drop c.position := by
      rw [← hb.append_eq, hb.position_eq, List.drop_left]
    have hlength : c.position + rest.length = source.length := by
      rw [hb.position_eq, ← hb.append_eq, List.length_append]
    cases rest with
    | nil =>
      rw [List.length_nil] at hlength
      omega
    | cons a r =>
      refine ⟨a, r, hb.remaining?, hdrop, ?_⟩
      intro d
      rw [hb.next_error_iff hf, Lexeme.firstIn_eq_error_iff_unclosed ho, hlength]
  · intro e he
    obtain ⟨ls, failure?, hdrain, hruns⟩ := Cursor.exists_drain_eq source
    rcases ((tokenize_eq_error_iff hruns e).mp he).exists_cause hruns with
      ⟨l, hl, hc, hbad, rfl⟩ | ⟨covered, a, r, rfl, herror⟩
    · obtain ⟨hlt, hle, hfirst⟩ := hruns.first_of_mem hl (by simp [hc])
      refine ⟨⟨l.stop, rfl, hlt, hle⟩, hfirst, by simp, ?_⟩
      intro _
      exact ⟨l, by simp [hdrain, hl], hc, hbad, rfl⟩
    · obtain ⟨hblank, hsyntax, hnumber, stop, hlocation, hlt, hle⟩ :=
        Lexeme.firstIn_error_location ho herror
      rw [hlocation]
      refine ⟨⟨stop, rfl, hlt, by rwa [List.length_append]⟩, ⟨a, by simp, hblank⟩, hsyntax, ?_⟩
      intro hk
      exact absurd hk hnumber

theorem diagnostics_exact_halfClose :
    (Cursor.ofText ['/', '*', '/']).next.1 =
      some (.error ⟨.unterminatedComment, "Unterminated comment".toList, ⟨0, some 3⟩⟩) := by
  obtain ⟨a, r, -, hdrop, hnext⟩ :=
    (diagnostics_exact ['/', '*', '/']).1 _ .start rfl (by decide)
  have hunclosed : Category.UnclosedComment (a :: r) := by
    rw [hdrop]
    exact ⟨['/'], rfl, by decide⟩
  exact (hnext _).mpr (.inl ⟨hunclosed, rfl⟩)

end ScriptLexer
