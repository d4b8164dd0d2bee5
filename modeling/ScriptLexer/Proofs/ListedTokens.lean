import Mathlib.Data.List.Induction
import ScriptLexer.Proofs.Escaping
import ScriptLexer.Proofs.PrintedNumber
import ScriptLexer.Proofs.Respacing
import ScriptLexer.Report.Listing

/-!
The listing of the tokens of a source can be read back, from its end to its start. The span of a
token is found by the last two spaces; it tells how long a string is, whatever the string holds,
and any other value has no space in it, so that the next space ends the kind.
-/

namespace ScriptLexer

theorem Text.append_cons_inj {c : Char} {x y s t : Text} (hs : c ∉ s) (ht : c ∉ t)
    (h : x ++ c :: s = y ++ c :: t) : x = y ∧ s = t := by
  rcases List.append_eq_append_iff.mp h with ⟨as, rfl, he⟩ | ⟨bs, rfl, he⟩
  · cases as with
    | nil => exact ⟨(List.append_nil x).symm, (List.cons.inj he).2⟩
    | cons a as => exact absurd ((List.cons.inj he).2 ▸ List.mem_append_cons_self) hs
  · cases bs with
    | nil => exact ⟨List.append_nil y, (List.cons.inj he).2.symm⟩
    | cons b bs => exact absurd ((List.cons.inj he).2 ▸ List.mem_append_cons_self) ht

theorem Text.mem_of_append_eq_concat {c : Char} {x y s : Text} (hs : s ≠ [])
    (h : x ++ s = y ++ [c]) : c ∈ s := by
  have hlast := congrArg List.getLast? h
  rw [List.getLast?_append_of_ne_nil x hs, List.getLast?_concat] at hlast
  exact List.mem_of_getLast? hlast

theorem Text.ofNat_injective {m n : Nat} (h : ofNat m = ofNat n) : m = n := by
  have hm : Nat.ofDigitChars 10 (ofNat m) 0 = m := Nat.ofDigitChars_ten_toDigits
  rw [← hm, h]
  exact Nat.ofDigitChars_ten_toDigits

theorem Text.notMem_ofNat {c : Char} (hc : ¬c.isDigit) (n : Nat) : c ∉ ofNat n := fun h =>
  hc (NumberLayout.isDigit_of_mem_ofNat n c h)

theorem Text.space_notMem_ofNat (n : Nat) : ' ' ∉ ofNat n := notMem_ofNat (by decide) n

theorem Category.not_isTokenChar_space : ¬IsTokenChar ' ' := by
  unfold IsTokenChar
  decide

theorem Category.not_isTokenChar_quote : ¬IsTokenChar '\x22' := by
  unfold IsTokenChar
  decide

theorem TokenKind.append_label_inj {p q : Text} {k k' : TokenKind}
    (h : p ++ k.label = q ++ k'.label) : p = q ∧ k = k' := by
  have hend (p : Text) (k : TokenKind) : (p ++ k.label).reverse.take 2 = k.label.reverse.take 2 := by
    rw [List.reverse_append]
    cases k <;> rfl
  have hlast : k.label.reverse.take 2 = k'.label.reverse.take 2 := by
    rw [← hend p k, h, hend]
  obtain rfl : k = k' := by
    revert hlast
    cases k <;> cases k' <;> decide
  exact ⟨List.append_cancel_right h, rfl⟩

namespace TokenValue

theorem exists_eq_string {v : TokenValue} (h : v.kind = .string) : ∃ s, v = string s := by
  cases v with
  | string s => exact ⟨s, rfl⟩
  | _ => cases h

/-- Which values a listing tells apart, in a span of the given width: those without a space, and
strings as long as the span says. -/
def Legible (width : Nat) : TokenValue → Prop
  | name s | operator s => ∀ c ∈ s, Category.IsTokenChar c
  | string s => width = s.length + 2
  | number x => x.isFinite ∧ x.negative = false

theorem Legible.isTokenChar {width : Nat} {v : TokenValue} (h : v.Legible width)
    (hv : v.kind ≠ .string) : ∀ c ∈ v.text, Category.IsTokenChar c := by
  cases v with
  | name s => exact h
  | string s => exact absurd rfl hv
  | number x =>
    obtain ⟨n, hn, htext, -⟩ := Binary64.exists_numeral_text h.1 h.2
    rw [text, ← htext]
    exact Numeral.isTokenChar_of_mem_text hn
  | operator s => exact h

theorem Legible.space_notMem_text {width : Nat} {v : TokenValue} (h : v.Legible width)
    (hv : v.kind ≠ .string) : ' ' ∉ v.text := fun hmem =>
  Category.not_isTokenChar_space (h.isTokenChar hv ' ' hmem)

theorem Legible.eq_of_text {width : Nat} {v w : TokenValue} (hv : v.Legible width)
    (hw : w.Legible width) (hkind : v.kind = w.kind) (htext : v.text = w.text) : v = w := by
  cases v with
  | name s =>
    cases w with
    | name t => exact congrArg name htext
    | _ => cases hkind
  | string s =>
    cases w with
    | string t => exact congrArg string (List.append_cancel_right (List.cons.inj htext).2)
    | _ => cases hkind
  | number x =>
    cases w with
    | number y => exact congrArg number (Binary64.text_injective hv hw htext)
    | _ => cases hkind
  | operator s =>
    cases w with
    | operator t => exact congrArg operator htext
    | _ => cases hkind

def lineStart (v : TokenValue) : Text := v.kind.label ++ ' ' :: v.text

theorem Legible.ne_of_string {width : Nat} {w : TokenValue} (hw : w.Legible width)
    (hkind : w.kind ≠ .string) (p q s : Text) : p ++ (string s).lineStart ≠ q ++ w.lineStart := by
  intro h
  have hquote : (q ++ w.kind.label) ++ ' ' :: w.text =
      (p ++ (string s).kind.label ++ ' ' :: '\x22' :: s) ++ ['\x22'] := by
    simpa [lineStart, text] using h.symm
  have hmem := Text.mem_of_append_eq_concat (by simp) hquote
  rcases List.mem_cons.mp hmem with hmem | hmem
  · cases hmem
  · exact Category.not_isTokenChar_quote (hw.isTokenChar hkind _ hmem)

theorem Legible.append_lineStart_inj {width : Nat} {v w : TokenValue} (hv : v.Legible width)
    (hw : w.Legible width) {p q : Text} (h : p ++ v.lineStart = q ++ w.lineStart) :
    p = q ∧ v = w := by
  by_cases hvs : v.kind = .string
  · obtain ⟨s, rfl⟩ := exists_eq_string hvs
    by_cases hws : w.kind = .string
    · obtain ⟨t, rfl⟩ := exists_eq_string hws
      -- what stands between the quotes is not looked at: the span gives its length
      have hlength : s.length = t.length := Nat.add_right_cancel (hv.symm.trans hw)
      obtain ⟨hp, hline⟩ := List.append_inj' h (by simp [lineStart, text, kind, hlength])
      have htext : (string s).text = (string t).text := by simpa [lineStart, kind] using hline
      exact ⟨hp, hv.eq_of_text hw rfl htext⟩
    · exact absurd h (hw.ne_of_string hws p q s)
  · by_cases hws : w.kind = .string
    · obtain ⟨t, rfl⟩ := exists_eq_string hws
      exact absurd h.symm (hv.ne_of_string hvs q p t)
    · simp only [lineStart, ← List.append_assoc] at h
      obtain ⟨hlabel, htext⟩ :=
        Text.append_cons_inj (hv.space_notMem_text hvs) (hw.space_notMem_text hws) h
      obtain ⟨hp, hkind⟩ := TokenKind.append_label_inj hlabel
      exact ⟨hp, hv.eq_of_text hw hkind htext⟩

end TokenValue

namespace Token

def Legible (t : Token) : Prop := t.value.Legible (t.stop - t.start)

def placeText (t : Token) : Text :=
  ' ' :: '(' :: (Text.ofNat t.start ++ [',']) ++ ' ' :: (Text.ofNat t.stop ++ [')'])

theorem text_eq (t : Token) : t.text = t.value.lineStart ++ t.placeText := by
  simp [text, TokenValue.lineStart, placeText, kind]

theorem append_placeText_inj {t u : Token} {x y : Text}
    (h : x ++ t.placeText = y ++ u.placeText) : x = y ∧ t.start = u.start ∧ t.stop = u.stop := by
  simp only [placeText, ← List.append_assoc] at h
  obtain ⟨hfront, hstop⟩ := Text.append_cons_inj
    (by simp [Text.space_notMem_ofNat]) (by simp [Text.space_notMem_ofNat]) h
  obtain ⟨hx, hstart⟩ := Text.append_cons_inj
    (by simp [Text.space_notMem_ofNat]) (by simp [Text.space_notMem_ofNat]) hfront
  have hstart := List.append_cancel_right (List.cons.inj hstart).2
  exact ⟨hx, Text.ofNat_injective hstart,
    Text.ofNat_injective (List.append_cancel_right hstop)⟩

theorem Legible.append_text_inj {t u : Token} (ht : t.Legible) (hu : u.Legible) {p q : Text}
    (h : p ++ t.text = q ++ u.text) : p = q ∧ t = u := by
  rw [text_eq, text_eq, ← List.append_assoc, ← List.append_assoc] at h
  obtain ⟨hline, hstart, hstop⟩ := append_placeText_inj h
  obtain ⟨value, start, stop⟩ := t
  obtain ⟨value', start', stop'⟩ := u
  obtain rfl : start = start' := hstart
  obtain rfl : stop = stop' := hstop
  obtain ⟨hp, rfl⟩ := TokenValue.Legible.append_lineStart_inj ht hu hline
  exact ⟨hp, rfl⟩

theorem eq_of_lines {ts us : List Token} (hts : ∀ t ∈ ts, t.Legible) (hus : ∀ u ∈ us, u.Legible)
    (h : (ts.flatMap fun t => t.text ++ ['\n']) = us.flatMap fun u => u.text ++ ['\n']) :
    ts = us := by
  -- the last line is taken off both listings
  induction ts using List.reverseRecOn generalizing us with
  | nil =>
    cases us with
    | nil => rfl
    | cons u us => simp at h
  | append_singleton ts t ih =>
    rcases List.eq_nil_or_concat us with rfl | ⟨us, u, rfl⟩
    · simp at h
    · rw [List.concat_eq_append] at h hus ⊢
      simp only [List.flatMap_append, List.flatMap_singleton, ← List.append_assoc] at h
      obtain ⟨hts, ht⟩ := List.forall_mem_append.mp hts
      obtain ⟨hus', hu⟩ := List.forall_mem_append.mp hus
      obtain ⟨hfront, rfl⟩ := Legible.append_text_inj (ht t (List.mem_singleton_self t))
        (hu u (List.mem_singleton_self u)) (List.append_cancel_right h)
      rw [ih hts hus' hfront]

end Token

theorem Listing.tokens_inj {ts us : List Token} (hts : ∀ t ∈ ts, t.Legible)
    (hus : ∀ u ∈ us, u.Legible) (h : tokens .text noTokens ts = tokens .text noTokens us) :
    ts = us := by
  have hnotice (t : Token) (ts : List Token) :
      tokens .text noTokens [] ≠ tokens .text noTokens (t :: ts) := by
    intro he
    have hmem : ')' ∈ tokens .text noTokens (t :: ts) := by simp [tokens, Token.text]
    rw [← he] at hmem
    exact absurd hmem (by decide)
  cases ts with
  | nil =>
    cases us with
    | nil => rfl
    | cons u us => exact absurd h (hnotice u us)
  | cons t ts =>
    cases us with
    | nil => exact absurd h.symm (hnotice t ts)
    | cons u us => exact Token.eq_of_lines hts hus h

theorem Lexeme.legible {l : Lexeme} {v : TokenValue} (hl : l.category.Language l.text)
    (hv : l.value? = .ok (some v)) : v.Legible l.text.length := by
  obtain ⟨category, text, start, stop⟩ := l
  cases category with
  | name =>
    cases hv
    exact Category.isTokenChar_of_mem (.inl rfl) hl
  | operator =>
    cases hv
    exact Category.isTokenChar_of_mem (.inr (.inr rfl)) hl
  | string =>
    cases hv
    obtain ⟨quote, units, hq, -, rfl⟩ := hl
    rw [Quoted.content_quoted hq]
    simp [TokenValue.Legible]
  | number =>
    simp only [value?] at hv
    split at hv
    · rename_i x hx
      cases hv
      obtain ⟨n, -, hn⟩ := Option.bind_eq_some_iff.mp hx
      exact ⟨Decimal.isFinite_of_nearest? hn, Decimal.negative_of_nearest? hn⟩
    · cases hv
  | _ => cases hv

theorem Token.legible {source : Text} {ts : List Token} (h : tokenize source = .ok ts) :
    ∀ t ∈ ts, t.Legible := by
  intro t ht
  have hruns := Scan.runs_fromIn Category.priority 0 source
  obtain ⟨l, hl, hv, hstart, hstop⟩ := exists_lexeme h t ht
  obtain ⟨after, hfirst⟩ := hruns.firstIn_of_mem l hl
  obtain ⟨-, -, hwidth⟩ := Lexeme.firstIn_ok hfirst
  have hlength : t.stop - t.start = l.text.length := by omega
  rw [Legible, hlength]
  exact Lexeme.legible (hruns.language l hl) hv

theorem listing_determines_tokens {a b : Text} {ta tb : List Token} (ha : tokenize a = .ok ta)
    (hb : tokenize b = .ok tb) :
    (Listing.tokens .text Listing.noTokens ta = Listing.tokens .text Listing.noTokens tb →
      ta = tb) ∧
    (Html.escape (Listing.tokens .text Listing.noTokens ta) =
        Html.escape (Listing.tokens .text Listing.noTokens tb) → ta = tb) := by
  have hlisting := Listing.tokens_inj (Token.legible ha) (Token.legible hb)
  exact ⟨hlisting, fun h => hlisting (Html.escape_injective h)⟩

theorem listing_determines_tokens_forged :
    (∃ ta tb, tokenize "'a'".toList = .ok ta ∧ tokenize "\"a\"".toList = .ok tb ∧ ta = tb) ∧
    Listing.tokens .text Listing.noTokens [⟨.string "a\" (0, 3)\nString \"b".toList, 0, 21⟩] ≠
      Listing.tokens .text Listing.noTokens [⟨.string ['a'], 0, 3⟩, ⟨.string ['b'], 4, 7⟩] := by
  constructor
  · have hsingle : tokenize "'a'".toList = .ok [⟨.string ['a'], 0, 3⟩] := by decide +kernel
    have hdouble : tokenize "\"a\"".toList = .ok [⟨.string ['a'], 0, 3⟩] := by decide +kernel
    exact ⟨_, _, hsingle, hdouble, (listing_determines_tokens hsingle hdouble).1 rfl⟩
  · have hforged : tokenize "'a\" (0, 3)\nString \"b'".toList =
        .ok [⟨.string "a\" (0, 3)\nString \"b".toList, 0, 21⟩] := by decide +kernel
    have hplain : tokenize "'a' 'b'".toList =
        .ok [⟨.string ['a'], 0, 3⟩, ⟨.string ['b'], 4, 7⟩] := by decide +kernel
    intro h
    have hequal := (listing_determines_tokens hforged hplain).1 h
    simp at hequal

end ScriptLexer
