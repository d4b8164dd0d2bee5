import ScriptLexer.Proofs.Coverage
import ScriptLexer.Proofs.NumeralValue
import ScriptLexer.Token.Stream

namespace ScriptLexer

theorem Quoted.content_quoted {quote : Char} (hq : CharClass.isQuote quote) (s : Text) :
    content (quote :: (s ++ [quote])) = s := by
  have hsize : quote.utf8Size = 1 := by
    have h : quote = '\x27' ∨ quote = '\x22' := by simpa [CharClass.isQuote] using hq
    rcases h with rfl | rfl <;> decide
  have hbytes : Text.byteLength (quote :: (s ++ [quote])) - 1 = Text.byteLength (quote :: s) := by
    simp only [Text.byteLength_cons, Text.byteLength_append, Text.byteLength_nil, hsize]
    omega
  have htake : Text.takeBytes? (quote :: (s ++ [quote])) (Text.byteLength (quote :: s)) =
      some (quote :: s) := Text.takeBytes?_append (quote :: s) [quote]
  have hdrop : Text.dropBytes? (quote :: s) 1 = some s := by
    have h := Text.dropBytes?_append [quote] s
    rwa [Text.byteLength_cons, Text.byteLength_nil, hsize] at h
  rw [content, hbytes, htake, Option.bind_some, hdrop, Option.getD_some]

theorem TokenKind.eq_of_label {k k' : TokenKind} (h : k.label = k'.label) : k = k' := by
  revert h
  cases k <;> cases k' <;> decide

theorem TokenKind.label_ne_of_isTrivia (k : TokenKind) {c : Category} (h : c.isTrivia) :
    k.label ≠ c.label := by
  cases c with
  | whitespace => cases k <;> decide
  | lineComment => cases k <;> decide
  | blockComment => cases k <;> decide
  | _ => cases h

namespace TokenValue

def Reads (characters : Text) : TokenValue → Prop
  | name s | operator s => s = characters
  | string s => ∃ quote, CharClass.isQuote quote ∧ characters = quote :: (s ++ [quote])
  | number x => ∃ v, Numeral.Denotes characters v ∧ v < 2 ^ 1024 - 2 ^ 970 ∧ x.IsNearest v

theorem Reads.unique {characters : Text} {v w : TokenValue} (hv : v.Reads characters)
    (hw : w.Reads characters) (hk : v.kind = w.kind) : v = w := by
  cases v with
  | name s =>
    cases w with
    | name t => exact congrArg name (hv.trans hw.symm)
    | _ => cases hk
  | string s =>
    cases w with
    | string t =>
      obtain ⟨q, -, hs⟩ := hv
      obtain ⟨q', -, ht⟩ := hw
      obtain ⟨rfl, he⟩ := List.cons.inj (hs.symm.trans ht)
      exact congrArg string (List.append_cancel_right he)
    | _ => cases hk
  | number x =>
    cases w with
    | number y =>
      obtain ⟨q, hq, -, hx⟩ := hv
      obtain ⟨r, hr, -, hy⟩ := hw
      obtain rfl := hq.unique hr
      exact congrArg number (hx.unique hy)
    | _ => cases hk
  | operator s =>
    cases w with
    | operator t => exact congrArg operator (hv.trans hw.symm)
    | _ => cases hk

end TokenValue

namespace Lexeme

/-- The number does not round to an infinity. -/
def IsFiniteNumber (l : Lexeme) : Prop := ∃ v, Numeral.Denotes l.text v ∧ v < 2 ^ 1024 - 2 ^ 970

theorem badNumber_eq (l : Lexeme) : l.badNumber =
    ⟨.invalidNumber, "Bad number '".toList ++ l.text ++ ['\x27'], ⟨l.start, some l.stop⟩⟩ := rfl

theorem value?_of_denotes {l : Lexeme} {v : ℚ} (hl : l.category = .number)
    (h : Numeral.Denotes l.text v) :
    (2 ^ 1024 - 2 ^ 970 ≤ v ∧ l.value? = .error l.badNumber) ∨
    (v < 2 ^ 1024 - 2 ^ 970 ∧ ∃ m hm,
      l.value? = .ok (some (.number (Binary64.ofMagnitude m hm))) ∧
      Shortest.Encloses m (2 * (v * Binary64.unitsPerOne))) := by
  obtain ⟨n, hn, htext, rfl⟩ := h
  rw [← n.toRat_decimal]
  simp only [value?, hl, ← htext, Numeral.scan?_text hn, Option.bind_some, Numeral.value?]
  rcases n.decimal.nearest?_cases with ⟨hlarge, hnone⟩ | ⟨hsmall, m, hm, hsome, henclosed⟩
  · left
    rw [hnone]
    exact ⟨hlarge, rfl⟩
  · right
    rw [hsome]
    exact ⟨hsmall, m, hm, rfl, henclosed⟩

theorem value?_cases {l : Lexeme} (hl : l.category.Language l.text) :
    (l.isTrivia ∧ l.value? = .ok none) ∨
    (∃ v, v.kind.label = l.category.label ∧ v.Reads l.text ∧ l.value? = .ok (some v)) ∨
    (l.category = .number ∧ ¬l.IsFiniteNumber ∧ l.value? = .error l.badNumber) := by
  obtain ⟨category, text, start, stop⟩ := l
  cases category with
  | whitespace => exact .inl ⟨rfl, rfl⟩
  | lineComment => exact .inl ⟨rfl, rfl⟩
  | blockComment => exact .inl ⟨rfl, rfl⟩
  | name => exact .inr (.inl ⟨.name text, rfl, rfl, rfl⟩)
  | operator => exact .inr (.inl ⟨.operator text, rfl, rfl, rfl⟩)
  | string =>
    obtain ⟨quote, units, hq, -, rfl⟩ := hl
    have hv : (Lexeme.mk .string (quote :: (units ++ [quote])) start stop).value? =
        .ok (some (.string units)) := by
      rw [value?, Quoted.content_quoted hq]
    exact .inr (.inl ⟨.string units, rfl, ⟨quote, hq, rfl⟩, hv⟩)
  | number =>
    obtain ⟨v, hdenotes, -⟩ := Numeral.existsUnique_denotes hl
    rcases value?_of_denotes rfl hdenotes with ⟨hlarge, herror⟩ | ⟨hsmall, m, hm, hv, henclosed⟩
    · refine .inr (.inr ⟨rfl, ?_, herror⟩)
      rintro ⟨w, hw, hfinite⟩
      obtain rfl := hdenotes.unique hw
      exact absurd hlarge hfinite.not_ge
    · exact .inr (.inl ⟨.number _, rfl, ⟨v, hdenotes, hsmall, henclosed.isNearest hm⟩, hv⟩)

def span (l : Lexeme) : Nat × Nat := (l.start, l.stop)

theorem category_ne_number_of_isTrivia {l : Lexeme} (h : l.isTrivia) : l.category ≠ .number := by
  intro hc
  rw [isTrivia, hc] at h
  cases h

theorem isFiniteNumber_of_reads {l : Lexeme} {v : TokenValue}
    (hlabel : v.kind.label = l.category.label) (hreads : v.Reads l.text)
    (hc : l.category = .number) : l.IsFiniteNumber := by
  rw [hc] at hlabel
  have hk : v.kind = .number := TokenKind.eq_of_label hlabel
  cases v with
  | number x =>
    obtain ⟨q, hq, hfinite, -⟩ := hreads
    exact ⟨q, hq, hfinite⟩
  | _ => cases hk

/-- The failure of a run of lexemes that a diagnostic may follow: the first number that is not
finite, or else the diagnostic. -/
def FirstFailure (failure? : Option Diagnostic) (ls : List Lexeme) (e : Diagnostic) : Prop :=
  (∃ front l back, ls = front ++ l :: back ∧
    (∀ k ∈ front, k.category = .number → k.IsFiniteNumber) ∧
    l.category = .number ∧ ¬l.IsFiniteNumber ∧
    e = ⟨.invalidNumber, "Bad number '".toList ++ l.text ++ ['\x27'], ⟨l.start, some l.stop⟩⟩) ∨
  ((∀ l ∈ ls, l.category = .number → l.IsFiniteNumber) ∧ failure? = some e)

theorem not_firstFailure {failure? : Option Diagnostic} {ls : List Lexeme} (hf : failure? = none)
    (hall : ∀ l ∈ ls, l.category = .number → l.IsFiniteNumber) (e : Diagnostic) :
    ¬FirstFailure failure? ls e := by
  rintro (⟨front, l, back, rfl, -, hc, hbad, -⟩ | ⟨-, he⟩)
  · exact hbad (hall l (List.mem_append_cons_self) hc)
  · rw [hf] at he
    cases he

theorem firstFailure_nil {failure? : Option Diagnostic} {e : Diagnostic} :
    FirstFailure failure? [] e ↔ failure? = some e := by
  simp [FirstFailure]

theorem firstFailure_cons_of_bad {failure? : Option Diagnostic} {l : Lexeme} {ls : List Lexeme}
    {e : Diagnostic} (hc : l.category = .number) (hl : ¬l.IsFiniteNumber) :
    FirstFailure failure? (l :: ls) e ↔ e = l.badNumber := by
  constructor
  · rintro (⟨front, k, back, hls, hfront, -, -, rfl⟩ | ⟨hall, -⟩)
    · cases front with
      | nil => rw [(List.cons.inj hls).1, badNumber_eq]
      | cons j front =>
        obtain ⟨rfl, -⟩ := List.cons.inj hls
        exact absurd (hfront l List.mem_cons_self hc) hl
    · exact absurd (hall l List.mem_cons_self hc) hl
  · rintro rfl
    exact .inl ⟨[], l, ls, rfl, by simp, hc, hl, rfl⟩

theorem firstFailure_cons_of_finite {failure? : Option Diagnostic} {l : Lexeme} {ls : List Lexeme}
    {e : Diagnostic} (hl : l.category = .number → l.IsFiniteNumber) :
    FirstFailure failure? (l :: ls) e ↔ FirstFailure failure? ls e := by
  constructor
  · rintro (⟨front, k, back, hls, hfront, hc, hk, rfl⟩ | ⟨hall, hf⟩)
    · cases front with
      | nil =>
        obtain ⟨rfl, -⟩ := List.cons.inj hls
        exact absurd (hl hc) hk
      | cons j front =>
        exact .inl ⟨front, k, back, (List.cons.inj hls).2,
          fun i hi => hfront i (List.mem_cons_of_mem j hi), hc, hk, rfl⟩
    · exact .inr ⟨fun k hk => hall k (List.mem_cons_of_mem l hk), hf⟩
  · rintro (⟨front, k, back, rfl, hfront, hc, hk, rfl⟩ | ⟨hall, hf⟩)
    · have hall : ∀ i ∈ l :: front, i.category = .number → i.IsFiniteNumber :=
        List.forall_mem_cons.mpr ⟨hl, hfront⟩
      exact .inl ⟨l :: front, k, back, rfl, hall, hc, hk, rfl⟩
    · exact .inr ⟨List.forall_mem_cons.mpr ⟨hl, hall⟩, hf⟩

end Lexeme

namespace Token

structure StandsFor (source : Text) (t : Token) (l : Lexeme) : Prop where
  start_eq : t.start = l.start
  stop_eq : t.stop = l.stop
  label_eq : t.kind.label = l.category.label
  reads : t.value.Reads (source.slice t.start t.stop)

theorem standsFor_iff {source : Text} {l : Lexeme} {v : TokenValue} {t : Token}
    (hs : l.text = source.slice l.start l.stop) (hlabel : v.kind.label = l.category.label)
    (hreads : v.Reads l.text) : StandsFor source t l ↔ t = ⟨v, l.start, l.stop⟩ := by
  constructor
  · intro h
    obtain ⟨value, start, stop⟩ := t
    obtain ⟨rfl, rfl, hlabel', hreads'⟩ := h
    have hk : value.kind = v.kind := TokenKind.eq_of_label (hlabel'.trans hlabel.symm)
    rw [← hs] at hreads'
    have hvalue : value = v := hreads'.unique hreads hk
    rw [hvalue]
  · rintro rfl
    exact ⟨rfl, rfl, hlabel, hs ▸ hreads⟩

theorem ofLexemes_eq_ok_iff {source : Text} {failure? : Option Diagnostic} {ls : List Lexeme}
    (h : ∀ l ∈ ls, l.category.Language l.text ∧ l.text = source.slice l.start l.stop)
    (ts : List Token) :
    ofLexemes failure? ls = .ok ts ↔
      failure? = none ∧ (∀ l ∈ ls, l.category = .number → l.IsFiniteNumber) ∧
        List.Forall₂ (StandsFor source) ts (ls.filter fun l => !l.isTrivia) := by
  induction ls generalizing ts with
  | nil =>
    cases failure? with
    | none => simp [ofLexemes, eq_comm]
    | some d => simp [ofLexemes]
  | cons l ls ih =>
    obtain ⟨⟨hlang, hs⟩, htail⟩ := List.forall_mem_cons.mp h
    have ih := ih htail
    rw [List.forall_mem_cons]
    rcases Lexeme.value?_cases hlang with ⟨htrivia, hv⟩ | ⟨v, hlabel, hreads, hv⟩ | ⟨hc, hbad, hv⟩
    · have hnumber : l.category ≠ .number := Lexeme.category_ne_number_of_isTrivia htrivia
      rw [ofLexemes, hv, List.filter_cons_of_neg (by simp [htrivia])]
      simp [ih, hnumber]
    · have htrivia : ¬l.isTrivia := fun htrivia => v.kind.label_ne_of_isTrivia htrivia hlabel
      have hstands (t : Token) := standsFor_iff (t := t) hs hlabel hreads
      rw [ofLexemes, hv, List.filter_cons_of_pos (by simpa using htrivia)]
      constructor
      · intro he
        cases hrest : ofLexemes failure? ls with
        | error d =>
          rw [hrest] at he
          cases he
        | ok us =>
          rw [hrest] at he
          obtain rfl := Except.ok.inj he
          obtain ⟨hf, hall, hus⟩ := (ih us).mp hrest
          exact ⟨hf, ⟨Lexeme.isFiniteNumber_of_reads hlabel hreads, hall⟩,
            .cons ((hstands _).mpr rfl) hus⟩
      · rintro ⟨hf, ⟨-, hall⟩, hts⟩
        cases hts with
        | @cons t _ us _ ht hus =>
          obtain rfl := (hstands t).mp ht
          rw [(ih us).mpr ⟨hf, hall, hus⟩]
          rfl
    · rw [ofLexemes, hv]
      constructor
      · intro he
        cases he
      · rintro ⟨-, ⟨hl, -⟩, -⟩
        exact absurd (hl hc) hbad

theorem ofLexemes_eq_error_iff {failure? : Option Diagnostic} {ls : List Lexeme}
    (h : ∀ l ∈ ls, l.category.Language l.text) (e : Diagnostic) :
    ofLexemes failure? ls = .error e ↔ Lexeme.FirstFailure failure? ls e := by
  induction ls with
  | nil =>
    rw [Lexeme.firstFailure_nil]
    cases failure? <;> simp [ofLexemes]
  | cons l ls ih =>
    obtain ⟨hlang, htail⟩ := List.forall_mem_cons.mp h
    have ih := ih htail
    rw [ofLexemes]
    rcases Lexeme.value?_cases hlang with ⟨htrivia, hv⟩ | ⟨v, hlabel, hreads, hv⟩ | ⟨hc, hbad, hv⟩
    · have hnumber : l.category ≠ .number := Lexeme.category_ne_number_of_isTrivia htrivia
      rw [hv, Lexeme.firstFailure_cons_of_finite (fun hc => absurd hc hnumber)]
      exact ih
    · rw [hv, Lexeme.firstFailure_cons_of_finite (Lexeme.isFiniteNumber_of_reads hlabel hreads), ← ih]
      cases ofLexemes failure? ls <;> simp [Except.map]
    · rw [hv, Lexeme.firstFailure_cons_of_bad hc hbad]
      exact ⟨fun he => (Except.error.inj he).symm, fun he => by rw [he]⟩

def span (t : Token) : Nat × Nat := (t.start, t.stop)

theorem map_span_of_standsFor {source : Text} {ts : List Token} {ls : List Lexeme}
    (h : List.Forall₂ (StandsFor source) ts ls) : ts.map span = ls.map Lexeme.span := by
  induction h with
  | nil => rfl
  | cons ht _ ih => rw [List.map_cons, List.map_cons, ih, span, Lexeme.span, ht.start_eq, ht.stop_eq]

theorem exists_standsFor {source : Text} {ts : List Token} {ls : List Lexeme} {t : Token}
    (h : List.Forall₂ (StandsFor source) ts ls) (ht : t ∈ ts) :
    ∃ l ∈ ls, StandsFor source t l := by
  induction h with
  | nil => cases ht
  | @cons u l us ls hu _ ih =>
    rcases List.mem_cons.mp ht with rfl | ht
    · exact ⟨l, List.mem_cons_self, hu⟩
    · obtain ⟨k, hk, htk⟩ := ih ht
      exact ⟨k, List.mem_cons_of_mem l hk, htk⟩

theorem length_string {source : Text} {t : Token} {l : Lexeme} {s : Text}
    (h : StandsFor source t l) (ht : t.value = .string s) (hb : t.stop ≤ source.length) :
    t.stop - t.start = s.length + 2 := by
  have hreads := h.reads
  rw [ht] at hreads
  obtain ⟨quote, -, hs⟩ := hreads
  have hlength := congrArg List.length hs
  rw [Text.length_slice hb] at hlength
  simpa using hlength

end Token

theorem Scan.Runs.language {order : List Category} {start : Nat} {rest : Text} {ls : List Lexeme}
    {failure? : Option Diagnostic} (h : Runs order start rest ls failure?) :
    ∀ l ∈ ls, l.category.Language l.text := by
  induction h with
  | done => simp
  | stopped => simp
  | lexeme hl _ ih =>
    refine List.forall_mem_cons.mpr ⟨?_, ih⟩
    exact Category.recognize?_language (Lexeme.firstIn_ok hl).1

theorem Lexeme.Tile.token_spans {source : Text} {ls : List Lexeme} {ts : List Token}
    (h : Tile 0 source ls)
    (hts : List.Forall₂ (Token.StandsFor source) ts (ls.filter fun l => !l.isTrivia)) :
    (∀ t ∈ ts, t.start < t.stop ∧ t.stop ≤ source.length) ∧
      ts.IsChain (fun t u => t.stop ≤ u.start) ∧
      ∀ i < source.length, (∀ t ∈ ts, ¬(t.start ≤ i ∧ i < t.stop)) →
        ∃ l ∈ ls, l.isTrivia ∧ l.start ≤ i ∧ i < l.stop := by
  have hspans := Token.map_span_of_standsFor hts
  refine ⟨?_, ?_, ?_⟩
  · intro t ht
    obtain ⟨l, hl, htl⟩ := Token.exists_standsFor hts ht
    have hstart := htl.start_eq
    have hstop := htl.stop_eq
    have hbounds := h.bounds l (List.mem_of_mem_filter hl)
    omega
  · have hpair : (ls.filter fun l => !l.isTrivia).Pairwise fun l k => l.stop ≤ k.start :=
      h.pairwise.sublist List.filter_sublist
    have hmap : ((ls.filter fun l => !l.isTrivia).map Lexeme.span).Pairwise fun p q => p.2 ≤ q.1 :=
      List.pairwise_map.mpr hpair
    rw [← hspans] at hmap
    exact (List.pairwise_map.mp hmap).isChain
  · intro i hi hout
    obtain ⟨l, hl, hli⟩ := h.exists_mem (Nat.zero_le i) (by omega)
    refine ⟨l, hl, ?_, hli⟩
    by_contra htrivia
    have hmem : l.span ∈ ts.map Token.span :=
      hspans ▸ List.mem_map_of_mem (List.mem_filter.mpr ⟨hl, by simpa using htrivia⟩)
    obtain ⟨t, ht, he⟩ := List.mem_map.mp hmem
    obtain ⟨hstart, hstop⟩ := Prod.mk.inj he
    apply hout t ht
    omega

theorem tokenize_eq_ofLexemes {source : Text} {ls : List Lexeme} {failure? : Option Diagnostic}
    (h : Scan.Runs Category.priority 0 source ls failure?) :
    tokenize source = Token.ofLexemes failure? ls := by
  rw [tokenize, Scan.tokens, Scan.ofText, h.fromIn_eq]

theorem tokenize_eq_ok_iff {source : Text} {ls : List Lexeme} {failure? : Option Diagnostic}
    (h : Scan.Runs Category.priority 0 source ls failure?) (ts : List Token) :
    tokenize source = .ok ts ↔
      failure? = none ∧ (∀ l ∈ ls, l.category = .number → l.IsFiniteNumber) ∧
        List.Forall₂ (Token.StandsFor source) ts (ls.filter fun l => !l.isTrivia) := by
  obtain ⟨covered, left, rfl, htile, -⟩ := h.tile
  rw [tokenize_eq_ofLexemes h]
  apply Token.ofLexemes_eq_ok_iff
  intro l hl
  exact ⟨h.language l hl, htile.text_eq_slice [] left rfl l hl⟩

theorem tokenize_eq_error_iff {source : Text} {ls : List Lexeme} {failure? : Option Diagnostic}
    (h : Scan.Runs Category.priority 0 source ls failure?) (e : Diagnostic) :
    tokenize source = .error e ↔ Lexeme.FirstFailure failure? ls e := by
  rw [tokenize_eq_ofLexemes h]
  exact Token.ofLexemes_eq_error_iff h.language e

theorem tokenize_refines_drain (source : Text) : ∃ ls failure?,
    (Cursor.ofText source).drain.1 = ls.map .ok ++ failure?.toList.map .error ∧
      ((∃ ts, tokenize source = .ok ts) ↔
        failure? = none ∧ ∀ l ∈ ls, l.category = .number → l.IsFiniteNumber) ∧
      (∀ ts, tokenize source = .ok ts →
        List.Forall₂ (Token.StandsFor source) ts (ls.filter fun l => !l.isTrivia) ∧
        (∀ t ∈ ts, t.start < t.stop ∧ t.stop ≤ source.length) ∧
        (∀ t ∈ ts, ∀ s, t.value = .string s → t.stop - t.start = s.length + 2) ∧
        ts.IsChain (fun t u => t.stop ≤ u.start) ∧
        ∀ i < source.length, (∀ t ∈ ts, ¬(t.start ≤ i ∧ i < t.stop)) →
          ∃ l ∈ ls, l.isTrivia ∧ l.start ≤ i ∧ i < l.stop) ∧
      ∀ e, tokenize source = .error e ↔ Lexeme.FirstFailure failure? ls e := by
  obtain ⟨ls, failure?, hdrain, hruns⟩ := Cursor.exists_drain_eq source
  have hok := tokenize_eq_ok_iff hruns
  have herror := tokenize_eq_error_iff hruns
  refine ⟨ls, failure?, hdrain, ⟨?_, ?_⟩, ?_, herror⟩
  · rintro ⟨ts, hts⟩
    obtain ⟨hf, hall, -⟩ := (hok ts).mp hts
    exact ⟨hf, hall⟩
  · rintro ⟨hf, hall⟩
    cases ht : tokenize source with
    | ok ts => exact ⟨ts, rfl⟩
    | error e => exact absurd ((herror e).mp ht) (Lexeme.not_firstFailure hf hall e)
  · intro ts hts
    obtain ⟨hf, -, hstands⟩ := (hok ts).mp hts
    obtain ⟨covered, left, rfl, htile, hnone, -⟩ := hruns.tile
    obtain rfl := hnone hf
    rw [List.append_nil] at hstands ⊢
    obtain ⟨hbounds, hchain, hout⟩ := htile.token_spans hstands
    refine ⟨hstands, hbounds, ?_, hchain, hout⟩
    intro t ht s hs
    obtain ⟨l, -, htl⟩ := Token.exists_standsFor hstands ht
    exact Token.length_string htl hs (hbounds t ht).2

end ScriptLexer
