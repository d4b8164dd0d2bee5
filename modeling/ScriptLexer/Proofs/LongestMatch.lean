import Mathlib.Data.List.TakeWhile
import ScriptLexer.Grammar.Language

namespace ScriptLexer

namespace Trivia

theorem blanks?_language {s t : Text} (h : blanks? s = some t) :
    Category.whitespace.Language t := by
  have ht := (blanks?_split h).1
  unfold blanks? at h
  split at h
  · cases h
  · obtain rfl := Option.some.inj h
    exact ⟨ht, fun c hc => List.mem_takeWhile_imp hc⟩

theorem blanks?_append {u : Text} (hu : Category.whitespace.Language u) (r : Text) :
    blanks? (u ++ r) = some (u ++ r.takeWhile CharClass.isBlank) := by
  obtain ⟨hne, hb⟩ := hu
  have ht : (u ++ r).takeWhile CharClass.isBlank = u ++ r.takeWhile CharClass.isBlank :=
    List.takeWhile_append_of_pos hb
  rw [blanks?, ht]
  split
  · rename_i h
    exfalso
    apply hne
    exact (List.append_eq_nil_iff.mp h).1
  · rfl

theorem lineComment?_language {s t : Text} (h : lineComment? s = some t) :
    Category.lineComment.Language t := by
  unfold lineComment? at h
  split at h
  · obtain rfl := Option.some.inj h
    refine ⟨_, rfl, ?_⟩
    intro c hc
    simpa using List.mem_takeWhile_imp hc
  · cases h

theorem lineComment?_append {u : Text} (hu : Category.lineComment.Language u) (r : Text) :
    lineComment? (u ++ r) = some (u ++ r.takeWhile fun c => !CharClass.isLineEnd c) := by
  obtain ⟨body, rfl, hb⟩ := hu
  have ht : (body ++ r).takeWhile (fun c => !CharClass.isLineEnd c) =
      body ++ r.takeWhile fun c => !CharClass.isLineEnd c :=
    List.takeWhile_append_of_pos (by simpa using hb)
  simp only [List.cons_append, lineComment?, ht]

def ClosesOnce (t : Text) : Prop :=
  (∃ body, t = body ++ ['*', '/']) ∧ ∀ u v, t = u ++ '*' :: '/' :: v → v = []

theorem throughClose?_closesOnce {s t : Text} (h : throughClose? s = some t) : ClosesOnce t := by
  fun_induction throughClose? s generalizing t with
  | case1 => cases h
  | case2 s =>
    obtain rfl := Option.some.inj h
    refine ⟨⟨[], rfl⟩, ?_⟩
    intro u v huv
    have hl := congrArg List.length huv
    simp only [List.length_cons, List.length_nil, List.length_append] at hl
    apply List.length_eq_zero_iff.mp
    omega
  | case3 c s hne ih =>
    obtain ⟨t, ht, rfl⟩ := Option.map_eq_some_iff.mp h
    obtain ⟨⟨body, hbody⟩, honce⟩ := ih ht
    refine ⟨⟨c :: body, by rw [hbody]; rfl⟩, ?_⟩
    intro u v huv
    cases u with
    | nil =>
      -- a close right here would have ended the search
      obtain ⟨r, hr⟩ := throughClose?_split ht
      obtain ⟨rfl, rfl⟩ := List.cons.inj huv
      exact absurd hr (hne _ rfl)
    | cons d u => exact honce u v (List.cons.inj huv).2

theorem throughClose?_append {t : Text} (ht : ClosesOnce t) (r : Text) :
    throughClose? (t ++ r) = some t := by
  obtain ⟨⟨body, rfl⟩, honce⟩ := ht
  induction body with
  | nil => rfl
  | cons c body ih =>
    have htail := ih (fun u v huv => honce (c :: u) v (congrArg (c :: ·) huv))
    have hne : ∀ v, c = '*' → body ++ ['*', '/'] ++ r ≠ '/' :: v := by
      rintro v rfl hv
      cases body with
      | nil => simp at hv
      | cons d body =>
        obtain ⟨rfl, -⟩ := List.cons.inj hv
        exact absurd (honce [] _ rfl) (by simp)
    rw [List.cons_append, List.cons_append, throughClose?, htail]
    · rfl
    · exact hne

theorem blockComment_language_iff {t : Text} :
    Category.blockComment.Language t ↔ ∃ u, t = '/' :: '*' :: u ∧ ClosesOnce u := by
  constructor
  · rintro ⟨body, rfl, honce⟩
    exact ⟨_, rfl, ⟨body, rfl⟩, honce⟩
  · rintro ⟨u, rfl, ⟨body, rfl⟩, honce⟩
    exact ⟨body, rfl, honce⟩

theorem blockComment?_language {s t : Text} (h : blockComment? s = some t) :
    Category.blockComment.Language t := by
  unfold blockComment? at h
  split at h
  · obtain ⟨u, hu, rfl⟩ := Option.map_eq_some_iff.mp h
    apply blockComment_language_iff.mpr
    exact ⟨u, rfl, throughClose?_closesOnce hu⟩
  · cases h

theorem blockComment?_append {u : Text} (hu : Category.blockComment.Language u) (r : Text) :
    blockComment? (u ++ r) = some u := by
  obtain ⟨u, rfl, honce⟩ := blockComment_language_iff.mp hu
  simp only [List.cons_append, blockComment?, throughClose?_append honce r, Option.map_some]

end Trivia

namespace Name

theorem longest?_language {s t : Text} (h : longest? s = some t) : Category.name.Language t := by
  unfold longest? at h
  split at h
  · rename_i c s
    split at h
    · obtain rfl := Option.some.inj h
      exact ⟨c, _, rfl, ‹_›, fun d hd => List.mem_takeWhile_imp hd⟩
    · cases h
  · cases h

theorem longest?_append {u : Text} (hu : Category.name.Language u) (r : Text) :
    longest? (u ++ r) = some (u ++ r.takeWhile CharClass.isNamePart) := by
  obtain ⟨c, s, rfl, hc, hs⟩ := hu
  have ht : (s ++ r).takeWhile CharClass.isNamePart = s ++ r.takeWhile CharClass.isNamePart :=
    List.takeWhile_append_of_pos hs
  rw [List.cons_append, longest?, if_pos hc, ht, List.cons_append]

end Name

namespace NumeralExponent

theorem ofDigits?_wellFormed {mark : Char} {sign? : Option Char} {s : Text} {e : NumeralExponent}
    (hm : mark = 'e' ∨ mark = 'E') (hs : sign? = none ∨ sign? = some '+' ∨ sign? = some '-')
    (h : ofDigits? mark sign? s = some e) : e.WellFormed := by
  unfold ofDigits? at h
  split at h
  · cases h
  · rename_i hne
    obtain rfl := Option.some.inj h
    exact ⟨hm, hs, hne, fun c hc => List.mem_takeWhile_imp hc⟩

theorem scan?_wellFormed {s : Text} {e : NumeralExponent} (h : scan? s = some e) :
    e.WellFormed := by
  unfold scan? at h
  split at h
  · split at h
    · rename_i hm
      have hm := by simpa using hm
      split at h
      all_goals
        apply ofDigits?_wellFormed hm _ h
        simp
    · cases h
  · cases h

theorem ofDigits?_append {mark : Char} {sign? : Option Char} {digits : Text}
    (hne : digits ≠ []) (hd : ∀ c ∈ digits, c.isDigit) (r : Text) :
    ofDigits? mark sign? (digits ++ r) =
      some ⟨mark, sign?, digits ++ r.takeWhile Char.isDigit⟩ := by
  have ht : (digits ++ r).takeWhile Char.isDigit = digits ++ r.takeWhile Char.isDigit :=
    List.takeWhile_append_of_pos hd
  rw [ofDigits?, ht]
  split
  · rename_i h
    exfalso
    apply hne
    exact (List.append_eq_nil_iff.mp h).1
  · rfl

theorem scan?_append {e : NumeralExponent} (he : e.WellFormed) (r : Text) :
    scan? (e.text ++ r) = some ⟨e.mark, e.sign?, e.digits ++ r.takeWhile Char.isDigit⟩ := by
  obtain ⟨mark, sign?, digits⟩ := e
  obtain ⟨hm, hs, hne, hd⟩ := he
  simp only at hm hs hne hd
  have hmark : (decide (mark = 'e') || decide (mark = 'E')) = true := by simpa using hm
  rcases hs with rfl | rfl | rfl
  · obtain ⟨d, digits, rfl⟩ := List.exists_cons_of_ne_nil hne
    have hdigit : d.isDigit := hd d List.mem_cons_self
    have hplus : d ≠ '+' := by rintro rfl; exact absurd hdigit (by decide)
    have hminus : d ≠ '-' := by rintro rfl; exact absurd hdigit (by decide)
    simp only [text, Option.toList_none, List.nil_append, List.cons_append, scan?, hmark, if_true]
    split
    · rename_i h
      exact absurd (List.cons.inj h).1 hplus
    · rename_i h
      exact absurd (List.cons.inj h).1 hminus
    · exact ofDigits?_append hne hd r
  · simp [text, scan?, hmark, ofDigits?_append hne hd r]
  · simp [text, scan?, hmark, ofDigits?_append hne hd r]

theorem mark_not_digit {e : NumeralExponent} (he : e.WellFormed) : e.mark.isDigit = false := by
  rcases he.1 with h | h <;> rw [h] <;> decide

end NumeralExponent

namespace Numeral

theorem scan?_wellFormed {s : Text} {n : Numeral} (h : scan? s = some n) : n.WellFormed := by
  unfold scan? at h
  split at h
  · cases h
  · rename_i hne
    obtain rfl := Option.some.inj h
    refine ⟨hne, fun c hc => List.mem_takeWhile_imp hc, ?_, ?_⟩
    · intro digits hdigits c hc
      unfold leadingFraction? at hdigits
      split at hdigits
      · obtain rfl := Option.some.inj hdigits
        exact List.mem_takeWhile_imp hc
      · cases hdigits
    · intro e he
      exact NumeralExponent.scan?_wellFormed he

theorem scan?_of_ne_nil {s : Text} (h : s.takeWhile Char.isDigit ≠ []) :
    scan? s = some ⟨s.takeWhile Char.isDigit, leadingFraction? (s.dropWhile Char.isDigit),
      NumeralExponent.scan? (afterFraction (s.dropWhile Char.isDigit))⟩ := by
  rw [scan?]
  split
  · contradiction
  · rfl

theorem scan?_digits {digits : Text} {c : Char} (hne : digits ≠ [])
    (hd : ∀ d ∈ digits, d.isDigit) (hc : c.isDigit = false) (r : Text) :
    scan? (digits ++ c :: r) = some ⟨digits, leadingFraction? (c :: r),
      NumeralExponent.scan? (afterFraction (c :: r))⟩ := by
  have ht : (digits ++ c :: r).takeWhile Char.isDigit = digits := by
    rw [List.takeWhile_append_of_pos hd]
    simp [hc]
  have hr : (digits ++ c :: r).dropWhile Char.isDigit = c :: r := by
    rw [List.dropWhile_append_of_pos hd]
    simp [hc]
  rw [scan?_of_ne_nil (by rwa [ht]), ht, hr]

theorem leadingFraction?_exponent {e : NumeralExponent} (he : e.WellFormed) (r : Text) :
    leadingFraction? (e.text ++ r) = none ∧ afterFraction (e.text ++ r) = e.text ++ r := by
  have hdot : e.mark ≠ '.' := by rcases he.1 with h | h <;> rw [h] <;> decide
  simp [NumeralExponent.text, leadingFraction?, afterFraction, hdot]

theorem leadingFraction?_digits {digits : Text} {e : NumeralExponent}
    (hd : ∀ c ∈ digits, c.isDigit) (he : e.WellFormed) (r : Text) :
    leadingFraction? ('.' :: (digits ++ (e.text ++ r))) = some digits ∧
      afterFraction ('.' :: (digits ++ (e.text ++ r))) = e.text ++ r := by
  have hmark := NumeralExponent.mark_not_digit he
  constructor
  · rw [leadingFraction?, List.takeWhile_append_of_pos hd]
    simp [NumeralExponent.text, hmark]
  · rw [afterFraction, List.dropWhile_append_of_pos hd]
    simp [NumeralExponent.text, hmark]

theorem scan?_append_of_exponent {whole : Text} {fraction? : Option Text} {e : NumeralExponent}
    (hn : WellFormed ⟨whole, fraction?, some e⟩) (r : Text) :
    scan? (text ⟨whole, fraction?, some e⟩ ++ r) =
      some ⟨whole, fraction?, some ⟨e.mark, e.sign?, e.digits ++ r.takeWhile Char.isDigit⟩⟩ := by
  obtain ⟨hne, hwhole, hfraction, hexponent⟩ := hn
  have he : e.WellFormed := hexponent e rfl
  have hread := NumeralExponent.scan?_append he r
  -- the mark ends the digits before it, so only the digits of the exponent can go on
  cases fraction? with
  | none =>
    obtain ⟨hnone, hafter⟩ := leadingFraction?_exponent he r
    have hs := scan?_digits hne hwhole (NumeralExponent.mark_not_digit he) (e.sign?.toList ++ e.digits ++ r)
    have htext : e.mark :: (e.sign?.toList ++ e.digits ++ r) = e.text ++ r := rfl
    rw [htext, hnone, hafter, hread] at hs
    simpa [text, fractionText] using hs
  | some digits =>
    obtain ⟨hsome, hafter⟩ := leadingFraction?_digits (hfraction digits rfl) he r
    have hs := scan?_digits hne hwhole (by decide : '.'.isDigit = false) (digits ++ (e.text ++ r))
    rw [hsome, hafter, hread] at hs
    simpa [text, fractionText] using hs

theorem scan?_append {n : Numeral} (hn : n.WellFormed) (r : Text) :
    ∃ m, scan? (n.text ++ r) = some m ∧ n.text.length ≤ m.text.length := by
  obtain ⟨whole, fraction?, exponent?⟩ := n
  cases exponent? with
  | some e =>
    refine ⟨_, scan?_append_of_exponent hn r, ?_⟩
    simp only [text, NumeralExponent.text, Option.map_some, Option.getD_some, List.length_append,
      List.length_cons]
    omega
  | none =>
    obtain ⟨hne, hwhole, hfraction, -⟩ := hn
    cases fraction? with
    | none =>
      have ht : (whole ++ r).takeWhile Char.isDigit = whole ++ r.takeWhile Char.isDigit :=
        List.takeWhile_append_of_pos hwhole
      have hnil : (whole ++ r).takeWhile Char.isDigit ≠ [] := by
        rw [ht]
        intro h
        exact hne (List.append_eq_nil_iff.mp h).1
      simp only [text, fractionText, Option.map_none, Option.getD_none, List.append_nil]
      refine ⟨_, scan?_of_ne_nil hnil, ?_⟩
      simp only [ht, List.length_append]
      omega
    | some digits =>
      have hs := scan?_digits hne hwhole (by decide : '.'.isDigit = false) (digits ++ r)
      have ht : (digits ++ r).takeWhile Char.isDigit = digits ++ r.takeWhile Char.isDigit :=
        List.takeWhile_append_of_pos (hfraction digits rfl)
      rw [leadingFraction?, ht] at hs
      refine ⟨_, by simpa [text, fractionText] using hs, ?_⟩
      simp only [text, fractionText, Option.map_none, Option.getD_none, List.append_nil,
        List.length_append, List.length_cons]
      omega

theorem longest?_language {s t : Text} (h : longest? s = some t) : Category.number.Language t := by
  obtain ⟨n, hn, rfl⟩ := Option.map_eq_some_iff.mp h
  exact ⟨n, scan?_wellFormed hn, rfl⟩

end Numeral

namespace Quoted

theorem throughQuote?_quote (quote : Char) (s : Text) :
    throughQuote? quote (quote :: s) = some [quote] := by
  cases s <;> simp [throughQuote?]

theorem throughQuote?_plain {quote c : Char} (hq : c ≠ quote) (hc : c ≠ '\\') (s : Text) :
    throughQuote? quote (c :: s) = (throughQuote? quote s).map (c :: ·) := by
  cases s <;> simp [throughQuote?, hq, hc]

theorem throughQuote?_escaped {quote : Char} (hq : quote ≠ '\\') (c : Char) (s : Text) :
    throughQuote? quote ('\\' :: c :: s) =
      (throughQuote? quote s).map fun t => '\\' :: c :: t := by
  rw [throughQuote?, if_neg hq.symm, if_pos rfl]

theorem throughQuote?_units {quote : Char} {s t : Text} (h : throughQuote? quote s = some t) :
    ∃ units, Units quote units ∧ t = units ++ [quote] := by
  fun_induction throughQuote? quote s generalizing t with
  | case1 => cases h
  | case2 => exact ⟨[], .nil, (Option.some.inj h).symm⟩
  | case3 => cases h
  | case4 d s => exact ⟨[], .nil, (Option.some.inj h).symm⟩
  | case5 d s hq ih =>
    obtain ⟨t, ht, rfl⟩ := Option.map_eq_some_iff.mp h
    obtain ⟨units, hu, rfl⟩ := ih ht
    exact ⟨_, .escaped hu, rfl⟩
  | case6 c d s hq hc ih =>
    obtain ⟨t, ht, rfl⟩ := Option.map_eq_some_iff.mp h
    obtain ⟨units, hu, rfl⟩ := ih ht
    exact ⟨_, .plain hq hc hu, rfl⟩

theorem throughQuote?_append {quote : Char} {units : Text} (hq : quote ≠ '\\')
    (hu : Units quote units) (r : Text) :
    throughQuote? quote (units ++ quote :: r) = some (units ++ [quote]) := by
  induction hu with
  | nil => exact throughQuote?_quote quote r
  | plain hne hc _ ih => rw [List.cons_append, throughQuote?_plain hne hc, ih]; rfl
  | escaped _ ih => rw [List.cons_append, List.cons_append, throughQuote?_escaped hq, ih]; rfl

theorem ne_backslash_of_isQuote {quote : Char} (h : CharClass.isQuote quote) : quote ≠ '\\' := by
  rintro rfl
  exact absurd h (by decide)

theorem literal?_language {s t : Text} (h : literal? s = some t) : Category.string.Language t := by
  unfold literal? at h
  split at h
  · split at h
    · obtain ⟨t, ht, rfl⟩ := Option.map_eq_some_iff.mp h
      obtain ⟨units, hu, rfl⟩ := throughQuote?_units ht
      exact ⟨_, units, ‹_›, hu, rfl⟩
    · cases h
  · cases h

theorem literal?_append {u : Text} (hu : Category.string.Language u) (r : Text) :
    literal? (u ++ r) = some u := by
  obtain ⟨quote, units, hq, hu, rfl⟩ := hu
  have ht := throughQuote?_append (ne_backslash_of_isQuote hq) hu r
  simp [literal?, hq, ht]

end Quoted

namespace Punctuator

theorem byteLength_eq_length : ∀ mark ∈ table, Text.byteLength mark = mark.length := by
  decide

theorem longestIn?_append {marks : List Text} {limit : Nat} {u : Text} (hu : u ∈ marks)
    (hne : u ≠ []) (hl : u.byteLength ≤ limit) (r : Text) :
    ∃ t, longestIn? marks limit (u ++ r) = some t ∧ u.byteLength ≤ t.byteLength := by
  induction limit with
  | zero =>
    have := Text.byteLength_pos hne
    omega
  | succ limit ih =>
    by_cases he : u.byteLength = limit + 1
    · refine ⟨u, ?_, Nat.le_refl _⟩
      rw [longestIn?, ← he, Text.takeBytes?_append]
      simp [hu]
    · have hsmaller := ih (by omega)
      rw [longestIn?]
      split
      · rename_i candidate hc
        split
        · obtain ⟨-, -, hlength⟩ := Text.exists_append_of_takeBytes? hc
          exact ⟨candidate, rfl, by omega⟩
        · exact hsmaller
      · exact hsmaller

theorem longest?_append {u : Text} (hu : u ∈ table) (r : Text) :
    ∃ t, longest? (u ++ r) = some t ∧ u.length ≤ t.length := by
  have hne : u ≠ [] := by
    rintro rfl
    exact nil_notMem_table hu
  obtain ⟨t, ht, hl⟩ := longestIn?_append hu hne (byteLength_le_maxBytes u hu) r
  have htable : t ∈ table := (longestIn?_split ht).1
  rw [byteLength_eq_length u hu, byteLength_eq_length t htable] at hl
  exact ⟨t, ht, hl⟩

end Punctuator

namespace Category

theorem recognize?_language {c : Category} {s t : Text} (h : c.recognize? s = some t) :
    c.Language t := by
  cases c with
  | whitespace => exact Trivia.blanks?_language h
  | lineComment => exact Trivia.lineComment?_language h
  | blockComment => exact Trivia.blockComment?_language h
  | name => exact Name.longest?_language h
  | number => exact Numeral.longest?_language h
  | string => exact Quoted.literal?_language h
  | operator => exact (Punctuator.longestIn?_split h).1

theorem recognize?_append {c : Category} {u : Text} (hu : c.Language u) (r : Text) :
    ∃ t, c.recognize? (u ++ r) = some t ∧ u.length ≤ t.length := by
  cases c with
  | whitespace => exact ⟨_, Trivia.blanks?_append hu r, by simp⟩
  | lineComment => exact ⟨_, Trivia.lineComment?_append hu r, by simp⟩
  | blockComment => exact ⟨_, Trivia.blockComment?_append hu r, Nat.le_refl _⟩
  | name => exact ⟨_, Name.longest?_append hu r, by simp⟩
  | number =>
    obtain ⟨n, hn, rfl⟩ := hu
    obtain ⟨m, hm, hl⟩ := Numeral.scan?_append hn r
    exact ⟨m.text, by rw [recognize?, Numeral.longest?, hm]; rfl, hl⟩
  | string => exact ⟨_, Quoted.literal?_append hu r, Nat.le_refl _⟩
  | operator => exact Punctuator.longest?_append hu r

theorem IsLongest.unique {c : Category} {t u rest : Text} (ht : c.IsLongest t rest)
    (hu : c.IsLongest u rest) : t = u := by
  obtain ⟨ht, ⟨r, hr⟩, htmax⟩ := ht
  obtain ⟨hu, ⟨s, hs⟩, humax⟩ := hu
  have hl : t.length = u.length := by
    have := htmax u s hs hu
    have := humax t r hr ht
    omega
  exact (List.append_inj (hr.symm.trans hs) hl).1

theorem recognize?_eq_some_iff {c : Category} {s t : Text} :
    c.recognize? s = some t ↔ c.IsLongest t s := by
  have hsound : ∀ t, c.recognize? s = some t → c.IsLongest t s := by
    intro t h
    refine ⟨recognize?_language h, (recognize?_split h).2, ?_⟩
    rintro u r rfl hu
    obtain ⟨t', ht', hl⟩ := recognize?_append hu r
    obtain rfl := Option.some.inj (h.symm.trans ht')
    exact hl
  constructor
  · exact hsound t
  · intro h
    obtain ⟨hlang, ⟨r, rfl⟩, -⟩ := id h
    obtain ⟨t', ht', -⟩ := recognize?_append hlang r
    rw [ht', (hsound t' ht').unique h]

end Category

end ScriptLexer
