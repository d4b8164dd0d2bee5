import ScriptLexer.Proofs.TokenRefinement

namespace ScriptLexer

namespace Binary64

def IsSign (t : Text) : Prop := t = [] ∨ t = ['+'] ∨ t = ['-']

def IsMantissa (t : Text) : Prop :=
  ∃ whole fraction : Text, (∀ c ∈ whole ++ fraction, c.isDigit) ∧ whole ++ fraction ≠ [] ∧
    (t = whole ++ '.' :: fraction ∨ fraction = [] ∧ t = whole)

def IsExponent (t : Text) : Prop :=
  t = [] ∨ ∃ (mark : Char) (sign digits : Text), (mark = 'e' ∨ mark = 'E') ∧ IsSign sign ∧
    digits ≠ [] ∧ (∀ c ∈ digits, c.isDigit) ∧ t = mark :: (sign ++ digits)

inductive IsLiteral : Text → Prop where
  | word {sign word : Text} : IsSign sign →
      word.map Char.toLower ∈ ["inf".toList, "infinity".toList, "nan".toList] →
      IsLiteral (sign ++ word)
  | number {sign mantissa exponent : Text} : IsSign sign → IsMantissa mantissa →
      IsExponent exponent → IsLiteral (sign ++ (mantissa ++ exponent))

theorem isExponent_text {e : NumeralExponent} (he : e.WellFormed) : IsExponent e.text := by
  obtain ⟨hmark, hsign, hne, hdigits⟩ := he
  refine .inr ⟨e.mark, e.sign?.toList, e.digits, hmark, ?_, hne, hdigits, rfl⟩
  rcases hsign with hsign | hsign | hsign
  · exact .inl (by rw [hsign]; rfl)
  · exact .inr (.inl (by rw [hsign]; rfl))
  · exact .inr (.inr (by rw [hsign]; rfl))

theorem isMantissa_text {n : Numeral} (hn : n.WellFormed) :
    IsMantissa (n.whole ++ Numeral.fractionText n.fraction?) := by
  obtain ⟨hne, hwhole, hfraction, -⟩ := hn
  cases hf : n.fraction? with
  | none =>
    refine ⟨n.whole, [], ?_, ?_, .inr ⟨rfl, List.append_nil _⟩⟩
    · rwa [List.append_nil]
    · rwa [List.append_nil]
  | some digits =>
    refine ⟨n.whole, digits, ?_, ?_, .inl rfl⟩
    · exact List.forall_mem_append.mpr ⟨hwhole, hfraction digits hf⟩
    · exact List.append_ne_nil_of_left_ne_nil hne digits

theorem isLiteral_text {n : Numeral} (hn : n.WellFormed) : IsLiteral n.text := by
  have hexponent : IsExponent ((n.exponent?.map NumeralExponent.text).getD []) := by
    cases he : n.exponent? with
    | none => exact .inl rfl
    | some e => exact isExponent_text (hn.2.2.2 e he)
  have hsign : IsSign [] := .inl rfl
  rw [Numeral.text, ← List.append_assoc]
  exact .number hsign (isMantissa_text hn) hexponent

end Binary64

namespace Lexeme

theorem encloses_of_value? {l : Lexeme} {v : ℚ} {x : Binary64} (hl : l.category = .number)
    (h : Numeral.Denotes l.text v) (hx : l.value? = .ok (some (.number x))) :
    ∃ m hm, x = Binary64.ofMagnitude m hm ∧
      Shortest.Encloses m (2 * (v * Binary64.unitsPerOne)) := by
  rcases value?_of_denotes hl h with ⟨-, herror⟩ | ⟨-, m, hm, hvalue, henclosed⟩
  · rw [hx] at herror
    cases herror
  · rw [hx] at hvalue
    obtain rfl : x = Binary64.ofMagnitude m hm := by simpa using hvalue
    exact ⟨m, hm, rfl, henclosed⟩

end Lexeme

theorem numbers_round_to_nearest :
    (∀ s t : Text, Category.number.recognize? s = some t →
      Binary64.IsLiteral t ∧ ∃! v, Numeral.Denotes t v) ∧
    (∀ (l : Lexeme) (v : ℚ), l.category = .number → Numeral.Denotes l.text v →
      (l.value? = .error ⟨.invalidNumber, "Bad number '".toList ++ l.text ++ ['\x27'],
        ⟨l.start, some l.stop⟩⟩ ↔ 2 ^ 1024 - 2 ^ 970 ≤ v) ∧
      (v < 2 ^ 1024 - 2 ^ 970 → ∃ x, l.value? = .ok (some (.number x)) ∧ x.IsNearest v)) ∧
    ∀ (l l' : Lexeme) (v v' : ℚ) (x x' : Binary64), l.category = .number → l'.category = .number →
      Numeral.Denotes l.text v → Numeral.Denotes l'.text v' → v ≤ v' →
      l.value? = .ok (some (.number x)) → l'.value? = .ok (some (.number x')) →
      x.toRat ≤ x'.toRat := by
  refine ⟨?_, ?_, ?_⟩
  · intro s t h
    have hlanguage := Category.recognize?_language h
    refine ⟨?_, Numeral.existsUnique_denotes hlanguage⟩
    obtain ⟨n, hn, rfl⟩ := hlanguage
    exact Binary64.isLiteral_text hn
  · intro l v hl h
    rcases Lexeme.value?_of_denotes hl h with
      ⟨hlarge, herror⟩ | ⟨hsmall, m, hm, hvalue, henclosed⟩
    · refine ⟨⟨fun _ => hlarge, fun _ => herror⟩, ?_⟩
      intro hsmall
      exact absurd hlarge hsmall.not_ge
    · refine ⟨⟨?_, ?_⟩, fun _ => ⟨_, hvalue, henclosed.isNearest hm⟩⟩
      · intro herror
        rw [hvalue] at herror
        cases herror
      · intro hlarge
        exact absurd hlarge hsmall.not_ge
  · intro l l' v v' x x' hl hl' h h' hle hx hx'
    obtain ⟨m, hm, rfl, henclosed⟩ := Lexeme.encloses_of_value? hl h hx
    obtain ⟨m', hm', rfl, henclosed'⟩ := Lexeme.encloses_of_value? hl' h' hx'
    apply Binary64.toRat_mono
    apply henclosed.le_of_le henclosed'
    have hscaled := mul_le_mul_of_nonneg_right hle Binary64.unitsPerOne_pos.le
    linarith

/-- Two numbers halfway between doubles, of which one is rounded down and the other up, a number
that is too large and one that is too small. -/
theorem numbers_round_to_nearest_halfway :
    Binary64.IsLiteral "9007199254740993".toList ∧
    Numeral.Denotes "9007199254740993".toList 9007199254740993 ∧
    (9007199254740993 : ℚ) < 2 ^ 1024 - 2 ^ 970 ∧
    (∃ x, (Lexeme.mk .number "9007199254740993".toList 0 16).value? = .ok (some (.number x)) ∧
      x.IsNearest 9007199254740993) ∧
    (Binary64.ofBits 0x4340000000000000).toRat ≤ (Binary64.ofBits 0x4340000000000002).toRat ∧
    Numeral.Denotes "1e400".toList (10 ^ 400) ∧
    (Lexeme.mk .number "1e400".toList 3 8).value? =
      .error ⟨.invalidNumber, "Bad number '1e400'".toList, ⟨3, some 8⟩⟩ ∧
    Numeral.Denotes "1e-400".toList (10 ^ 400)⁻¹ ∧
    ∃ x, (Lexeme.mk .number "1e-400".toList 0 6).value? = .ok (some (.number x)) ∧
      x.IsNearest (10 ^ 400)⁻¹ := by
  obtain ⟨hliteral, hvalue, hmono⟩ := numbers_round_to_nearest
  have hrecognized : Category.number.recognize? "9007199254740993e+".toList =
      some "9007199254740993".toList := by
    decide +kernel
  have hlow : Numeral.Denotes "9007199254740993".toList 9007199254740993 :=
    Numeral.denotes_digits (by decide) (by decide)
  have hhigh : Numeral.Denotes "9007199254740995".toList 9007199254740995 :=
    Numeral.denotes_digits (by decide) (by decide)
  have hrange : (9007199254740993 : ℚ) < 2 ^ 1024 - 2 ^ 970 := by
    decide +kernel
  have hdown : (Lexeme.mk .number "9007199254740993".toList 0 16).value? =
      .ok (some (.number (.ofBits 0x4340000000000000))) := by
    decide +kernel
  have hup : (Lexeme.mk .number "9007199254740995".toList 0 16).value? =
      .ok (some (.number (.ofBits 0x4340000000000002))) := by
    decide +kernel
  have hlarge : Numeral.Denotes "1e400".toList (10 ^ 400) := by
    have hexponent : NumeralExponent.WellFormed ⟨'e', none, ['4', '0', '0']⟩ :=
      ⟨.inl rfl, .inl rfl, by decide, by simp⟩
    have hdenotes : Numeral.Denotes "1e400".toList _ :=
      Numeral.denotes_scientific (List.cons_ne_nil '1' []) (by decide) hexponent
    simpa [NumeralExponent.scale, Nat.ofDigitChars] using hdenotes
  have hsmall : Numeral.Denotes "1e-400".toList (10 ^ 400)⁻¹ := by
    have hexponent : NumeralExponent.WellFormed ⟨'e', some '-', ['4', '0', '0']⟩ :=
      ⟨.inl rfl, .inr (.inr rfl), by decide, by simp⟩
    have hdenotes : Numeral.Denotes "1e-400".toList _ :=
      Numeral.denotes_scientific (List.cons_ne_nil '1' []) (by decide) hexponent
    simpa [NumeralExponent.scale, Nat.ofDigitChars] using hdenotes
  have hover : (2 : ℚ) ^ 1024 - 2 ^ 970 ≤ 10 ^ 400 := by
    decide +kernel
  have hunder : (10 ^ 400 : ℚ)⁻¹ < 2 ^ 1024 - 2 ^ 970 := by
    decide +kernel
  refine ⟨(hliteral _ _ hrecognized).1, hlow, hrange, (hvalue _ _ rfl hlow).2 hrange,
    hmono _ _ _ _ _ _ rfl rfl hlow hhigh (by norm_num) hdown hup, hlarge, ?_, hsmall, ?_⟩
  · exact (hvalue _ _ rfl hlarge).1.mpr hover
  · exact (hvalue _ _ rfl hsmall).2 hunder

end ScriptLexer
