import ScriptLexer.Proofs.NearestDouble
import ScriptLexer.Proofs.WrittenJson
import ScriptLexer.Token.Decode

namespace ScriptLexer

namespace Json

inductive Legal : Json → Prop where
  | null : Legal .null
  | bool (b : Bool) : Legal (.bool b)
  | number {t : Text} : IsNumber t → Legal (.number t)
  | string (s : Text) : Legal (.string s)
  | array {items : List Json} : (∀ item ∈ items, Legal item) → Legal (.array items)
  | object {fields : List (Text × Json)} :
      (∀ field ∈ fields, Legal field.2) → Legal (.object fields)

theorem hexValue?_digitChar : ∀ n < 16, hexValue? n.digitChar = some n := by decide

theorem Characters.cons_escapeChar {s t : Text} (h : Characters s t) (c : Char) :
    Characters (c :: s) (escapeChar c ++ t) := by
  unfold escapeChar
  split_ifs with hquote hslash hback htab hline hfeed hreturn hcontrol
  · subst hquote
    exact .escape rfl h
  · subst hslash
    exact .escape rfl h
  · subst hback
    exact .escape rfl h
  · subst htab
    exact .escape rfl h
  · subst hline
    exact .escape rfl h
  · subst hfeed
    exact .escape rfl h
  · subst hreturn
    exact .escape rfl h
  · have hunit : unit? '0' '0' (c.toNat / 16).digitChar (c.toNat % 16).digitChar =
        some c.toNat := by
      have hzero : hexValue? '0' = some 0 := by decide
      simp only [unit?, hzero, hexValue?_digitChar _ (show c.toNat / 16 < 16 by omega),
        hexValue?_digitChar _ (show c.toNat % 16 < 16 by omega)]
      simp only [Option.bind_eq_bind, Option.bind_some, Option.pure_def, Option.some.injEq]
      omega
    have hcharacters := Characters.unit hunit (.inl (by omega)) h
    rwa [Char.ofNat_toNat] at hcharacters
  · exact .plain hquote hslash (by omega) h

theorem characters_escape (s : Text) : Characters s (s.flatMap escapeChar) := by
  induction s with
  | nil => exact .nil
  | cons c s ih => exact ih.cons_escapeChar c

theorem prettyItems_eq_map (depth : Nat) (items : List Json) :
    prettyItems depth items = items.map (prettyAt depth) := by
  induction items with
  | nil => rw [prettyItems, List.map_nil]
  | cons item items ih => rw [prettyItems, ih, List.map_cons]

def prettyField (depth : Nat) (field : Text × Json) : Text :=
  quote field.1 ++ ':' :: ' ' :: prettyAt depth field.2

theorem prettyFields_eq_map (depth : Nat) (fields : List (Text × Json)) :
    prettyFields depth fields = fields.map (prettyField depth) := by
  induction fields with
  | nil => rw [prettyFields, List.map_nil]
  | cons field fields ih => rw [prettyFields, ih, List.map_cons, prettyField]

theorem isBlanks_indent (depth : Nat) : IsBlanks ('\n' :: indent depth) := by
  intro c hc
  rcases List.mem_cons.mp hc with rfl | hc
  · decide
  · rw [List.eq_of_mem_replicate hc]
    decide

structure Piece (α : Type) where
  before : Text
  content : α
  after : Text

def Piece.text {α : Type} (line : α → Text) (p : Piece α) : Text :=
  p.before ++ (line p.content ++ p.after)

theorem exists_pieces {α : Type} (line : α → Text) {xs : List α} (hne : xs ≠ []) (depth : Nat) :
    ∃ pieces : List (Piece α), pieces.map Piece.content = xs ∧
      (∀ p ∈ pieces, IsBlanks p.before ∧ IsBlanks p.after) ∧
      [','].intercalate (pieces.map (Piece.text line)) =
        '\n' :: ([',', '\n'].intercalate ((xs.map line).map (indent (depth + 1) ++ ·)) ++
          '\n' :: indent depth) := by
  induction xs with
  | nil => exact absurd rfl hne
  | cons x xs ih =>
    cases xs with
    | nil =>
      refine ⟨[⟨'\n' :: indent (depth + 1), x, '\n' :: indent depth⟩], rfl, ?_, ?_⟩
      · simpa using ⟨isBlanks_indent (depth + 1), isBlanks_indent depth⟩
      · simp [Piece.text]
    | cons y ys =>
      obtain ⟨pieces, hcontent, hblanks, htext⟩ := ih (by simp)
      cases pieces with
      | nil => simp at hcontent
      | cons p ps =>
        refine ⟨⟨'\n' :: indent (depth + 1), x, []⟩ :: p :: ps, ?_, ?_, ?_⟩
        · rw [List.map_cons, hcontent]
        · exact List.forall_mem_cons.mpr
            ⟨⟨isBlanks_indent (depth + 1), by simp [IsBlanks]⟩, hblanks⟩
        · rw [List.map_cons, List.map_cons, intercalate_comma, ← List.map_cons, htext]
          simp [Piece.text, List.intercalate_cons_cons]

theorem exists_pieces_block {α : Type} (line : α → Text) {xs : List α} (hne : xs ≠ [])
    (depth : Nat) (left right : Char) :
    ∃ pieces : List (Piece α), pieces.map Piece.content = xs ∧
      (∀ p ∈ pieces, IsBlanks p.before ∧ IsBlanks p.after) ∧
      block depth left right (xs.map line) =
        left :: ([','].intercalate (pieces.map (Piece.text line)) ++ [right]) := by
  obtain ⟨pieces, hcontent, hblanks, htext⟩ := exists_pieces line hne depth
  refine ⟨pieces, hcontent, hblanks, ?_⟩
  have hlines : (xs.map line).isEmpty = false := by simpa using hne
  simp [block, hlines, htext]

theorem written_array {items : List Json} {depth : Nat}
    (h : ∀ item ∈ items, Written item (prettyAt (depth + 1) item)) :
    Written (.array items) (prettyAt depth (.array items)) := by
  rw [prettyAt, prettyItems_eq_map]
  by_cases hne : items = []
  · subst hne
    exact .emptyArray (b := []) (by simp [IsBlanks])
  · obtain ⟨pieces, rfl, hblanks, htext⟩ := exists_pieces_block (prettyAt (depth + 1)) hne depth '[' ']'
    have hitems : ∀ item ∈ pieces.map fun p => (p.content, p.text (prettyAt (depth + 1))),
        Written item.1 item.2 := by
      intro item hitem
      obtain ⟨p, hp, rfl⟩ := List.mem_map.mp hitem
      exact .padded (hblanks p hp).1 (hblanks p hp).2 (h p.content (List.mem_map_of_mem hp))
    have hwritten := Written.array (by simpa using hne) hitems
    rw [List.map_map, List.map_map] at hwritten
    rw [htext]
    exact hwritten

def Piece.field (depth : Nat) (p : Piece (Text × Json)) : WrittenField :=
  ⟨p.content.1, p.content.2, p.before ++ quote p.content.1,
    [' '] ++ (prettyAt depth p.content.2 ++ p.after)⟩

theorem Piece.text_field (depth : Nat) (p : Piece (Text × Json)) :
    (p.field depth).text = p.text (prettyField depth) := by
  simp [field, WrittenField.text, text, prettyField]

theorem Piece.nameIsKey_field (depth : Nat) {p : Piece (Text × Json)} (h : IsBlanks p.before) :
    (p.field depth).NameIsKey := by
  refine ⟨p.before, p.content.1.flatMap escapeChar, [], h, by simp [IsBlanks],
    characters_escape p.content.1, ?_⟩
  simp [field, quote]

theorem written_object {fields : List (Text × Json)} {depth : Nat}
    (h : ∀ field ∈ fields, Written field.2 (prettyAt (depth + 1) field.2)) :
    Written (.object fields) (prettyAt depth (.object fields)) := by
  rw [prettyAt, prettyFields_eq_map]
  by_cases hne : fields = []
  · subst hne
    exact .emptyObject (b := []) (by simp [IsBlanks])
  · obtain ⟨pieces, rfl, hblanks, htext⟩ :=
      exists_pieces_block (prettyField (depth + 1)) hne depth '\x7b' '\x7d'
    have hkeys : ∀ field ∈ pieces.map (Piece.field (depth + 1)), field.NameIsKey := by
      intro field hfield
      obtain ⟨p, hp, rfl⟩ := List.mem_map.mp hfield
      exact p.nameIsKey_field (depth + 1) (hblanks p hp).1
    have hbodies : ∀ field ∈ pieces.map (Piece.field (depth + 1)),
        Written field.value field.body := by
      intro field hfield
      obtain ⟨p, hp, rfl⟩ := List.mem_map.mp hfield
      apply Written.padded
      · simpa [IsBlanks] using isBlank_iff.mpr (.inl rfl)
      · exact (hblanks p hp).2
      · exact h p.content (List.mem_map_of_mem hp)
    have hwritten := Written.object (by simpa using hne) hkeys hbodies
    simp only [List.map_map, Function.comp_def, Piece.text_field] at hwritten
    rw [htext]
    exact hwritten

theorem Legal.written {j : Json} (h : j.Legal) (depth : Nat) : Written j (prettyAt depth j) := by
  induction h generalizing depth with
  | null => exact .null
  | bool b =>
    cases b with
    | false => exact .false
    | true => exact .true
  | number ht => exact .number ht
  | string s => exact .string (characters_escape s)
  | array _ ih => exact written_array fun item hitem => ih item hitem (depth + 1)
  | object _ ih => exact written_object fun field hfield => ih field hfield (depth + 1)

end Json

namespace NumberLayout

theorem head?_ofNat_ne_zero {n : Nat} (hn : n ≠ 0) : (Text.ofNat n).head? ≠ some '0' := by
  have hdigit : ∀ m < 10, m ≠ 0 → [m.digitChar].head? ≠ some '0' := by decide
  induction n using Nat.strongRecOn with
  | ind n ih =>
    by_cases hlt : n < 10
    · rw [Text.ofNat, Nat.toDigits_of_lt_base hlt]
      exact hdigit n hlt hn
    · have hfront := ih (n / 10) (by omega) (by omega)
      rw [Text.ofNat, Nat.toDigits_of_base_le (by decide) (by omega),
        List.head?_append_of_ne_nil _ Nat.toDigits_ne_nil]
      exact hfront

theorem plainNumeral_isStrict {tail? : Option Nat} (htail : tail? ≠ some 0) {d : Decimal}
    (hd : d.coefficient = 0 → d.exponent = 0) : (plainNumeral tail? d).IsStrict := by
  have hne : Text.ofNat d.coefficient ≠ [] := Nat.toDigits_ne_nil
  have hzero (hc : d.coefficient = 0) : Text.ofNat d.coefficient = ['0'] := by
    rw [hc]
    rfl
  simp only [plainNumeral]
  split
  · constructor
    · by_cases hc : d.coefficient = 0
      · left
        simp [hzero hc, hd hc, zeros]
      · right
        rw [List.head?_append_of_ne_nil _ hne]
        exact head?_ofNat_ne_zero hc
    · intro hnil
      obtain ⟨k, rfl, hk⟩ := Option.map_eq_some_iff.mp hnil
      exact htail (congrArg some (by simpa [zeros] using hk))
  · have hc : d.coefficient ≠ 0 := fun hc => by
      have := hd hc
      omega
    split
    · constructor
      · right
        rw [List.head?_take]
        simpa [show ¬(Text.ofNat d.coefficient).length - (-d.exponent).toNat = 0 by omega] using
          head?_ofNat_ne_zero hc
      · simp
        omega
    · exact ⟨.inl rfl, by simp [hne]⟩

def scientificNumeral (d : Decimal) : Numeral :=
  let digits := Text.ofNat d.coefficient
  ⟨digits.take 1, if digits.length = 1 then none else some (digits.drop 1),
    some ⟨'e', some (if leadingPlace d < 0 then '-' else '+'), Text.ofNat (leadingPlace d).natAbs⟩⟩

theorem text_scientificNumeral (d : Decimal) : (scientificNumeral d).text = scientific d := by
  have hne : Text.ofNat d.coefficient ≠ [] := Nat.toDigits_ne_nil
  simp only [scientificNumeral, scientific]
  match hdigits : Text.ofNat d.coefficient with
  | [] => exact absurd hdigits hne
  | [c] => simp [Numeral.text, Numeral.fractionText, NumeralExponent.text]
  | c :: e :: s => simp [Numeral.text, Numeral.fractionText, NumeralExponent.text]

theorem scientificNumeral_wellFormed (d : Decimal) : (scientificNumeral d).WellFormed := by
  have hne : Text.ofNat d.coefficient ≠ [] := Nat.toDigits_ne_nil
  have hdigits := isDigit_of_mem_ofNat d.coefficient
  refine ⟨by simp [scientificNumeral, hne], fun c hc => hdigits c (List.mem_of_mem_take hc), ?_, ?_⟩
  · intro digits hmem c hc
    simp only [scientificNumeral] at hmem
    split at hmem
    · cases hmem
    · obtain rfl := Option.some.inj hmem
      exact hdigits c (List.mem_of_mem_drop hc)
  · intro e he
    obtain rfl := Option.some.inj he
    refine ⟨.inl rfl, .inr ?_, Nat.toDigits_ne_nil, isDigit_of_mem_ofNat _⟩
    by_cases hsign : leadingPlace d < 0
    · simp [hsign]
    · simp [hsign]

theorem scientificNumeral_isStrict (d : Decimal) : (scientificNumeral d).IsStrict := by
  have hpos : 0 < (Text.ofNat d.coefficient).length := Nat.length_toDigits_pos
  constructor
  · left
    simp only [scientificNumeral, List.length_take]
    omega
  · simp only [scientificNumeral]
    split
    · simp
    · intro hnil
      have hlength := congrArg List.length (Option.some.inj hnil)
      rw [List.length_drop, List.length_nil] at hlength
      omega

theorem value_signed (place : Int) :
    (NumeralExponent.mk 'e' (some (if place < 0 then '-' else '+'))
      (Text.ofNat place.natAbs)).value = place := by
  have hvalue : Nat.ofDigitChars 10 (Text.ofNat place.natAbs) 0 = place.natAbs :=
    Nat.ofDigitChars_ten_toDigits
  by_cases hsign : place < 0
  · simp only [NumeralExponent.value, hvalue, hsign, if_true]
    omega
  · have hplus : some '+' ≠ some '-' := by decide
    simp only [NumeralExponent.value, hvalue, hsign, if_false, if_neg hplus]
    omega

theorem decimal_scientificNumeral (d : Decimal) : (scientificNumeral d).decimal = d := by
  obtain ⟨c, e⟩ := d
  have hpos : 0 < (Text.ofNat c).length := Nat.length_toDigits_pos
  have hvalue : Nat.ofDigitChars 10 (Text.ofNat c) 0 = c := Nat.ofDigitChars_ten_toDigits
  have hcount : Decimal.digitCount c = (Text.ofNat c).length := rfl
  have hplaces : (scientificNumeral ⟨c, e⟩).fraction?.getD [] = (Text.ofNat c).drop 1 := by
    simp only [scientificNumeral]
    split
    · rw [List.drop_eq_nil_of_le (by omega)]
      rfl
    · rfl
  have hdigits : (scientificNumeral ⟨c, e⟩).whole ++ (Text.ofNat c).drop 1 = Text.ofNat c :=
    List.take_append_drop 1 (Text.ofNat c)
  have hshift : ((scientificNumeral ⟨c, e⟩).exponent?.map NumeralExponent.value).getD 0 =
      leadingPlace ⟨c, e⟩ := value_signed _
  rw [Numeral.decimal, hplaces, hdigits, hshift, hvalue, List.length_drop, leadingPlace, hcount]
  congr 1
  simp only
  omega

end NumberLayout

theorem Shortest.exponent_of_coefficient (tie : Tie) (m : Nat)
    (h : (decimal tie m).coefficient = 0) : (decimal tie m).exponent = 0 := by
  have henclosed := decimal_encloses tie m
  rw [Decimal.toRat, h, Nat.cast_zero, zero_mul, zero_mul, mul_zero] at henclosed
  obtain rfl := henclosed.unique (encloses_zero_of_lt le_rfl one_pos)
  rfl

namespace Json

theorem exists_numeral_write (x : Binary64) :
    ∃ n : Numeral, n.WellFormed ∧ n.IsStrict ∧
      Shortest.Encloses x.magnitude (2 * (n.decimal.toRat * Binary64.unitsPerOne)) ∧
      numberLayout.write x = (if x.negative then ['-'] else []) ++ n.text := by
  have hzero := Shortest.exponent_of_coefficient .toEven x.magnitude
  have henclosed := Shortest.decimal_encloses .toEven x.magnitude
  generalize hd : Shortest.decimal .toEven x.magnitude = d at hzero henclosed
  by_cases hplain : numberLayout.isPlain (NumberLayout.leadingPlace d)
  · refine ⟨NumberLayout.plainNumeral (some 1) d, NumberLayout.plainNumeral_wellFormed (some 1) d,
      NumberLayout.plainNumeral_isStrict (by decide) hzero, ?_, ?_⟩
    · rwa [NumberLayout.toRat_plainNumeral]
    · rw [NumberLayout.text_plainNumeral]
      simp only [NumberLayout.write]
      have htie : numberLayout.tie = .toEven := rfl
      rw [htie, hd, if_pos hplain]
      rfl
  · refine ⟨NumberLayout.scientificNumeral d, NumberLayout.scientificNumeral_wellFormed d,
      NumberLayout.scientificNumeral_isStrict d, ?_, ?_⟩
    · rwa [NumberLayout.decimal_scientificNumeral]
    · rw [NumberLayout.text_scientificNumeral]
      simp only [NumberLayout.write]
      have htie : numberLayout.tie = .toEven := rfl
      rw [htie, hd, if_neg hplain]

theorem isNumber_write (x : Binary64) : IsNumber (numberLayout.write x) := by
  obtain ⟨n, hn, hstrict, -, htext⟩ := exists_numeral_write x
  refine ⟨n, hn, hstrict, ?_⟩
  rw [htext]
  cases x.negative with
  | false => exact .inl rfl
  | true => exact .inr rfl

theorem isNumber_ofNat (n : Nat) : IsNumber (Text.ofNat n) := by
  have hdigits := NumberLayout.isDigit_of_mem_ofNat n
  refine ⟨⟨Text.ofNat n, none, none⟩, ⟨Nat.toDigits_ne_nil, hdigits, by simp, by simp⟩, ?_, ?_⟩
  · refine ⟨?_, by simp⟩
    by_cases hn : n = 0
    · left
      rw [hn]
      rfl
    · exact .inr (NumberLayout.head?_ofNat_ne_zero hn)
  · left
    simp [Numeral.text, Numeral.fractionText]

theorem toBinary64?_write {x : Binary64} (hfinite : x.isFinite) :
    toBinary64? (.number (numberLayout.write x)) = some x := by
  obtain ⟨n, hn, -, henclosed, htext⟩ := exists_numeral_write x
  obtain ⟨negative, m, hm⟩ := x
  have hlt : m < Binary64.infinite := of_decide_eq_true hfinite
  have hread : Binary64.ofNumeral? n.text = some (Binary64.ofMagnitude m hlt) := by
    have hnearest : n.value? = some (Binary64.ofMagnitude m hlt) :=
      Decimal.nearest?_of_encloses hlt henclosed
    simp [Binary64.ofNumeral?, Numeral.scan?_text hn, hnearest]
  rw [htext]
  cases negative with
  | true =>
    simp only [if_true, List.singleton_append, toBinary64?, hread]
    rfl
  | false =>
    obtain ⟨c, r, hc, hdigit⟩ := hn.exists_digit
    have hminus : c ≠ '-' := by
      rintro rfl
      exact absurd hdigit (by decide)
    rw [hc] at hread ⊢
    simp only [Bool.false_eq_true, if_false, List.nil_append]
    rw [toBinary64?.eq_2 _ (by simpa using hminus), hread]
    rfl

end Json

end ScriptLexer
