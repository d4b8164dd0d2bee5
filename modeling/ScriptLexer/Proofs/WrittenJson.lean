import Mathlib.Data.List.DropRight
import ScriptLexer.Json.Reader
import ScriptLexer.Proofs.PrintedNumber

/-!
JSON texts by their grammar: `Written j t` says that the text `t` is well-formed and stands for the
value `j`. Of the reader it takes over only which characters are blank and what an escape stands
for. The reader finds the value of every well-formed text.
-/

namespace ScriptLexer

def Numeral.IsStrict (n : Numeral) : Prop :=
  (n.whole.length = 1 ∨ n.whole.head? ≠ some '0') ∧ n.fraction? ≠ some []

theorem Numeral.WellFormed.exists_digit {n : Numeral} (hn : n.WellFormed) :
    ∃ c r, n.text = c :: r ∧ c.isDigit := by
  obtain ⟨hne, hdigits, -⟩ := hn
  obtain ⟨c, whole, hwhole⟩ := List.exists_cons_of_ne_nil hne
  refine ⟨c, _, by rw [text, hwhole, List.cons_append], ?_⟩
  exact hdigits c (hwhole ▸ List.mem_cons_self)

namespace Json

def IsBlanks (s : Text) : Prop := ∀ c ∈ s, isBlank c

def IsNumber (t : Text) : Prop :=
  ∃ n : Numeral, n.WellFormed ∧ n.IsStrict ∧ (t = n.text ∨ t = '-' :: n.text)

inductive Characters : Text → Text → Prop where
  | nil : Characters [] []
  | plain {c : Char} {s t : Text} :
      c ≠ '\x22' → c ≠ '\\' → 0x20 ≤ c.toNat → Characters s t → Characters (c :: s) (c :: t)
  | escape {c e : Char} {s t : Text} :
      ofEscape? c = some e → Characters s t → Characters (e :: s) ('\\' :: c :: t)
  | unit {a b c d : Char} {n : Nat} {s t : Text} :
      unit? a b c d = some n → n < 0xD800 ∨ 0xE000 ≤ n → Characters s t →
      Characters (Char.ofNat n :: s) ('\\' :: 'u' :: a :: b :: c :: d :: t)
  | pair {a b c d a' b' c' d' : Char} {high low : Nat} {s t : Text} :
      unit? a b c d = some high → 0xD800 ≤ high → high < 0xDC00 →
      unit? a' b' c' d' = some low → 0xDC00 ≤ low → low < 0xE000 → Characters s t →
      Characters (Char.ofNat (0x10000 + 0x400 * (high - 0xD800) + (low - 0xDC00)) :: s)
        ('\\' :: 'u' :: a :: b :: c :: d :: '\\' :: 'u' :: a' :: b' :: c' :: d' :: t)

structure WrittenField where
  key : Text
  value : Json
  name : Text
  body : Text

def WrittenField.text (f : WrittenField) : Text := f.name ++ ':' :: f.body

def WrittenField.NameIsKey (f : WrittenField) : Prop :=
  ∃ before characters after, IsBlanks before ∧ IsBlanks after ∧ Characters f.key characters ∧
    f.name = before ++ '\x22' :: (characters ++ '\x22' :: after)

inductive Written : Json → Text → Prop where
  | null : Written .null "null".toList
  | true : Written (.bool .true) "true".toList
  | false : Written (.bool .false) "false".toList
  | number {t : Text} : IsNumber t → Written (.number t) t
  | string {s t : Text} : Characters s t → Written (.string s) ('\x22' :: (t ++ ['\x22']))
  | emptyArray {b : Text} : IsBlanks b → Written (.array []) ('[' :: (b ++ [']']))
  | array {items : List (Json × Text)} :
      items ≠ [] → (∀ item ∈ items, Written item.1 item.2) →
      Written (.array (items.map Prod.fst))
        ('[' :: ([','].intercalate (items.map Prod.snd) ++ [']']))
  | emptyObject {b : Text} : IsBlanks b → Written (.object []) ('\x7b' :: (b ++ ['\x7d']))
  | object {fields : List WrittenField} :
      fields ≠ [] → (∀ field ∈ fields, field.NameIsKey) →
      (∀ field ∈ fields, Written field.value field.body) →
      Written (.object (fields.map fun field => (field.key, field.value)))
        ('\x7b' :: ([','].intercalate (fields.map WrittenField.text) ++ ['\x7d']))
  | padded {j : Json} {b t a : Text} :
      IsBlanks b → IsBlanks a → Written j t → Written j (b ++ (t ++ a))

theorem Characters.readString? {s t : Text} (h : Characters s t) (rest : Text) :
    Json.readString? (t ++ '\x22' :: rest) = some (s, rest) := by
  induction h with
  | nil => rfl
  | @plain c s t hquote hslash hcontrol _ ih =>
    have hrest : Json.readString? (c :: (t ++ '\x22' :: rest)) =
        if c.toNat < 0x20 then none
        else (Json.readString? (t ++ '\x22' :: rest)).map fun p => (c :: p.1, p.2) := by
      apply Json.readString?.eq_4
      · exact hquote
      · intro _ _ _ _ _ hc
        exact absurd hc hslash
      · intro _ _ hc
        exact absurd hc hslash
    rw [List.cons_append, hrest, if_neg (by omega), ih]
    rfl
  | @escape c e s t hc _ ih =>
    have hu : c ≠ 'u' := by
      rintro rfl
      have hnone : ofEscape? 'u' = none := by decide
      rw [hnone] at hc
      cases hc
    rw [List.cons_append, List.cons_append, Json.readString?.eq_3, hc, ih]
    · rfl
    · intro _ _ _ _ _ hcu
      exact absurd hcu hu
  | unit hn hrange _ ih =>
    simp only [List.cons_append]
    rw [Json.readString?, hn]
    simp [hrange, ih]
  | @pair a b c d a' b' c' d' high low s t hhigh hlow hlow' hunit hmin hmax _ ih =>
    have hrange : ¬(high < 0xD800 ∨ 0xE000 ≤ high) := by omega
    simp only [List.cons_append]
    rw [Json.readString?, hhigh]
    simp [hrange, hunit, hlow', hmin, hmax, ih]

theorem unsignedLiteral?_text {n : Numeral} (hn : n.WellFormed) (hstrict : n.IsStrict)
    {rest : Text} (h : Numeral.Ends rest) : unsignedLiteral? (n.text ++ rest) = some n.text := by
  have hcondition : (n.whole.length = 1 ∨ n.whole.head? ≠ some '0') ∧ n.fraction? ≠ some [] := hstrict
  simp only [unsignedLiteral?, Numeral.scan?_text_append hn h, if_pos hcondition]

theorem IsNumber.exists_cons {t : Text} (h : IsNumber t) :
    ∃ c r, t = c :: r ∧ (c = '-' ∨ c.isDigit) := by
  obtain ⟨n, hn, -, rfl | rfl⟩ := h
  · obtain ⟨c, r, hc, hdigit⟩ := hn.exists_digit
    exact ⟨c, r, hc, .inr hdigit⟩
  · exact ⟨'-', n.text, rfl, .inl rfl⟩

theorem IsNumber.readNumber? {t : Text} (ht : IsNumber t) {rest : Text} (h : Numeral.Ends rest) :
    Json.readNumber? (t ++ rest) = some (t, rest) := by
  obtain ⟨n, hn, hstrict, rfl | rfl⟩ := ht
  · have hread := unsignedLiteral?_text hn hstrict h
    obtain ⟨c, r, hc, hdigit⟩ := hn.exists_digit
    have hminus : c ≠ '-' := by
      rintro rfl
      exact absurd hdigit (by decide)
    rw [hc, List.cons_append] at hread ⊢
    simp [Json.readNumber?, hminus, hread]
  · simp [Json.readNumber?, unsignedLiteral?_text hn hstrict h]

theorem skipBlanks_append {b : Text} (hb : IsBlanks b) (s : Text) :
    skipBlanks (b ++ s) = skipBlanks s := List.dropWhile_append_of_pos hb

theorem skipBlanks_cons {c : Char} (hc : isBlank c = false) (s : Text) :
    skipBlanks (c :: s) = c :: s := by
  simp [skipBlanks, hc]

theorem skipBlanks_skipBlanks (s : Text) : skipBlanks (skipBlanks s) = skipBlanks s :=
  List.dropWhile_idempotent isBlank s

theorem isBlank_iff {c : Char} : isBlank c ↔ c = ' ' ∨ c = '\n' ∨ c = '\r' ∨ c = '\t' := by
  simp [isBlank, or_assoc]

theorem ends_cons {c : Char} (hc : c.isDigit = false ∧ c ≠ '.' ∧ c ≠ 'e' ∧ c ≠ 'E') (rest : Text) :
    Numeral.Ends (c :: rest) := by
  rintro d r hd
  obtain ⟨rfl, -⟩ := List.cons.inj hd
  exact hc

theorem ends_append {b rest : Text} (hb : IsBlanks b) (h : Numeral.Ends rest) :
    Numeral.Ends (b ++ rest) := by
  cases b with
  | nil => exact h
  | cons c b =>
    apply ends_cons
    rcases isBlank_iff.mp (hb c List.mem_cons_self) with rfl | rfl | rfl | rfl <;> decide

theorem readValue?_congr {fuel : Nat} {s s' : Text} (h : skipBlanks s = skipBlanks s') :
    readValue? fuel s = readValue? fuel s' := by
  cases fuel with
  | zero => rfl
  | succ fuel => simp only [readValue?, h]

theorem readItems?_congr {fuel : Nat} {s s' : Text} (h : skipBlanks s = skipBlanks s') :
    readItems? fuel s = readItems? fuel s' := by
  cases fuel with
  | zero => rfl
  | succ fuel => simp only [readItems?, readValue?_congr h]

theorem readFields?_congr {fuel : Nat} {s s' : Text} (h : skipBlanks s = skipBlanks s') :
    readFields? fuel s = readFields? fuel s' := by
  cases fuel with
  | zero => rfl
  | succ fuel => simp only [readFields?, h]

theorem readValue?_number {fuel : Nat} {c : Char} (hc : c = '-' ∨ c.isDigit) (r : Text) :
    readValue? (fuel + 1) (c :: r) = (readNumber? (c :: r)).map fun p => (number p.1, p.2) := by
  have hblank : isBlank c = false := by
    rw [Bool.eq_false_iff]
    intro hb
    revert hc
    rcases isBlank_iff.mp hb with rfl | rfl | rfl | rfl <;> decide
  rw [readValue?, skipBlanks_cons hblank]
  split <;> simp_all

theorem readValue?_bracket {fuel : Nat} {s r : Text} (h : skipBlanks s = ']' :: r) :
    readValue? fuel s = none := by
  cases fuel with
  | zero => rfl
  | succ fuel => simp [readValue?, h, readNumber?, unsignedLiteral?, Numeral.scan?]

theorem readValue?_array {fuel : Nat} {s : Text} (h : ∀ r, skipBlanks s ≠ ']' :: r) :
    readValue? (fuel + 1) ('[' :: s) = (readItems? fuel s).map fun p => (array p.1, p.2) := by
  have hitems : readItems? fuel (skipBlanks s) = readItems? fuel s :=
    readItems?_congr (skipBlanks_skipBlanks s)
  rw [readValue?, skipBlanks_cons (by decide)]
  simp only [hitems]

theorem readValue?_object {fuel : Nat} {s : Text} (h : ∀ r, skipBlanks s ≠ '\x7d' :: r) :
    readValue? (fuel + 1) ('\x7b' :: s) = (readFields? fuel s).map fun p => (object p.1, p.2) := by
  have hfields : readFields? fuel (skipBlanks s) = readFields? fuel s :=
    readFields?_congr (skipBlanks_skipBlanks s)
  rw [readValue?, skipBlanks_cons (by decide)]
  simp only [hfields]

def ReadsAs (j : Json) (t : Text) : Prop :=
  ∀ fuel rest, 2 * t.length < fuel → Numeral.Ends rest →
    ∃ r, readValue? fuel (t ++ rest) = some (j, r) ∧ skipBlanks r = skipBlanks rest

theorem ReadsAs.padded {j : Json} {b t a : Text} (h : ReadsAs j t) (hb : IsBlanks b)
    (ha : IsBlanks a) : ReadsAs j (b ++ (t ++ a)) := by
  intro fuel rest hfuel hrest
  simp only [List.length_append] at hfuel
  obtain ⟨r, hread, hr⟩ := h fuel (a ++ rest) (by omega) (ends_append ha hrest)
  have hskip : skipBlanks (b ++ (t ++ a) ++ rest) = skipBlanks (t ++ (a ++ rest)) := by
    rw [List.append_assoc, skipBlanks_append hb, List.append_assoc]
  refine ⟨r, ?_, by rw [hr, skipBlanks_append ha]⟩
  rw [readValue?_congr hskip, hread]

theorem intercalate_comma (t u : Text) (ts : List Text) :
    [','].intercalate (t :: u :: ts) = t ++ ',' :: [','].intercalate (u :: ts) := by
  simp [List.intercalate_cons_cons]

theorem readItems?_of_readsAs {items : List (Json × Text)} (hne : items ≠ [])
    (h : ∀ item ∈ items, ReadsAs item.1 item.2) (fuel : Nat) (rest : Text)
    (hfuel : 2 * ([','].intercalate (items.map Prod.snd)).length + 1 < fuel) :
    readItems? fuel ([','].intercalate (items.map Prod.snd) ++ ']' :: rest) =
      some (items.map Prod.fst, rest) := by
  induction items generalizing fuel with
  | nil => exact absurd rfl hne
  | cons item items ih =>
    obtain ⟨hitem, hitems⟩ := List.forall_mem_cons.mp h
    obtain ⟨fuel, rfl⟩ : ∃ n, fuel = n + 1 := ⟨fuel - 1, by omega⟩
    rw [readItems?]
    cases items with
    | nil =>
      simp only [List.map_cons, List.map_nil, List.intercalate_singleton] at hfuel ⊢
      obtain ⟨r, hread, hr⟩ := hitem fuel (']' :: rest) (by omega) (ends_cons (by decide) rest)
      rw [skipBlanks_cons (by decide)] at hr
      simp [hread, hr]
    | cons next items =>
      have htail := ih (by simp) hitems fuel
      simp only [List.map_cons, intercalate_comma, List.length_append, List.length_cons,
        List.append_assoc, List.cons_append] at hfuel htail ⊢
      generalize [','].intercalate (next.2 :: items.map Prod.snd) = tail at hfuel htail ⊢
      obtain ⟨r, hread, hr⟩ := hitem fuel (',' :: (tail ++ ']' :: rest)) (by omega)
        (ends_cons (by decide) _)
      rw [skipBlanks_cons (by decide)] at hr
      simp [hread, hr, htail (by omega)]

theorem WrittenField.NameIsKey.exists_opened {field : WrittenField} (h : field.NameIsKey) :
    ∃ characters after, Characters field.key characters ∧
      (∀ s, skipBlanks (field.text ++ s) =
        '\x22' :: (characters ++ '\x22' :: (after ++ ':' :: (field.body ++ s)))) ∧
      ∀ s, skipBlanks (after ++ ':' :: s) = ':' :: s := by
  obtain ⟨before, characters, after, hbefore, hafter, hcharacters, hname⟩ := h
  refine ⟨characters, after, hcharacters, ?_, ?_⟩
  · intro s
    have hquote (r : Text) : skipBlanks ('\x22' :: r) = '\x22' :: r :=
      skipBlanks_cons (by decide) r
    simp [WrittenField.text, hname, skipBlanks_append hbefore, hquote]
  · intro s
    rw [skipBlanks_append hafter, skipBlanks_cons (by decide)]

theorem readFields?_of_readsAs {fields : List WrittenField} (hne : fields ≠ [])
    (hkeys : ∀ field ∈ fields, field.NameIsKey)
    (h : ∀ field ∈ fields, ReadsAs field.value field.body) (fuel : Nat) (rest : Text)
    (hfuel : 2 * ([','].intercalate (fields.map WrittenField.text)).length + 1 < fuel) :
    readFields? fuel ([','].intercalate (fields.map WrittenField.text) ++ '\x7d' :: rest) =
      some (fields.map fun field => (field.key, field.value), rest) := by
  induction fields generalizing fuel with
  | nil => exact absurd rfl hne
  | cons field fields ih =>
    obtain ⟨hfield, hfields⟩ := List.forall_mem_cons.mp h
    obtain ⟨hkey, hkeys⟩ := List.forall_mem_cons.mp hkeys
    obtain ⟨characters, after, hcharacters, hopen, hcolon⟩ := hkey.exists_opened
    obtain ⟨fuel, rfl⟩ : ∃ n, fuel = n + 1 := ⟨fuel - 1, by omega⟩
    have hlength : field.text.length = field.name.length + field.body.length + 1 := by
      simp [WrittenField.text]
      omega
    rw [readFields?]
    cases fields with
    | nil =>
      simp only [List.map_cons, List.map_nil, List.intercalate_singleton] at hfuel ⊢
      obtain ⟨r, hread, hr⟩ := hfield fuel ('\x7d' :: rest) (by omega) (ends_cons (by decide) rest)
      rw [skipBlanks_cons (by decide)] at hr
      simp [hopen, hcharacters.readString?, hcolon, hread, hr]
    | cons next fields =>
      have htail := ih (by simp) hkeys hfields fuel
      simp only [List.map_cons, intercalate_comma, List.length_append, List.length_cons,
        List.append_assoc, List.cons_append] at hfuel htail ⊢
      generalize [','].intercalate (next.text :: fields.map WrittenField.text) = tail
        at hfuel htail ⊢
      obtain ⟨r, hread, hr⟩ := hfield fuel (',' :: (tail ++ '\x7d' :: rest)) (by omega)
        (ends_cons (by decide) _)
      rw [skipBlanks_cons (by decide)] at hr
      simp [hopen, hcharacters.readString?, hcolon, hread, hr, htail (by omega)]

theorem readsAs_of_succ {j : Json} {t : Text}
    (h : ∀ fuel rest, 2 * t.length ≤ fuel → Numeral.Ends rest →
      readValue? (fuel + 1) (t ++ rest) = some (j, rest)) : ReadsAs j t := by
  intro fuel rest hfuel hrest
  obtain ⟨fuel, rfl⟩ : ∃ n, fuel = n + 1 := ⟨fuel - 1, by omega⟩
  exact ⟨rest, h fuel rest (by omega) hrest, rfl⟩

theorem readsAs_array {items : List (Json × Text)} (hne : items ≠ [])
    (h : ∀ item ∈ items, ReadsAs item.1 item.2) :
    ReadsAs (.array (items.map Prod.fst))
      ('[' :: ([','].intercalate (items.map Prod.snd) ++ [']'])) := by
  apply readsAs_of_succ
  intro fuel rest hfuel _
  simp only [List.length_cons, List.length_append, List.length_nil] at hfuel
  have hitems := readItems?_of_readsAs hne h fuel rest (by omega)
  simp only [List.cons_append, List.append_assoc, List.nil_append]
  rw [readValue?_array, hitems]
  · rfl
  · -- the first item is read from here, so no bracket stands here
    intro r hbracket
    obtain ⟨fuel, rfl⟩ : ∃ n, fuel = n + 1 := ⟨fuel - 1, by omega⟩
    rw [readItems?, readValue?_bracket hbracket] at hitems
    cases hitems

theorem readsAs_object {fields : List WrittenField} (hne : fields ≠ [])
    (hkeys : ∀ field ∈ fields, field.NameIsKey)
    (h : ∀ field ∈ fields, ReadsAs field.value field.body) :
    ReadsAs (.object (fields.map fun field => (field.key, field.value)))
      ('\x7b' :: ([','].intercalate (fields.map WrittenField.text) ++ ['\x7d'])) := by
  apply readsAs_of_succ
  intro fuel rest hfuel _
  simp only [List.length_cons, List.length_append, List.length_nil] at hfuel
  have hfields := readFields?_of_readsAs hne hkeys h fuel rest (by omega)
  simp only [List.cons_append, List.append_assoc, List.nil_append]
  rw [readValue?_object, hfields]
  · rfl
  · intro r hbrace
    obtain ⟨fuel, rfl⟩ : ∃ n, fuel = n + 1 := ⟨fuel - 1, by omega⟩
    simp [readFields?, hbrace] at hfields

theorem Written.readsAs {j : Json} {t : Text} (h : Written j t) : ReadsAs j t := by
  induction h with
  | padded hb ha _ ih => exact ih.padded hb ha
  | array hne _ ih => exact readsAs_array hne ih
  | object hne hkeys _ ih => exact readsAs_object hne hkeys ih
  | null =>
    apply readsAs_of_succ
    intros
    rfl
  | true =>
    apply readsAs_of_succ
    intros
    rfl
  | false =>
    apply readsAs_of_succ
    intros
    rfl
  | number ht =>
    apply readsAs_of_succ
    intro fuel rest _ hrest
    have hread := ht.readNumber? hrest
    obtain ⟨c, r, rfl, hc⟩ := ht.exists_cons
    rw [List.cons_append] at hread ⊢
    rw [readValue?_number hc, hread]
    rfl
  | string hs =>
    apply readsAs_of_succ
    intro fuel rest _ _
    have hread := hs.readString? rest
    simp only [List.cons_append, List.append_assoc, List.nil_append]
    rw [readValue?, skipBlanks_cons (by decide)]
    simp [hread]
  | @emptyArray b hb =>
    apply readsAs_of_succ
    intro fuel rest _ _
    have hclose : skipBlanks (b ++ ']' :: rest) = ']' :: rest := by
      rw [skipBlanks_append hb, skipBlanks_cons (by decide)]
    simp only [List.cons_append, List.append_assoc, List.nil_append]
    rw [readValue?, skipBlanks_cons (by decide)]
    simp [hclose]
  | @emptyObject b hb =>
    apply readsAs_of_succ
    intro fuel rest _ _
    have hclose : skipBlanks (b ++ '\x7d' :: rest) = '\x7d' :: rest := by
      rw [skipBlanks_append hb, skipBlanks_cons (by decide)]
    simp only [List.cons_append, List.append_assoc, List.nil_append]
    rw [readValue?, skipBlanks_cons (by decide)]
    simp [hclose]

theorem Written.parse? {j : Json} {t : Text} (h : Written j t) : Json.parse? t = some j := by
  obtain ⟨r, hread, hr⟩ := h.readsAs (2 * t.length + 1) [] (by omega) Numeral.ends_nil
  rw [List.append_nil] at hread
  rw [Json.parse?, hread]
  exact if_pos hr

end Json

end ScriptLexer
