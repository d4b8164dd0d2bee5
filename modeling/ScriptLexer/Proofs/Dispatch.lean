import Mathlib.Data.List.Basic
import ScriptLexer.Lexeme.Basic
import ScriptLexer.Proofs.LongestMatch

namespace ScriptLexer

namespace Category

def claims (c : Category) (s : Text) : Bool :=
  (c.recognize? s).isSome || c.opening?.any (·.opens s)

def Begins : Category → Text → Prop
  | whitespace, s => ∃ c r, s = c :: r ∧ CharClass.isBlank c
  | lineComment, s => ∃ r, s = '/' :: '/' :: r
  | blockComment, s => ∃ r, s = '/' :: '*' :: r
  | name, s => ∃ c r, s = c :: r ∧ CharClass.isNameStart c
  | number, s => ∃ c r, s = c :: r ∧ c.isDigit
  | string, s => ∃ c r, s = c :: r ∧ CharClass.isQuote c
  | operator, s => ∃ c r, s = c :: r ∧ [c] ∈ Punctuator.table

theorem head_mem_table : ∀ mark ∈ Punctuator.table, [mark.headD ' '] ∈ Punctuator.table := by
  decide

theorem begins_of_language {c : Category} {t : Text} (h : c.Language t) (r : Text) :
    c.Begins (t ++ r) := by
  cases c with
  | whitespace =>
    obtain ⟨hne, hb⟩ := h
    obtain ⟨a, t, rfl⟩ := List.exists_cons_of_ne_nil hne
    exact ⟨a, t ++ r, rfl, hb a List.mem_cons_self⟩
  | lineComment =>
    obtain ⟨body, rfl, -⟩ := h
    exact ⟨body ++ r, rfl⟩
  | blockComment =>
    obtain ⟨body, rfl, -⟩ := h
    exact ⟨body ++ ['*', '/'] ++ r, rfl⟩
  | name =>
    obtain ⟨a, s, rfl, ha, -⟩ := h
    exact ⟨a, s ++ r, rfl, ha⟩
  | number =>
    obtain ⟨⟨whole, fraction?, exponent?⟩, ⟨hne, hd, -⟩, rfl⟩ := h
    obtain ⟨a, whole, rfl⟩ := List.exists_cons_of_ne_nil hne
    exact ⟨a, _, rfl, hd a List.mem_cons_self⟩
  | string =>
    obtain ⟨quote, units, hq, -, rfl⟩ := h
    exact ⟨quote, units ++ [quote] ++ r, rfl, hq⟩
  | operator =>
    cases t with
    | nil => exact absurd h Punctuator.nil_notMem_table
    | cons a t => exact ⟨a, t ++ r, rfl, head_mem_table _ h⟩

theorem begins_of_opens {c : Category} {o : Opening} {s : Text} (hc : c.opening? = some o)
    (h : o.opens s) : c.Begins s := by
  simp only [Opening.opens, List.any_eq_true, List.isPrefixOf_iff_prefix] at h
  obtain ⟨mark, hmark, r, rfl⟩ := h
  cases c with
  | blockComment =>
    obtain rfl := Option.some.inj hc
    obtain rfl := List.mem_singleton.mp hmark
    exact ⟨r, rfl⟩
  | string =>
    obtain rfl := Option.some.inj hc
    simp only [List.mem_cons, List.not_mem_nil, or_false] at hmark
    rcases hmark with rfl | rfl
    · exact ⟨_, r, rfl, by decide⟩
    · exact ⟨_, r, rfl, by decide⟩
  | _ => cases hc

theorem claims_of_recognize? {c : Category} {s t : Text} (h : c.recognize? s = some t) :
    c.claims s := by
  simp [claims, h]

theorem claims_of_language {c : Category} {t : Text} (h : c.Language t) (r : Text) :
    c.claims (t ++ r) := by
  obtain ⟨u, hu, -⟩ := recognize?_append h r
  exact claims_of_recognize? hu

theorem claims_of_begins {c : Category} {s : Text} (h : c.Begins s) : c.claims s := by
  cases c with
  | whitespace =>
    obtain ⟨a, r, rfl, ha⟩ := h
    have hl : whitespace.Language [a] := ⟨by simp, by simpa using ha⟩
    exact claims_of_language hl r
  | lineComment =>
    obtain ⟨r, rfl⟩ := h
    have hl : lineComment.Language ['/', '/'] := ⟨[], rfl, by simp⟩
    exact claims_of_language hl r
  | blockComment =>
    obtain ⟨r, rfl⟩ := h
    simp [claims, opening?, Opening.opens]
  | name =>
    obtain ⟨a, r, rfl, ha⟩ := h
    have hl : name.Language [a] := ⟨a, [], rfl, ha, by simp⟩
    exact claims_of_language hl r
  | number =>
    obtain ⟨a, r, rfl, ha⟩ := h
    have hn : Numeral.WellFormed ⟨[a], none, none⟩ := ⟨by simp, by simpa using ha, by simp, by simp⟩
    have hl : number.Language [a] := ⟨_, hn, rfl⟩
    exact claims_of_language hl r
  | string =>
    obtain ⟨a, r, rfl, ha⟩ := h
    have hq : a = '\x27' ∨ a = '\x22' := by simpa [CharClass.isQuote] using ha
    rcases hq with rfl | rfl <;> simp [claims, opening?, Opening.opens]
  | operator =>
    obtain ⟨a, r, rfl, ha⟩ := h
    have hl : operator.Language [a] := ha
    exact claims_of_language hl r

theorem claims_iff_begins {c : Category} {s : Text} : c.claims s ↔ c.Begins s := by
  constructor
  · intro h
    simp only [claims, Bool.or_eq_true] at h
    rcases h with h | h
    · obtain ⟨t, ht⟩ := Option.isSome_iff_exists.mp h
      obtain ⟨-, r, rfl⟩ := recognize?_split ht
      exact begins_of_language (recognize?_language ht) r
    · obtain ⟨o, ho, hopens⟩ := (Option.any_eq_true _ _).mp h
      exact begins_of_opens ho hopens
  · exact claims_of_begins

end Category

namespace CharClass

theorem not_isBlank_of_printable {c : Char} (hl : 0x21 ≤ c.toNat) (hu : c.toNat ≤ 0x7E) :
    isBlank c = false := by
  simp only [isBlank, blankRanges, List.any_cons, List.any_nil, Bool.or_eq_false_iff,
    Bool.and_eq_false_iff, decide_eq_false_iff_not, and_true]
  omega

theorem isNameStart_toNat {c : Char} (h : isNameStart c) :
    0x41 ≤ c.toNat ∧ c.toNat ≤ 0x7A := by
  rw [isNameStart, Bool.or_eq_true] at h
  rcases h with h | h
  · rcases (Bool.or_eq_true _ _).mp h with h | h
    · obtain ⟨hl, hu⟩ := of_decide_eq_true h
      have hl : 0x41 ≤ c.toNat := UInt32.le_iff_toNat_le.mp hl
      have hu : c.toNat ≤ 0x5A := UInt32.le_iff_toNat_le.mp hu
      omega
    · obtain ⟨hl, hu⟩ := (Bool.and_eq_true _ _).mp h
      have hl : 0x61 ≤ c.toNat := UInt32.le_iff_toNat_le.mp (of_decide_eq_true hl)
      have hu : c.toNat ≤ 0x7A := UInt32.le_iff_toNat_le.mp (of_decide_eq_true hu)
      omega
  · rw [of_decide_eq_true h]
    decide

end CharClass

namespace Category

/-- The category of a text by its first character, comments counting as operators. -/
def ofFirst (c : Char) : Category :=
  if CharClass.isBlank c then whitespace
  else if CharClass.isNameStart c then name
  else if c.isDigit then number
  else if CharClass.isQuote c then string
  else operator

theorem ofFirst_nameStart {c : Char} (h : CharClass.isNameStart c) : ofFirst c = name := by
  obtain ⟨hl, hu⟩ := CharClass.isNameStart_toNat h
  have hb := CharClass.not_isBlank_of_printable (c := c) (by omega) (by omega)
  simp [ofFirst, hb, h]

theorem ofFirst_digit {c : Char} (h : c.isDigit) : ofFirst c = number := by
  have hd : 0x30 ≤ c.toNat ∧ c.toNat ≤ 0x39 := Char.isDigit_iff_toNat.mp h
  have hb := CharClass.not_isBlank_of_printable (c := c) (by omega) (by omega)
  have hn : CharClass.isNameStart c = false := by
    rw [Bool.eq_false_iff]
    intro hn
    have := CharClass.isNameStart_toNat hn
    omega
  simp [ofFirst, hb, hn, h]

theorem ofFirst_quote {c : Char} (h : CharClass.isQuote c) : ofFirst c = string := by
  have hq : c = '\x27' ∨ c = '\x22' := by simpa [CharClass.isQuote] using h
  rcases hq with rfl | rfl <;> decide

theorem ofFirst_operator {c : Char} (h : [c] ∈ Punctuator.table) : ofFirst c = operator := by
  have hall : ∀ mark ∈ Punctuator.table, ofFirst (mark.headD ' ') = operator := by
    decide +kernel
  exact hall [c] h

theorem ofFirst_of_begins {c : Category} {s : Text} (h : c.Begins s) : ∃ a r, s = a :: r ∧
    (ofFirst a = c ∨
      ofFirst a = operator ∧ OpensComment s ∧ (c = lineComment ∨ c = blockComment)) := by
  cases c with
  | whitespace =>
    obtain ⟨a, r, rfl, ha⟩ := h
    exact ⟨a, r, rfl, .inl (by simp [ofFirst, ha])⟩
  | lineComment =>
    obtain ⟨r, rfl⟩ := h
    exact ⟨'/', '/' :: r, rfl, .inr ⟨by decide, ⟨r, .inl rfl⟩, .inl rfl⟩⟩
  | blockComment =>
    obtain ⟨r, rfl⟩ := h
    exact ⟨'/', '*' :: r, rfl, .inr ⟨by decide, ⟨r, .inr rfl⟩, .inr rfl⟩⟩
  | name =>
    obtain ⟨a, r, rfl, ha⟩ := h
    exact ⟨a, r, rfl, .inl (ofFirst_nameStart ha)⟩
  | number =>
    obtain ⟨a, r, rfl, ha⟩ := h
    exact ⟨a, r, rfl, .inl (ofFirst_digit ha)⟩
  | string =>
    obtain ⟨a, r, rfl, ha⟩ := h
    exact ⟨a, r, rfl, .inl (ofFirst_quote ha)⟩
  | operator =>
    obtain ⟨a, r, rfl, ha⟩ := h
    exact ⟨a, r, rfl, .inl (ofFirst_operator ha)⟩

theorem comments_disjoint (s : Text) : ¬(lineComment.Begins s ∧ blockComment.Begins s) := by
  rintro ⟨⟨r, rfl⟩, ⟨r', h⟩⟩
  simp at h

theorem begins_overlap {c d : Category} {s : Text} (hc : c.Begins s) (hd : d.Begins s)
    (hne : c ≠ d) : OpensComment s ∧ (c = operator ∨ d = operator) := by
  obtain ⟨a, r, rfl, hcase⟩ := ofFirst_of_begins hc
  obtain ⟨b, r', hb, hdase⟩ := ofFirst_of_begins hd
  obtain ⟨rfl, rfl⟩ := List.cons.inj hb
  rcases hcase with hca | ⟨hca, hcopens, hcc⟩
  · rcases hdase with hda | ⟨hda, hdopens, -⟩
    · exact absurd (hca.symm.trans hda) hne
    · exact ⟨hdopens, .inl (hca.symm.trans hda)⟩
  · rcases hdase with hda | ⟨-, -, hdd⟩
    · exact ⟨hcopens, .inr (hda.symm.trans hca)⟩
    · rcases hcc with rfl | rfl <;> rcases hdd with rfl | rfl
      · exact absurd rfl hne
      · exact absurd ⟨hc, hd⟩ (comments_disjoint _)
      · exact absurd ⟨hd, hc⟩ (comments_disjoint _)
      · exact absurd rfl hne

theorem operator_begins_of_opensComment {s : Text} (h : OpensComment s) :
    operator.Begins s ∧ (lineComment.Begins s ∨ blockComment.Begins s) := by
  obtain ⟨r, rfl | rfl⟩ := h
  · exact ⟨⟨'/', _, rfl, by decide⟩, .inl ⟨r, rfl⟩⟩
  · exact ⟨⟨'/', _, rfl, by decide⟩, .inr ⟨r, rfl⟩⟩

structure CommentsFirst (order : List Category) : Prop where
  complete : ∀ c, c ∈ order
  lineComment_lt : order.idxOf lineComment < order.idxOf operator
  blockComment_lt : order.idxOf blockComment < order.idxOf operator

theorem priority_commentsFirst : CommentsFirst priority :=
  ⟨mem_priority, by decide, by decide⟩

theorem idxOf_le_of_find? {order : List Category} {c d : Category} {s : Text}
    (h : order.find? (·.claims s) = some c) (hd : d.claims s) :
    order.idxOf c ≤ order.idxOf d := by
  obtain ⟨hc, front, back, rfl, hfront⟩ := List.find?_eq_some_iff_append.mp h
  have hnot : ∀ e : Category, e.claims s → e ∉ front := by
    intro e he hmem
    simpa [he] using hfront e hmem
  rw [List.idxOf_append_of_notMem (hnot c hc), List.idxOf_append_of_notMem (hnot d hd),
    List.idxOf_cons_self]
  omega

theorem not_opensComment_of_find? {order : List Category} {s : Text} (ho : CommentsFirst order)
    (h : order.find? (·.claims s) = some operator) : ¬OpensComment s := by
  intro hs
  rcases (operator_begins_of_opensComment hs).2 with hb | hb
  · have := idxOf_le_of_find? h (claims_of_begins hb)
    have := ho.lineComment_lt
    omega
  · have := idxOf_le_of_find? h (claims_of_begins hb)
    have := ho.blockComment_lt
    omega

theorem find?_claims_eq_some_iff {order : List Category} {c : Category} {s : Text}
    (ho : CommentsFirst order) : order.find? (·.claims s) = some c ↔
      c.claims s ∧ (c = operator → ¬OpensComment s) := by
  constructor
  · intro h
    refine ⟨by simpa using List.find?_some h, ?_⟩
    rintro rfl
    exact not_opensComment_of_find? ho h
  · rintro ⟨hc, hop⟩
    have hmem : ∃ c ∈ order, c.claims s := ⟨c, ho.complete c, hc⟩
    obtain ⟨d, hd⟩ := Option.isSome_iff_exists.mp (List.find?_isSome.mpr hmem)
    have hdc : d.claims s := by simpa using List.find?_some hd
    by_cases hcd : c = d
    · rw [hcd, hd]
    · obtain ⟨hopens, hor⟩ := begins_overlap (claims_iff_begins.mp hc) (claims_iff_begins.mp hdc) hcd
      rcases hor with rfl | rfl
      · exact absurd hopens (hop rfl)
      · exact absurd hopens (not_opensComment_of_find? ho hd)

end Category

namespace Lexeme

theorem firstIn_cons_of_not_claims {start : Nat} {rest : Text} {c : Category}
    {order : List Category} (h : c.claims rest = false) :
    firstIn start rest (c :: order) = firstIn start rest order := by
  simp only [Category.claims, Bool.or_eq_false_iff, Option.isSome_eq_false_iff,
    Option.isNone_iff_eq_none] at h
  obtain ⟨hr, ho⟩ := h
  have hf : c.opening?.filter (·.opens rest) = none := by
    rw [Option.filter_eq_none_iff]
    intro o hc
    simpa [hc] using ho
  rw [firstIn_cons, hr, hf]

theorem firstIn_cons_of_claims {start : Nat} {rest : Text} {c : Category} {order : List Category}
    (h : c.claims rest) : firstIn start rest (c :: order) = firstIn start rest [c] := by
  rw [firstIn_cons, firstIn_cons]
  cases hr : c.recognize? rest with
  | some t => rfl
  | none =>
    simp only [Category.claims, hr, Option.isSome_none, Bool.false_or] at h
    obtain ⟨o, ho, hopens⟩ := (Option.any_eq_true _ _).mp h
    have hf : c.opening?.filter (·.opens rest) = some o := by simp [ho, hopens]
    rw [hf]

theorem firstIn_eq_find? (start : Nat) (rest : Text) (order : List Category) :
    firstIn start rest order = firstIn start rest (order.find? (·.claims rest)).toList := by
  induction order with
  | nil => rfl
  | cons c order ih =>
    cases hc : c.claims rest with
    | true => simp only [List.find?_cons, hc, Option.toList_some, firstIn_cons_of_claims hc]
    | false => simp only [List.find?_cons, hc, firstIn_cons_of_not_claims hc, ih]

theorem firstIn_eq_ok_iff {start : Nat} {rest : Text} {order : List Category} {l : Lexeme} :
    firstIn start rest order = .ok l ↔
      order.find? (·.claims rest) = some l.category ∧ l.category.recognize? rest = some l.text ∧
        l.start = start ∧ l.stop = start + l.text.length := by
  constructor
  · intro h
    obtain ⟨ht, hstart, hstop⟩ := firstIn_ok h
    refine ⟨?_, ht, hstart, hstop⟩
    rw [firstIn_eq_find?] at h
    cases hf : order.find? (·.claims rest) with
    | none =>
      rw [hf] at h
      cases h
    | some c =>
      rw [hf, Option.toList_some, firstIn_cons] at h
      split at h
      · obtain rfl := Except.ok.inj h
        rfl
      · split at h <;> cases h
  · rintro ⟨hf, ht, rfl, hstop⟩
    rw [firstIn_eq_find?, hf, Option.toList_some, firstIn_cons, ht]
    simp only [← hstop]

theorem firstIn_eq_ok_iff_isLongest {start : Nat} {rest : Text} {order : List Category}
    {l : Lexeme} (ho : Category.CommentsFirst order) :
    firstIn start rest order = .ok l ↔
      l.category.IsLongest l.text rest ∧
        (l.category = .operator → ¬Category.OpensComment rest) ∧
        l.start = start ∧ l.stop = start + l.text.length := by
  rw [firstIn_eq_ok_iff, Category.find?_claims_eq_some_iff ho, Category.recognize?_eq_some_iff]
  constructor
  · rintro ⟨⟨-, hop⟩, ht, hspan⟩
    exact ⟨ht, hop, hspan⟩
  · rintro ⟨ht, hop, hspan⟩
    have hc := Category.claims_of_recognize? (Category.recognize?_eq_some_iff.mpr ht)
    exact ⟨⟨hc, hop⟩, ht, hspan⟩

end Lexeme

end ScriptLexer
