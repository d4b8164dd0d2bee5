import ScriptLexer.Proofs.Dispatch

namespace ScriptLexer

namespace Category

theorem not_isBlank_of_begins {c : Category} {a : Char} {r : Text} (h : c.Begins (a :: r))
    (hc : c ≠ whitespace) : ¬CharClass.isBlank a := by
  intro ha
  have hfirst : ofFirst a = whitespace := by simp [ofFirst, ha]
  obtain ⟨b, s, hs, hcase⟩ := ofFirst_of_begins h
  obtain ⟨rfl, rfl⟩ := List.cons.inj hs
  rw [hfirst] at hcase
  rcases hcase with hcase | ⟨hcase, -⟩
  · exact hc hcase.symm
  · cases hcase

end Category

theorem CharClass.isNamePart_iff {a : Char} : isNamePart a ↔ isNameStart a ∨ a.isDigit := by
  simp only [isNamePart, isNameStart, Char.isAlphanum, Bool.or_eq_true]
  tauto

def Category.IsTokenChar (a : Char) : Prop :=
  CharClass.isNamePart a ∨ [a] ∈ Punctuator.table

theorem Category.ofFirst_of_isTokenChar {a : Char} (h : IsTokenChar a) :
    ofFirst a = name ∨ ofFirst a = number ∨ ofFirst a = operator := by
  rcases h with h | h
  · rcases CharClass.isNamePart_iff.mp h with h | h
    · exact .inl (ofFirst_nameStart h)
    · exact .inr (.inl (ofFirst_digit h))
  · exact .inr (.inr (ofFirst_operator h))

theorem Category.not_isBlank_of_isTokenChar {a : Char} (h : IsTokenChar a) :
    ¬CharClass.isBlank a := by
  intro ha
  have hfirst : ofFirst a = whitespace := by simp [ofFirst, ha]
  have hcase := ofFirst_of_isTokenChar h
  simp [hfirst] at hcase

theorem NumeralExponent.isTokenChar_of_mem_text {e : NumeralExponent} (he : e.WellFormed) :
    ∀ c ∈ e.text, Category.IsTokenChar c := by
  obtain ⟨mark, sign?, digits⟩ := e
  obtain ⟨hmark, hsign, -, hdigits⟩ := he
  intro c hc
  rcases List.mem_cons.mp hc with rfl | hc
  · left
    rcases hmark with rfl | rfl <;> decide
  · rcases List.mem_append.mp hc with hc | hc
    · right
      rcases hsign with rfl | rfl | rfl
      · cases hc
      · rw [List.mem_singleton.mp hc]
        decide
      · rw [List.mem_singleton.mp hc]
        decide
    · exact .inl (CharClass.isNamePart_iff.mpr (.inr (hdigits c hc)))

theorem Numeral.isTokenChar_of_mem_text {n : Numeral} (hn : n.WellFormed) :
    ∀ c ∈ n.text, Category.IsTokenChar c := by
  obtain ⟨whole, fraction?, exponent?⟩ := n
  obtain ⟨-, hwhole, hfraction, hexponent⟩ := hn
  intro c hc
  simp only [text, List.mem_append] at hc
  rcases hc with hc | hc | hc
  · exact .inl (CharClass.isNamePart_iff.mpr (.inr (hwhole c hc)))
  · cases fraction? with
    | none => cases hc
    | some digits =>
      rcases List.mem_cons.mp hc with rfl | hc
      · exact .inr (by decide)
      · exact .inl (CharClass.isNamePart_iff.mpr (.inr (hfraction digits rfl c hc)))
  · cases exponent? with
    | none => cases hc
    | some e => exact NumeralExponent.isTokenChar_of_mem_text (hexponent e rfl) c hc

theorem Punctuator.isTokenChar_of_mem_table :
    ∀ mark ∈ table, ∀ c ∈ mark, Category.IsTokenChar c := by
  have hall : table.all (·.all fun c => [c] ∈ table) := by decide +kernel
  intro mark hmark c hc
  have hc := List.all_eq_true.mp (List.all_eq_true.mp hall mark hmark) c hc
  exact .inr (of_decide_eq_true hc)

theorem Category.isTokenChar_of_mem {c : Category} {t : Text}
    (hc : c = name ∨ c = number ∨ c = operator) (h : c.Language t) :
    ∀ a ∈ t, IsTokenChar a := by
  rcases hc with rfl | rfl | rfl
  · obtain ⟨b, s, rfl, hb, hs⟩ := h
    intro a ha
    rcases List.mem_cons.mp ha with rfl | ha
    · exact .inl (CharClass.isNamePart_of_isNameStart hb)
    · exact .inl (hs a ha)
  · obtain ⟨n, hn, rfl⟩ := h
    exact Numeral.isTokenChar_of_mem_text hn
  · exact Punctuator.isTokenChar_of_mem_table t h

namespace Category

def absorbs : Category → Char → Bool
  | whitespace, _ => true
  | lineComment, a => !CharClass.isLineEnd a
  | _, _ => false

theorem absorbs_iff {c : Category} {a : Char} :
    c.absorbs a ↔ c = whitespace ∨ c = lineComment ∧ ¬CharClass.isLineEnd a := by
  cases c <;> simp [absorbs]

theorem recognize?_closed {c : Category} {t : Text} (hc : c = blockComment ∨ c = string)
    (ht : c.Language t) (x : Text) : c.recognize? (t ++ x) = some t := by
  rcases hc with rfl | rfl
  · exact Trivia.blockComment?_append ht x
  · exact Quoted.literal?_append ht x

theorem language_closed {c : Category} {t x : Text} (hc : c = blockComment ∨ c = string)
    (ht : c.Language t) (hx : c.Language (t ++ x)) : x = [] := by
  have hshort := recognize?_closed hc ht x
  have hlong := recognize?_closed hc hx []
  rw [List.append_nil, hshort] at hlong
  simpa using Option.some.inj hlong

theorem eq_of_language_append {c : Category} {t v : Text} {a : Char} (ht : c.Language t)
    (h : c.Language (t ++ v)) (hmem : a ∈ v) (ha : ¬IsTokenChar a) :
    c = whitespace ∨ c = lineComment := by
  have hforeign : ¬(c = name ∨ c = number ∨ c = operator) := by
    intro hc
    exact ha (isTokenChar_of_mem hc h a (List.mem_append_right t hmem))
  have hclosed : ¬(c = blockComment ∨ c = string) := by
    intro hc
    rw [language_closed hc ht h] at hmem
    cases hmem
  cases c <;> simp_all

theorem language_of_shorter {c : Category} {t u v : Text}
    (hc : c = whitespace ∨ c = lineComment ∨ c = name) (ht : c.Language t)
    (h : c.Language (t ++ v)) (hu : u <+: v) : c.Language (t ++ u) := by
  have hmem (s : Text) : ∀ a ∈ s ++ u, a ∈ s ++ v :=
    ((List.prefix_append_right_inj s).mpr hu).subset
  rcases hc with rfl | rfl | rfl
  · refine ⟨?_, fun a ha => h.2 a (hmem t a ha)⟩
    intro hnil
    exact ht.1 (List.append_eq_nil_iff.mp hnil).1
  · obtain ⟨body, rfl, -⟩ := ht
    obtain ⟨long, hlong, hall⟩ := h
    obtain rfl : body ++ v = long := by simpa using hlong
    exact ⟨body ++ u, rfl, fun a ha => hall a (hmem body a ha)⟩
  · obtain ⟨b, r, rfl, hb, -⟩ := ht
    obtain ⟨b', long, hlong, -, hall⟩ := h
    obtain ⟨rfl, rfl⟩ := List.cons.inj hlong
    exact ⟨b, r ++ u, rfl, hb, fun a ha => hall a (hmem r a ha)⟩

theorem language_of_append_blank {c : Category} {t s y : Text} {a : Char} (ht : c.Language t)
    (h : c.Language (t ++ (s ++ a :: y))) (ha : CharClass.isBlank a) :
    c.absorbs a ∧ c.Language (t ++ s) := by
  have hforeign : ¬IsTokenChar a := fun hchar => not_isBlank_of_isTokenChar hchar ha
  have hc := eq_of_language_append ht h (by simp) hforeign
  refine ⟨?_, language_of_shorter (by tauto) ht h (List.prefix_append s _)⟩
  rcases hc with rfl | rfl
  · rfl
  · obtain ⟨body, rfl, -⟩ := ht
    obtain ⟨long, hlong, hall⟩ := h
    obtain rfl : body ++ (s ++ a :: y) = long := by simpa using hlong
    simpa [absorbs] using hall a (by simp)

theorem IsLongest.append_blank {c : Category} {t r x : Text} (h : c.IsLongest t (t ++ r))
    (hx : ∀ a ∈ x.head?, CharClass.isBlank a) (habs : ∀ a ∈ x.head?, c.absorbs a → r ≠ []) :
    c.IsLongest t (t ++ (r ++ x)) := by
  obtain ⟨hlang, -, hmax⟩ := h
  refine ⟨hlang, ⟨r ++ x, rfl⟩, ?_⟩
  intro u v huv hu
  rw [← List.append_assoc] at huv
  rcases List.append_eq_append_iff.mp huv with ⟨y, rfl, rfl⟩ | ⟨y, hy, rfl⟩
  · cases y with
    | nil => exact hmax _ [] (by simp) hu
    | cons a y =>
      -- a text that reaches the blank shows that `t` did not end where the category ended
      rw [List.append_assoc] at hu
      obtain ⟨ha, hlong⟩ := language_of_append_blank hlang hu (hx a rfl)
      have hlength := hmax (t ++ r) [] (by simp) hlong
      rw [List.length_append] at hlength
      have hr : r = [] := List.length_eq_zero_iff.mp (by omega)
      exact absurd hr (habs a rfl ha)
  · exact hmax u y hy hu

theorem opensComment_of_append_blank {s x : Text} (hs : s ≠ [])
    (hx : ∀ a ∈ x.head?, CharClass.isBlank a) (h : OpensComment (s ++ x)) : OpensComment s := by
  obtain ⟨a, s, rfl⟩ := List.exists_cons_of_ne_nil hs
  cases s with
  | nil =>
    obtain ⟨r, hr | hr⟩ := h
    · obtain ⟨rfl, rfl⟩ := List.cons.inj hr
      exact absurd (hx '/' rfl) (by decide)
    · obtain ⟨rfl, rfl⟩ := List.cons.inj hr
      exact absurd (hx '*' rfl) (by decide)
  | cons b s =>
    obtain ⟨r, hr | hr⟩ := h
    · simp only [List.cons_append, List.cons.injEq] at hr
      obtain ⟨rfl, rfl, -⟩ := hr
      exact ⟨s, .inl rfl⟩
    · simp only [List.cons_append, List.cons.injEq] at hr
      obtain ⟨rfl, rfl, -⟩ := hr
      exact ⟨s, .inr rfl⟩

end Category

theorem Lexeme.firstIn_append_blank {start : Nat} {r x : Text} {order : List Category}
    {l : Lexeme} (ho : Category.CommentsFirst order)
    (h : firstIn start (l.text ++ r) order = .ok l) (hx : ∀ a ∈ x.head?, CharClass.isBlank a)
    (habs : ∀ a ∈ x.head?, l.category.absorbs a → r ≠ []) :
    firstIn start (l.text ++ (r ++ x)) order = .ok l := by
  obtain ⟨hlong, hop, hspan⟩ := (firstIn_eq_ok_iff_isLongest ho).mp h
  apply (firstIn_eq_ok_iff_isLongest ho).mpr
  refine ⟨hlong.append_blank hx habs, ?_, hspan⟩
  intro hc hopens
  rw [← List.append_assoc] at hopens
  exact hop hc (Category.opensComment_of_append_blank (ne_nil_of_firstIn h) hx hopens)

end ScriptLexer
