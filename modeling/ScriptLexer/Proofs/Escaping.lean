import ScriptLexer.Text.Html

namespace ScriptLexer

theorem Text.replaceChar_cons_self (c : Char) (r s : Text) :
    replaceChar c r (c :: s) = r ++ replaceChar c r s := by
  simp [replaceChar]

theorem Text.replaceChar_cons_of_ne {c d : Char} (h : d ≠ c) (r s : Text) :
    replaceChar c r (d :: s) = d :: replaceChar c r s := by
  simp [replaceChar, h]

namespace Html

def reference (c : Char) : Text :=
  if c = '&' then ['&', 'a', 'm', 'p', ';']
  else if c = '<' then ['&', 'l', 't', ';']
  else [c]

theorem escape_singleton (c : Char) : escape [c] = reference c := by
  unfold reference
  by_cases hamp : c = '&'
  · rw [hamp]
    rfl
  · by_cases hangle : c = '<'
    · rw [hangle]
      rfl
    · rw [if_neg hamp, if_neg hangle, escape, Text.replaceChar_cons_of_ne hamp]
      exact Text.replaceChar_cons_of_ne hangle _ _

theorem escape_eq_flatMap (s : Text) : escape s = s.flatMap reference := by
  induction s with
  | nil => rfl
  | cons c s ih =>
    rw [List.flatMap_cons, ← escape_singleton, ← ih, ← escape_append, List.singleton_append]

structure IsInert (s : Text) : Prop where
  angle_notMem : '<' ∉ s
  begins_reference : ∀ u v, s = u ++ '&' :: v →
    ['a', 'm', 'p', ';'] <+: v ∨ ['l', 't', ';'] <+: v

theorem isInert_of_notMem {s : Text} (hangle : '<' ∉ s) (hamp : '&' ∉ s) : IsInert s := by
  refine ⟨hangle, ?_⟩
  rintro u v rfl
  exact absurd List.mem_append_cons_self hamp

theorem isInert_cons_ampersand {s : Text} (hangle : '<' ∉ s) (hamp : '&' ∉ s)
    (hs : ['a', 'm', 'p', ';'] <+: s ∨ ['l', 't', ';'] <+: s) : IsInert ('&' :: s) := by
  refine ⟨List.not_mem_cons_of_ne_of_not_mem (by decide) hangle, ?_⟩
  intro u v h
  cases u with
  | nil => rwa [← (List.cons.inj h).2]
  | cons a u => exact absurd ((List.cons.inj h).2 ▸ List.mem_append_cons_self) hamp

theorem isInert_reference (c : Char) : IsInert (reference c) := by
  unfold reference
  split
  · exact isInert_cons_ampersand (by decide) (by decide) (.inl (List.prefix_refl _))
  · split
    · exact isInert_cons_ampersand (by decide) (by decide) (.inr (List.prefix_refl _))
    · rename_i hamp hangle
      apply isInert_of_notMem
      · simpa using Ne.symm hangle
      · simpa using Ne.symm hamp

theorem IsInert.append {s t : Text} (hs : IsInert s) (ht : IsInert t) : IsInert (s ++ t) := by
  refine ⟨List.not_mem_append hs.angle_notMem ht.angle_notMem, ?_⟩
  intro u v h
  rcases List.append_eq_append_iff.mp h with ⟨as, rfl, rfl⟩ | ⟨bs, rfl, he⟩
  · exact ht.begins_reference as v rfl
  · cases bs with
    | nil => exact ht.begins_reference [] v he.symm
    | cons b bs =>
      -- the ampersand is in the first text, and so is the whole reference
      obtain ⟨rfl, rfl⟩ := List.cons.inj he
      have hprefix : bs <+: bs ++ t := List.prefix_append bs t
      exact (hs.begins_reference u bs rfl).imp (·.trans hprefix) (·.trans hprefix)

theorem isInert_escape (s : Text) : IsInert (escape s) := by
  rw [escape_eq_flatMap]
  induction s with
  | nil => exact isInert_of_notMem List.not_mem_nil List.not_mem_nil
  | cons c s ih =>
    rw [List.flatMap_cons]
    exact (isInert_reference c).append ih

theorem restoreAngle_cons_of_ne {c : Char} (h : c ≠ '&') (s : Text) :
    restoreAngle (c :: s) = c :: restoreAngle s := by
  rw [restoreAngle.eq_2]
  rintro s rfl
  exact absurd rfl h

theorem restoreAmpersand_cons_of_ne {c : Char} (h : c ≠ '&') (s : Text) :
    restoreAmpersand (c :: s) = c :: restoreAmpersand s := by
  rw [restoreAmpersand.eq_2]
  rintro s rfl
  exact absurd rfl h

theorem restoreAngle_escape (s : Text) :
    restoreAngle (escape s) = Text.replaceChar '&' ['&', 'a', 'm', 'p', ';'] s := by
  induction s with
  | nil => rfl
  | cons c s ih =>
    rw [escape] at ih ⊢
    by_cases hamp : c = '&'
    · subst hamp
      simp [Text.replaceChar_cons_self, Text.replaceChar_cons_of_ne, restoreAngle, ih]
    · rw [Text.replaceChar_cons_of_ne hamp]
      by_cases hangle : c = '<'
      · subst hangle
        simp [Text.replaceChar_cons_self, restoreAngle, ih]
      · rw [Text.replaceChar_cons_of_ne hangle, restoreAngle_cons_of_ne hamp, ih]

theorem restoreAmpersand_replaceChar (s : Text) :
    restoreAmpersand (Text.replaceChar '&' ['&', 'a', 'm', 'p', ';'] s) = s := by
  induction s with
  | nil => rfl
  | cons c s ih =>
    by_cases hamp : c = '&'
    · subst hamp
      simp [Text.replaceChar_cons_self, restoreAmpersand, ih]
    · rw [Text.replaceChar_cons_of_ne hamp, restoreAmpersand_cons_of_ne hamp, ih]

theorem unescape_escape (s : Text) : unescape (escape s) = s := by
  rw [unescape, restoreAngle_escape, restoreAmpersand_replaceChar]

theorem escape_injective {s t : Text} (h : escape s = escape t) : s = t := by
  rw [← unescape_escape s, h, unescape_escape]

theorem escape_faithful :
    (∀ s, escape s = s.flatMap reference) ∧
    (∀ s, '<' ∉ escape s ∧ ∀ u v, escape s = u ++ '&' :: v →
      ['a', 'm', 'p', ';'] <+: v ∨ ['l', 't', ';'] <+: v) ∧
    (∀ s, restoreAmpersand (restoreAngle (escape s)) = s) ∧
    (∀ s t, escape s = escape t → s = t) ∧
    ∀ s t, escape (s ++ t) = escape s ++ escape t := by
  refine ⟨escape_eq_flatMap, ?_, unescape_escape, ?_, escape_append⟩
  · intro s
    obtain ⟨hangle, hreference⟩ := isInert_escape s
    exact ⟨hangle, hreference⟩
  · intro s t h
    exact escape_injective h

end Html

end ScriptLexer
