import ScriptLexer.Proofs.Cutting
import ScriptLexer.Proofs.Diagnosis

/-!
How far a scan looks ahead. Where a text of a category can grow within its category, it grows
within three characters: the longest wait is for the first digit of an exponent, behind its mark
and its sign. So a lexeme is settled by its own characters and the three after it. A character
that begins no lexeme settles all lexemes before it, whatever stands behind it.
-/

namespace ScriptLexer

namespace Text

theorem take_eq_of_le {s s' : Text} {m n : Nat} (h : s.take n = s'.take n) (hm : m ≤ n) :
    s.take m = s'.take m := by
  have htake := congrArg (List.take m) h
  rwa [List.take_take, List.take_take, Nat.min_eq_left hm] at htake

theorem prefix_of_take_eq {s s' u : Text} {n : Nat} (h : s.take n = s'.take n) (hu : u <+: s)
    (hn : u.length ≤ n) : u <+: s' := by
  have htake : u <+: s.take n := List.prefix_take_iff.mpr ⟨hu, hn⟩
  rw [h] at htake
  exact (List.prefix_take_iff.mp htake).1

theorem exists_append_of_take_eq {t r s : Text} {n : Nat}
    (h : (t ++ r).take (t.length + n) = s.take (t.length + n)) :
    ∃ r', s = t ++ r' ∧ r.take n = r'.take n := by
  obtain ⟨r', rfl⟩ := prefix_of_take_eq h (List.prefix_append t r) (Nat.le_add_right _ n)
  rw [List.take_length_add_append, List.take_length_add_append] at h
  exact ⟨r', rfl, List.append_cancel_left h⟩

end Text

theorem Numeral.WellFormed.exists_shorter {n : Numeral} (hn : n.WellFormed)
    (hl : 1 < n.text.length) :
    ∃ (m : Numeral) (z : Text), m.WellFormed ∧ n.text = m.text ++ z ∧ z ≠ [] ∧ z.length ≤ 3 := by
  obtain ⟨whole, fraction?, exponent?⟩ := n
  obtain ⟨hne, hwhole, hfraction, hexponent⟩ := hn
  cases exponent? with
  | some e =>
    obtain ⟨mark, sign?, digits⟩ := e
    obtain ⟨hmark, hsign, hdigits, hall⟩ := hexponent _ rfl
    obtain ⟨front, d, rfl⟩ := (List.eq_nil_or_concat' digits).resolve_left hdigits
    by_cases hfront : front = []
    · -- the only digit of an exponent takes the mark and the sign along
      refine ⟨⟨whole, fraction?, none⟩, mark :: (sign?.toList ++ [d]),
        ⟨hne, hwhole, hfraction, by simp⟩, by simp [text, NumeralExponent.text, hfront], by simp, ?_⟩
      have := Option.length_toList_le (o := sign?)
      simp only [List.length_cons, List.length_append, List.length_nil]
      omega
    · have he : NumeralExponent.WellFormed ⟨mark, sign?, front⟩ :=
        ⟨hmark, hsign, hfront, (List.forall_mem_append.mp hall).1⟩
      exact ⟨⟨whole, fraction?, some ⟨mark, sign?, front⟩⟩, [d],
        ⟨hne, hwhole, hfraction, by simpa using he⟩, by simp [text, NumeralExponent.text], by simp,
        by simp⟩
  | none =>
    cases fraction? with
    | some digits =>
      rcases List.eq_nil_or_concat' digits with rfl | ⟨front, d, rfl⟩
      · exact ⟨⟨whole, none, none⟩, ['.'], ⟨hne, hwhole, by simp, by simp⟩,
          by simp [text, fractionText], by simp, by simp⟩
      · have hdigits : ∀ c ∈ front ++ [d], c.isDigit := hfraction _ rfl
        exact ⟨⟨whole, some front, none⟩, [d],
          ⟨hne, hwhole, by simpa using (List.forall_mem_append.mp hdigits).1, by simp⟩,
          by simp [text, fractionText], by simp, by simp⟩
    | none =>
      obtain ⟨front, d, rfl⟩ := (List.eq_nil_or_concat' whole).resolve_left hne
      have hfront : front ≠ [] := by
        rintro rfl
        simp [text, fractionText] at hl
      exact ⟨⟨front, none, none⟩, [d],
        ⟨hfront, (List.forall_mem_append.mp hwhole).1, by simp, by simp⟩,
        by simp [text, fractionText], by simp, by simp⟩

theorem Numeral.exists_short_extension {t v : Text} (hv : v ≠ [])
    (h : Category.number.Language (t ++ v)) :
    ∃ u, u ≠ [] ∧ u.length ≤ 3 ∧ u <+: v ∧ Category.number.Language (t ++ u) := by
  induction hn : v.length using Nat.strongRecOn generalizing v with
  | ind k ih =>
    by_cases hk : v.length ≤ 3
    · exact ⟨v, hv, hk, List.prefix_refl v, h⟩
    · obtain ⟨n, hwell, htext⟩ := h
      have hlength : 1 < n.text.length := by
        rw [← htext, List.length_append]
        omega
      obtain ⟨m, z, hm, hz, hzne, hzlength⟩ := hwell.exists_shorter hlength
      -- more than three characters follow `t`, so the shorter numeral still goes past it
      rw [← htext] at hz
      rcases List.append_eq_append_iff.mp hz with ⟨w, hw, rfl⟩ | ⟨w, -, rfl⟩
      · rw [List.length_append] at hk hn
        have hwne : w ≠ [] := by
          rintro rfl
          simp only [List.length_nil] at hk
          omega
        have hzpos := List.length_pos_iff.mpr hzne
        obtain ⟨u, hune, hulength, hu, hlang⟩ := ih w.length (by omega) hwne ⟨m, hm, hw.symm⟩ rfl
        exact ⟨u, hune, hulength, hu.trans (List.prefix_append w z), hlang⟩
      · rw [List.length_append] at hzlength
        omega

namespace Category

theorem exists_short_extension {c : Category} {t v : Text} (ht : c.Language t) (hv : v ≠ [])
    (h : c.Language (t ++ v)) : ∃ u, u ≠ [] ∧ u.length ≤ 3 ∧ u <+: v ∧ c.Language (t ++ u) := by
  have hopen : c = whitespace ∨ c = lineComment ∨ c = name →
      ∃ u, u ≠ [] ∧ u.length ≤ 3 ∧ u <+: v ∧ c.Language (t ++ u) := by
    intro hc
    obtain ⟨a, v, rfl⟩ := List.exists_cons_of_ne_nil hv
    have hu : [a] <+: a :: v := ⟨v, rfl⟩
    exact ⟨[a], by simp, by simp, hu, language_of_shorter hc ht h hu⟩
  cases c with
  | whitespace => exact hopen (.inl rfl)
  | lineComment => exact hopen (.inr (.inl rfl))
  | name => exact hopen (.inr (.inr rfl))
  | blockComment => exact absurd (language_closed (.inl rfl) ht h) hv
  | string => exact absurd (language_closed (.inr rfl) ht h) hv
  | number => exact Numeral.exists_short_extension hv h
  | operator =>
    have hlength := Text.length_le_byteLength (t ++ v)
    have hbytes := Punctuator.byteLength_le_maxBytes _ h
    have htne : t ≠ [] := by
      rintro rfl
      exact Punctuator.nil_notMem_table ht
    have hpos := List.length_pos_iff.mpr htne
    rw [List.length_append] at hlength
    rw [Punctuator.maxBytes] at hbytes
    exact ⟨v, hv, by omega, List.prefix_refl v, h⟩

theorem isLongest_append_iff {c : Category} {t r : Text} : c.IsLongest t (t ++ r) ↔
    c.Language t ∧ ∀ v, v ≠ [] → v <+: r → ¬c.Language (t ++ v) := by
  constructor
  · rintro ⟨hlang, -, hmax⟩
    refine ⟨hlang, ?_⟩
    rintro v hv ⟨y, rfl⟩ hlong
    have hlength := hmax (t ++ v) y (List.append_assoc ..).symm hlong
    have hpos := List.length_pos_iff.mpr hv
    rw [List.length_append] at hlength
    omega
  · rintro ⟨hlang, hgrow⟩
    refine ⟨hlang, ⟨r, rfl⟩, ?_⟩
    intro u y huy hu
    rcases List.append_eq_append_iff.mp huy with ⟨v, rfl, rfl⟩ | ⟨v, rfl, -⟩
    · by_cases hv : v = []
      · simp [hv]
      · exact absurd hu (hgrow v hv (List.prefix_append v y))
    · simp

theorem IsLongest.of_take_eq {c : Category} {t r r' : Text} (h : c.IsLongest t (t ++ r))
    (hr : r.take 3 = r'.take 3) : c.IsLongest t (t ++ r') := by
  obtain ⟨hlang, hgrow⟩ := isLongest_append_iff.mp h
  apply isLongest_append_iff.mpr
  refine ⟨hlang, ?_⟩
  intro v hv hprefix hlong
  obtain ⟨u, hu, hlength, huv, hshort⟩ := exists_short_extension hlang hv hlong
  exact hgrow u hu (Text.prefix_of_take_eq hr.symm (huv.trans hprefix) hlength) hshort

theorem IsLongest.append_of_mem {c : Category} {t r : Text} {a : Char}
    (h : c.IsLongest t (t ++ r)) (hmem : a ∈ r) (ha : ¬IsTokenChar a) (x : Text) :
    c.IsLongest t (t ++ (r ++ x)) := by
  obtain ⟨hlang, hgrow⟩ := isLongest_append_iff.mp h
  apply isLongest_append_iff.mpr
  refine ⟨hlang, ?_⟩
  intro v hv hprefix hlong
  rcases List.prefix_or_prefix_of_prefix hprefix (List.prefix_append r x) with hvr | ⟨w, rfl⟩
  · exact hgrow v hv hvr hlong
  · -- a text that goes past the character could also have ended before `x`
    have hc := eq_of_language_append hlang hlong (List.mem_append_left w hmem) ha
    have hr : r ≠ [] := List.ne_nil_of_mem hmem
    exact hgrow r hr (List.prefix_refl r)
      (language_of_shorter (by tauto) hlang hlong (List.prefix_append r w))

theorem OpensComment.of_take_eq {s s' : Text} {n : Nat} (hn : 2 ≤ n)
    (hs : s.take n = s'.take n) (h : OpensComment s) : OpensComment s' := by
  obtain ⟨r, rfl | rfl⟩ := h
  · obtain ⟨r', rfl⟩ := Text.prefix_of_take_eq hs ⟨r, rfl⟩ (u := ['/', '/']) hn
    exact ⟨r', .inl rfl⟩
  · obtain ⟨r', rfl⟩ := Text.prefix_of_take_eq hs ⟨r, rfl⟩ (u := ['/', '*']) hn
    exact ⟨r', .inr rfl⟩

theorem BeginsNothing.not_isTokenChar {a : Char} (h : BeginsNothing a) : ¬IsTokenChar a := by
  obtain ⟨-, hname, -, hmark⟩ := h
  rintro (ha | ha)
  · exact hname ha
  · exact hmark [a] ha rfl

end Category

namespace Lexeme

theorem firstIn_of_take_eq {start : Nat} {r r' : Text} {order : List Category} {l : Lexeme}
    (ho : Category.CommentsFirst order) (h : firstIn start (l.text ++ r) order = .ok l)
    (hr : r.take 3 = r'.take 3) : firstIn start (l.text ++ r') order = .ok l := by
  obtain ⟨hlong, hop, hspan⟩ := (firstIn_eq_ok_iff_isLongest ho).mp h
  apply (firstIn_eq_ok_iff_isLongest ho).mpr
  refine ⟨hlong.of_take_eq hr, ?_, hspan⟩
  intro hc hopens
  have htake : (l.text ++ r').take (l.text.length + 3) = (l.text ++ r).take (l.text.length + 3) := by
    rw [List.take_length_add_append, List.take_length_add_append, hr]
  exact hop hc (hopens.of_take_eq (by omega) htake)

theorem firstIn_append_of_mem {start : Nat} {r : Text} {order : List Category} {l : Lexeme}
    {a : Char} (ho : Category.CommentsFirst order)
    (h : firstIn start (l.text ++ r) order = .ok l) (hmem : a ∈ r)
    (ha : ¬Category.IsTokenChar a) (x : Text) :
    firstIn start (l.text ++ (r ++ x)) order = .ok l := by
  obtain ⟨hlong, hop, hspan⟩ := (firstIn_eq_ok_iff_isLongest ho).mp h
  apply (firstIn_eq_ok_iff_isLongest ho).mpr
  refine ⟨hlong.append_of_mem hmem ha x, ?_, hspan⟩
  intro hc hopens
  have hlength : 2 ≤ (l.text ++ r).length := by
    have htext := List.length_pos_iff.mpr (firstIn_split h).1
    have hr := List.length_pos_of_mem hmem
    rw [List.length_append]
    omega
  rw [← List.append_assoc] at hopens
  exact hop hc (hopens.of_take_eq (Nat.le_refl 2) (List.take_append_of_le_length hlength))

theorem firstIn_unrecognized {start : Nat} {rest : Text} {order : List Category} {d : Diagnostic}
    (ho : Category.CommentsFirst order) (hr : rest ≠ [])
    (h : firstIn start rest order = .error d) (hk : d.kind = .unrecognizedCharacter) :
    (∃ a ∈ rest, ¬Category.IsTokenChar a) ∧ ∀ x, firstIn start (rest ++ x) order = .error d := by
  obtain ⟨a, r, rfl⟩ := List.exists_cons_of_ne_nil hr
  rcases (firstIn_eq_error_iff_unclosed ho).mp h with ⟨-, rfl⟩ | ⟨-, rfl⟩ | ⟨ha, rfl⟩
  · cases hk
  · cases hk
  · refine ⟨⟨a, List.mem_cons_self, ha.not_isTokenChar⟩, ?_⟩
    intro x
    exact (firstIn_eq_error_iff_unclosed ho).mpr (.inr (.inr ⟨ha, rfl⟩))

end Lexeme

namespace Scan

theorem Runs.of_take_eq {order : List Category} {start : Nat} {rest rest' : Text}
    {front back : List Lexeme} {l : Lexeme} {failure? : Option Diagnostic}
    (ho : Category.CommentsFirst order) (h : Runs order start rest (front ++ l :: back) failure?)
    (hrest : rest.take (l.stop - start + 3) = rest'.take (l.stop - start + 3)) :
    ∃ back' failure?', Runs order start rest' (front ++ l :: back') failure?' := by
  induction front generalizing start rest rest' with
  | nil =>
    cases h with
    | @lexeme _ r _ _ hl _ =>
      obtain ⟨-, -, hstop⟩ := Lexeme.firstIn_ok hl
      rw [hstop, Nat.add_sub_cancel_left] at hrest
      obtain ⟨r', rfl, hr⟩ := Text.exists_append_of_take_eq hrest
      exact ⟨_, _, .lexeme (Lexeme.firstIn_of_take_eq ho hl hr) (runs_fromIn order l.stop r')⟩
  | cons k front ih =>
    cases h with
    | @lexeme _ r _ _ hk htail =>
      obtain ⟨-, -, hstop⟩ := Lexeme.firstIn_ok hk
      have hlt := htail.start_lt_stop l (by simp)
      have hsplit : l.stop - k.start + 3 = k.text.length + (l.stop - k.stop + 3) := by omega
      rw [hsplit] at hrest
      obtain ⟨r', rfl, hr⟩ := Text.exists_append_of_take_eq hrest
      obtain ⟨back', failure?', hruns⟩ := ih htail hr
      have hnear : r.take 3 = r'.take 3 := Text.take_eq_of_le hr (by omega)
      exact ⟨back', failure?', .lexeme (Lexeme.firstIn_of_take_eq ho hk hnear) hruns⟩

theorem Runs.append_of_unrecognized {order : List Category} {start : Nat} {rest : Text}
    {ls : List Lexeme} {failure? : Option Diagnostic} {d : Diagnostic}
    (ho : Category.CommentsFirst order) (h : Runs order start rest ls failure?)
    (hd : failure? = some d) (hk : d.kind = .unrecognizedCharacter) (x : Text) :
    (∃ a ∈ rest, ¬Category.IsTokenChar a) ∧ Runs order start (rest ++ x) ls failure? := by
  induction h with
  | done => cases hd
  | stopped hr herror =>
    obtain rfl := Option.some.inj hd
    obtain ⟨ha, happend⟩ := Lexeme.firstIn_unrecognized ho hr herror hk
    exact ⟨ha, .stopped (by simp [hr]) (happend x)⟩
  | @lexeme l rest ls failure? hl _ ih =>
    obtain ⟨⟨a, hmem, ha⟩, htail⟩ := ih hd
    refine ⟨⟨a, List.mem_append_right l.text hmem, ha⟩, ?_⟩
    rw [List.append_assoc]
    exact .lexeme (Lexeme.firstIn_append_of_mem ho hl hmem ha x) htail

end Scan

theorem Cursor.drain_lookahead (source : Text) :
    ∃ (ls : List Lexeme) (failure? : Option Diagnostic),
      (ofText source).drain.1 = ls.map .ok ++ failure?.toList.map .error ∧
      (∀ front l back, ls = front ++ l :: back → ∀ other : Text,
        source.take (l.stop + 3) = other.take (l.stop + 3) →
          ∃ rest, (ofText other).drain.1 = (front ++ [l]).map .ok ++ rest) ∧
      ∀ d ∈ failure?, d.kind = .unrecognizedCharacter →
        ∀ x, (ofText (source ++ x)).drain.1 = (ofText source).drain.1 := by
  have ho := Category.priority_commentsFirst
  obtain ⟨ls, failure?, hdrain, hruns⟩ := exists_drain_eq source
  refine ⟨ls, failure?, hdrain, ?_, ?_⟩
  · rintro front l back rfl other htake
    obtain ⟨back', failure?', hother⟩ := hruns.of_take_eq ho htake
    exact ⟨back'.map .ok ++ failure?'.toList.map .error, by
      rw [drain_eq_iff.mpr hother]
      simp⟩
  · intro d hd hk x
    rw [hdrain]
    exact drain_eq_iff.mpr (hruns.append_of_unrecognized ho hd hk x).2

end ScriptLexer
