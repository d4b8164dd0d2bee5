import ScriptLexer.Proofs.DiagnosticPlaces

/-!
A comment of one line ends before any of the four line ends, but only a line feed begins a line that
is counted. So what follows the comment is on a later line exactly if a line feed stands between
them, which the comment's own line end decides where it is a line feed, alone or after a carriage
return.
-/

namespace ScriptLexer

theorem Text.take_append_slice (s : Text) {o o' : Nat} (h : o ≤ o') :
    s.take o ++ s.slice o o' = s.take o' := by
  have htake : s.take o = (s.take o').take o := by rw [List.take_take, Nat.min_eq_left h]
  rw [htake, slice, List.take_append_drop]

namespace Place

theorem line_foldl_after (u : Text) (p : Place) :
    (u.foldl after p).line = p.line + u.count '\n' := by
  induction u generalizing p with
  | nil => rfl
  | cons c u ih =>
    rw [List.foldl_cons, ih, after]
    by_cases hc : c = '\n'
    · rw [if_pos hc, hc, List.count_cons_self]
      exact Nat.add_right_comm p.line 1 _
    · rw [if_neg hc, List.count_cons_of_ne hc]

theorem line_ofOffset_of_le (s : Text) {o o' : Nat} (h : o ≤ o') :
    (ofOffset s o').line = (ofOffset s o).line + (s.slice o o').count '\n' := by
  rw [ofOffset, ← Text.take_append_slice s h, List.foldl_append, line_foldl_after, ofOffset]

theorem line_lt_iff (s : Text) {o o' : Nat} (h : o ≤ o') :
    (ofOffset s o).line < (ofOffset s o').line ↔ '\n' ∈ s.slice o o' := by
  rw [line_ofOffset_of_le s h, ← List.count_pos_iff]
  omega

end Place

theorem Category.lineFeed_notMem_of_language {t : Text} (h : lineComment.Language t) :
    '\n' ∉ t := by
  obtain ⟨body, rfl, hbody⟩ := h
  have hfeed : '\n' ∉ body := fun hmem => hbody '\n' hmem (by decide)
  simpa using hfeed

namespace Scan

def starts (ls : List Lexeme) (failure? : Option Diagnostic) : List Nat :=
  (ls.filter fun l => !l.isTrivia).map Lexeme.start ++ failure?.toList.map (·.location.start)

theorem mem_starts_iff {ls : List Lexeme} {failure? : Option Diagnostic} {x : Nat} :
    x ∈ starts ls failure? ↔
      (∃ l ∈ ls, ¬l.isTrivia ∧ l.start = x) ∨ ∃ d ∈ failure?, d.location.start = x := by
  simp [starts, and_assoc]

variable {source : Text} {ls : List Lexeme} {failure? : Option Diagnostic}

theorem starts_subset {ks : List Lexeme} (h : ks ⊆ ls) : starts ks failure? ⊆ starts ls failure? := by
  intro x hx
  rcases mem_starts_iff.mp hx with ⟨l, hl, hlx⟩ | hd
  · exact mem_starts_iff.mpr (.inl ⟨l, h hl, hlx⟩)
  · exact mem_starts_iff.mpr (.inr hd)

theorem Runs.failure_start (h : Runs Category.priority 0 source ls failure?) :
    ∀ d ∈ failure?, (∀ l ∈ ls, l.stop ≤ d.location.start) ∧
      ∃ a, source[d.location.start]? = some a ∧ ¬CharClass.isBlank a := by
  intro d hd
  obtain ⟨covered, a, r, rfl, htile, herror⟩ := h.firstIn_of_failure hd
  obtain ⟨hblank, -⟩ := Lexeme.firstIn_error_location Category.priority_commentsFirst herror
  rw [Lexeme.firstIn_error_start herror]
  refine ⟨?_, a, by simp, hblank⟩
  intro l hl
  have hbounds := htile.bounds l hl
  omega

theorem Runs.exists_not_blank (h : Runs Category.priority 0 source ls failure?) {x : Nat}
    (hx : x ∈ starts ls failure?) : ∃ a, source[x]? = some a ∧ ¬CharClass.isBlank a := by
  rcases mem_starts_iff.mp hx with ⟨l, hl, htrivia, rfl⟩ | ⟨d, hd, rfl⟩
  · have hcategory : l.category ≠ .whitespace := by
      intro hc
      exact htrivia (by rw [Lexeme.isTrivia, hc]; rfl)
    exact (h.first_of_mem hl hcategory).2.2
  · exact (h.failure_start d hd).2

theorem Runs.stop_le_of_mem_starts {front back : List Lexeme} {c : Lexeme}
    (h : Runs Category.priority 0 source (front ++ c :: back) failure?) {x : Nat}
    (hx : x ∈ starts back failure?) : c.stop ≤ x := by
  rcases mem_starts_iff.mp hx with ⟨l, hl, -, rfl⟩ | ⟨d, hd, rfl⟩
  · obtain ⟨covered, left, rfl, htile, -⟩ := h.tile
    obtain ⟨-, hback, -⟩ := List.pairwise_append.mp htile.pairwise
    exact List.rel_of_pairwise_cons hback hl
  · exact (h.failure_start d hd).1 c List.mem_append_cons_self

theorem Runs.line_stop_of_comment (h : Runs Category.priority 0 source ls failure?) {c : Lexeme}
    (hmem : c ∈ ls) (hc : c.category = .lineComment) :
    (Place.ofOffset source c.stop).line = (Place.ofOffset source c.start).line := by
  have hlanguage := h.language c hmem
  rw [hc] at hlanguage
  obtain ⟨covered, left, rfl, htile, -⟩ := h.tile
  obtain ⟨-, hlt, -⟩ := htile.bounds c hmem
  have htext := htile.text_eq_slice [] left rfl c hmem
  rw [List.nil_append] at htext
  rw [Place.line_ofOffset_of_le _ (Nat.le_of_lt hlt), ← htext,
    List.count_eq_zero_of_not_mem (Category.lineFeed_notMem_of_language hlanguage), Nat.add_zero]

theorem Runs.mem_slice_of_blanks {front back : List Lexeme} {c : Lexeme}
    (h : Runs Category.priority 0 source (front ++ c :: back) failure?) {w : Text}
    (hw : w <+: source.drop c.stop) (hblank : ∀ b ∈ w, CharClass.isBlank b) {x : Nat}
    (hx : x ∈ starts back failure?) : ∀ b ∈ w, b ∈ source.slice c.stop x := by
  have hle := h.stop_le_of_mem_starts hx
  have hlength : w.length ≤ x - c.stop := by
    by_contra hshort
    have hback : back ⊆ front ++ c :: back :=
      List.Subset.trans (List.subset_cons_self c back) (List.subset_append_right front _)
    obtain ⟨a, ha, hnot⟩ := h.exists_not_blank (starts_subset hback hx)
    obtain ⟨r, hr⟩ := hw
    have hget : (w ++ r)[x - c.stop]? = some a := by
      rwa [hr, List.getElem?_drop, Nat.add_sub_cancel' hle]
    rw [List.getElem?_append_left (Nat.lt_of_not_le hshort)] at hget
    exact hnot (hblank a (List.mem_of_getElem? hget))
  have hprefix : w <+: (source.drop c.stop).take (x - c.stop) :=
    List.prefix_take_iff.mpr ⟨hw, hlength⟩
  rw [Text.slice, List.drop_take]
  exact hprefix.subset

end Scan

theorem later_line_iff_lineFeed {source : Text} {front back : List Lexeme} {c : Lexeme}
    {failure? : Option Diagnostic}
    (hdrain : (Cursor.ofText source).drain.1 =
      (front ++ c :: back).map .ok ++ failure?.toList.map .error)
    (hc : c.category = .lineComment) :
    (∀ x ∈ Scan.starts back failure?,
      (Place.ofOffset source c.start).line < (Place.ofOffset source x).line ↔
        '\n' ∈ source.slice c.stop x) ∧
    (['\n'] <+: source.drop c.stop ∨ ['\r', '\n'] <+: source.drop c.stop →
      ∀ x ∈ Scan.starts back failure?,
        (Place.ofOffset source c.start).line < (Place.ofOffset source x).line) := by
  have hruns := Cursor.drain_eq_iff.mp hdrain
  have hcomment := hruns.line_stop_of_comment List.mem_append_cons_self hc
  have hline (x : Nat) (hx : x ∈ Scan.starts back failure?) :
      (Place.ofOffset source c.start).line < (Place.ofOffset source x).line ↔
        '\n' ∈ source.slice c.stop x := by
    rw [← hcomment]
    exact Place.line_lt_iff source (hruns.stop_le_of_mem_starts hx)
  have hreturn : CharClass.isBlank '\r' := by decide
  have hfeed : CharClass.isBlank '\n' := by decide
  refine ⟨hline, ?_⟩
  rintro (hend | hend) x hx
  · apply (hline x hx).mpr
    exact hruns.mem_slice_of_blanks hend (by simp [hfeed]) hx '\n' (by simp)
  · apply (hline x hx).mpr
    exact hruns.mem_slice_of_blanks hend (by simp [hreturn, hfeed]) hx '\n' (by simp)

theorem later_line_iff_lineFeed_carriageReturn :
    let source := "// é\r\nb #".toList
    ∃ e : Diagnostic, (Cursor.ofText source).drain.1 =
        [.ok ⟨.lineComment, "// é".toList, 0, 4⟩, .ok ⟨.whitespace, ['\r', '\n'], 4, 6⟩,
          .ok ⟨.name, ['b'], 6, 7⟩, .ok ⟨.whitespace, [' '], 7, 8⟩, .error e] ∧
      ['\r', '\n'] <+: source.drop 4 ∧
      ∀ x ∈ [6, 8], (Place.ofOffset source 0).line < (Place.ofOffset source x).line := by
  intro source
  let c : Lexeme := ⟨.lineComment, "// é".toList, 0, 4⟩
  let back : List Lexeme := [⟨.whitespace, ['\r', '\n'], 4, 6⟩, ⟨.name, ['b'], 6, 7⟩,
    ⟨.whitespace, [' '], 7, 8⟩]
  let e : Diagnostic := Lexeme.unrecognized '#' 8
  have hdrain : (Cursor.ofText source).drain.1 =
      ([] ++ c :: back).map .ok ++ (some e).toList.map .error := by
    decide +kernel
  have hend : ['\r', '\n'] <+: source.drop 4 := by decide
  exact ⟨e, hdrain, hend, (later_line_iff_lineFeed hdrain rfl).2 (.inr hend)⟩

theorem diagnostic_on_line_of_comment :
    ¬∀ (source : Text) (front back : List Lexeme) (c : Lexeme) (failure? : Option Diagnostic),
      (Cursor.ofText source).drain.1 =
        (front ++ c :: back).map .ok ++ failure?.toList.map .error →
      c.category = .lineComment → ∀ x ∈ Scan.starts back failure?,
        (Place.ofOffset source c.start).line < (Place.ofOffset source x).line := by
  intro h
  let c : Lexeme := ⟨.lineComment, "// a".toList, 0, 4⟩
  let back : List Lexeme := [⟨.whitespace, ['\u2028'], 4, 5⟩]
  let e : Diagnostic := Lexeme.unrecognized '#' 5
  have hdrain : (Cursor.ofText "// a\u2028#".toList).drain.1 =
      ([] ++ c :: back).map .ok ++ (some e).toList.map .error := by
    decide +kernel
  have hline := h "// a\u2028#".toList [] back c (some e) hdrain rfl 5 (by decide)
  exact absurd hline (by decide)

end ScriptLexer
