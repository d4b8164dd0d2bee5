import ScriptLexer.Proofs.Cutting
import ScriptLexer.Proofs.Joining

/-!
Blanks written between two lexemes of a source. A lexeme of whitespace before them takes them in,
a comment to the end of its line takes those before the next line end, and any other lexeme ends
where it ended. So the tokens and the diagnostic behind the blanks move, and nothing else changes.
-/

namespace ScriptLexer

def Token.shiftFrom (k n : Nat) (t : Token) : Token := if k ≤ t.start then t.shift n else t

def Diagnostic.shiftFrom (k n : Nat) (d : Diagnostic) : Diagnostic :=
  if k ≤ d.location.start then d.shift n else d

theorem Token.shiftFrom_of_lt {k : Nat} {t : Token} (h : t.start < k) (n : Nat) :
    t.shiftFrom k n = t :=
  if_neg (by omega)

theorem Diagnostic.shiftFrom_of_lt {k : Nat} {d : Diagnostic} (h : d.location.start < k) (n : Nat) :
    d.shiftFrom k n = d :=
  if_neg (by omega)

theorem Token.shiftFrom_shift (k n : Nat) (t : Token) :
    (t.shift k).shiftFrom k n = (t.shift k).shift n :=
  if_pos (Nat.le_add_left k t.start)

theorem Diagnostic.shiftFrom_shift (k n : Nat) (d : Diagnostic) :
    (d.shift k).shiftFrom k n = (d.shift k).shift n :=
  if_pos (Nat.le_add_left k d.location.start)

def moveFrom (k n : Nat) (outcome : Except Diagnostic (List Token)) :
    Except Diagnostic (List Token) :=
  (outcome.map (List.map (Token.shiftFrom k n))).mapError (Diagnostic.shiftFrom k n)

theorem tokenizeFrom_add (k n : Nat) (rest : Text) :
    tokenizeFrom (k + n) rest = moveFrom k n (tokenizeFrom k rest) := by
  have hk := tokenizeFrom_shift k 0 rest
  rw [Nat.zero_add] at hk
  rw [tokenizeFrom_shift n k rest, hk]
  cases tokenizeFrom 0 rest with
  | error d => exact congrArg Except.error (Diagnostic.shiftFrom_shift k n d).symm
  | ok ts =>
    apply congrArg Except.ok
    rw [List.map_map, List.map_map]
    apply List.map_congr_left
    intro t _
    exact (Token.shiftFrom_shift k n t).symm

namespace Lexeme

def prepend (l : Lexeme) (tail : Except Diagnostic (List Token)) :
    Except Diagnostic (List Token) :=
  match l.value? with
  | .error d => .error d
  | .ok none => tail
  | .ok (some v) => tail.map (⟨v, l.start, l.stop⟩ :: ·)

theorem value?_error_start {l : Lexeme} {d : Diagnostic} (h : l.value? = .error d) :
    d.location.start = l.start := by
  obtain ⟨category, text, start, stop⟩ := l
  cases category with
  | number =>
    simp only [value?] at h
    split at h
    · cases h
    · obtain rfl := Except.error.inj h
      rfl
  | _ => cases h

theorem prepend_moveFrom {l : Lexeme} {k : Nat} (hl : l.start < k) (n : Nat)
    (tail : Except Diagnostic (List Token)) :
    l.prepend (moveFrom k n tail) = moveFrom k n (l.prepend tail) := by
  rw [prepend, prepend]
  cases hv : l.value? with
  | error d =>
    have hd : d.location.start < k := by rwa [value?_error_start hv]
    exact congrArg Except.error (Diagnostic.shiftFrom_of_lt hd n).symm
  | ok v? =>
    cases v? with
    | none => rfl
    | some v =>
      have ht : Token.shiftFrom k n ⟨v, l.start, l.stop⟩ = ⟨v, l.start, l.stop⟩ :=
        Token.shiftFrom_of_lt hl n
      cases tail with
      | error d => rfl
      | ok ts => exact congrArg (fun t => Except.ok (t :: ts.map (Token.shiftFrom k n))) ht.symm

theorem foldr_prepend_moveFrom {ls : List Lexeme} {k : Nat} (h : ∀ l ∈ ls, l.start < k) (n : Nat)
    (tail : Except Diagnostic (List Token)) :
    ls.foldr prepend (moveFrom k n tail) = moveFrom k n (ls.foldr prepend tail) := by
  induction ls with
  | nil => rfl
  | cons l ls ih =>
    obtain ⟨hl, hls⟩ := List.forall_mem_cons.mp h
    rw [List.foldr_cons, List.foldr_cons, ih hls, prepend_moveFrom hl]

theorem firstIn_comment_blanks {l : Lexeme} {rest w : Text} {order : List Category}
    (ho : Category.CommentsFirst order) (hc : l.category = .lineComment)
    (h : firstIn l.start (l.text ++ rest) order = .ok l) :
    ∃ u v, w = u ++ v ∧
      firstIn l.start (l.text ++ u ++ (v ++ rest)) order =
        .ok ⟨.lineComment, l.text ++ u, l.start, l.stop + u.length⟩ := by
  obtain ⟨hr, -, hstop⟩ := firstIn_ok h
  have hlang := Category.recognize?_language hr
  rw [hc] at hr hlang
  -- the comment stopped, so a line end or nothing follows it
  have hrest : rest.takeWhile (fun c => !CharClass.isLineEnd c) = [] := by
    have hread := Option.some.inj ((Trivia.lineComment?_append hlang rest).symm.trans hr)
    simpa using hread
  let u := w.takeWhile fun c => !CharClass.isLineEnd c
  let v := w.dropWhile fun c => !CharClass.isLineEnd c
  have huv : w = u ++ v := List.takeWhile_append_dropWhile.symm
  have htake : (w ++ rest).takeWhile (fun c => !CharClass.isLineEnd c) = u := by
    rw [List.takeWhile_append, hrest, List.append_nil]
    split
    · rename_i hlength
      exact ((List.takeWhile_prefix _).eq_of_length hlength).symm
    · rfl
  have hread : Category.lineComment.recognize? (l.text ++ u ++ (v ++ rest)) =
      some (l.text ++ u) := by
    have happend := Trivia.lineComment?_append hlang (w ++ rest)
    rw [htake] at happend
    rwa [Category.recognize?, List.append_assoc, ← List.append_assoc u, ← huv]
  refine ⟨u, v, huv, ?_⟩
  apply (firstIn_eq_ok_iff_isLongest ho).mpr
  refine ⟨Category.recognize?_eq_some_iff.mp hread, by simp, rfl, ?_⟩
  rw [List.length_append, hstop, Nat.add_assoc]

theorem firstIn_insert {l : Lexeme} {s t w : Text} {order : List Category}
    (ho : Category.CommentsFirst order) (hs : s ≠ []) (hw : ∀ c ∈ w, CharClass.isBlank c)
    (h : firstIn l.start (l.text ++ (s ++ t)) order = .ok l) :
    firstIn l.start (l.text ++ (s ++ (w ++ t))) order = .ok l := by
  cases w with
  | nil => exact h
  | cons a w =>
    apply firstIn_append_blank ho (firstIn_of_append ho h)
    · intro c hc
      obtain rfl : a = c := by simpa using hc
      exact hw a List.mem_cons_self
    · intro c _ _
      exact hs

end Lexeme

theorem tokenizeFrom_lexeme_blanks {l : Lexeme} {w rest : Text}
    (h : Lexeme.firstIn l.start (l.text ++ rest) Category.priority = .ok l)
    (hw : ∀ c ∈ w, CharClass.isBlank c) :
    tokenizeFrom l.start (l.text ++ (w ++ rest)) =
      l.prepend (tokenizeFrom (l.stop + w.length) rest) := by
  have ho := Category.priority_commentsFirst
  obtain ⟨hr, -, hstop⟩ := Lexeme.firstIn_ok h
  by_cases hwhite : l.category = .whitespace
  · have hblank := Category.recognize?_language hr
    rw [hwhite] at hblank
    rw [tokenizeFrom_blanks hblank.2, tokenizeFrom_blanks hw, ← hstop]
    simp only [Lexeme.prepend, Lexeme.value?, hwhite]
  · by_cases hline : l.category = .lineComment
    · obtain ⟨u, v, rfl, hl⟩ := Lexeme.firstIn_comment_blanks (w := w) ho hline h
      have hv : ∀ c ∈ v, CharClass.isBlank c := fun c hc => hw c (List.mem_append_right u hc)
      have hcomment := tokenizeFrom_lexeme
        (l := ⟨.lineComment, l.text ++ u, l.start, l.stop + u.length⟩) hl
      rw [List.append_assoc, ← List.append_assoc l.text, hcomment]
      simp only [Lexeme.prepend, Lexeme.value?, hline]
      rw [tokenizeFrom_blanks hv, List.length_append, Nat.add_assoc]
    · cases w with
      | nil => exact tokenizeFrom_lexeme h
      | cons a w =>
        have halone : Lexeme.firstIn l.start (l.text ++ []) Category.priority = .ok l :=
          Lexeme.firstIn_of_append (x := rest) ho h
        have habs : ∀ c ∈ (a :: w ++ rest).head?, l.category.absorbs c → ([] : Text) ≠ [] := by
          intro c _ hc
          rcases Category.absorbs_iff.mp hc with hc | ⟨hc, -⟩
          · exact absurd hc hwhite
          · exact absurd hc hline
        have hhead : ∀ c ∈ (a :: w ++ rest).head?, CharClass.isBlank c := by
          intro c hc
          obtain rfl : a = c := by simpa using hc
          exact hw a List.mem_cons_self
        have hl := Lexeme.firstIn_append_blank ho halone hhead habs
        have htokens := tokenizeFrom_lexeme hl
        rw [List.nil_append, tokenizeFrom_blanks hw] at htokens
        exact htokens

theorem Scan.Runs.tokenizeFrom_insert {start : Nat} {rest : Text} {front back : List Lexeme}
    {failure? : Option Diagnostic}
    (h : Runs Category.priority start rest (front ++ back) failure?) :
    ∃ s t, rest = s ++ t ∧ Lexeme.Tile start s front ∧
      ∀ w : Text, (∀ c ∈ w, CharClass.isBlank c) →
        tokenizeFrom start (s ++ (w ++ t)) =
          front.foldr Lexeme.prepend (tokenizeFrom (start + s.length + w.length) t) := by
  have ho := Category.priority_commentsFirst
  induction front generalizing start rest with
  | nil => exact ⟨[], rest, rfl, .nil, fun w hw => tokenizeFrom_blanks hw start rest⟩
  | cons l front ih =>
    cases h with
    | @lexeme _ rest _ _ hl htail =>
      obtain ⟨s, t, rfl, htile, hs⟩ := ih htail
      obtain ⟨-, -, hstop⟩ := Lexeme.firstIn_ok hl
      refine ⟨l.text ++ s, t, (List.append_assoc ..).symm,
        .cons (Lexeme.firstIn_split hl).1 hstop htile, ?_⟩
      intro w hw
      rw [List.length_append, ← Nat.add_assoc, ← hstop, List.append_assoc, List.foldr_cons,
        ← hs w hw]
      by_cases hnil : s = []
      · -- the blanks stand right behind the lexeme
        subst hnil
        rw [List.nil_append, tokenizeFrom_blanks hw]
        exact tokenizeFrom_lexeme_blanks hl hw
      · exact tokenizeFrom_lexeme (Lexeme.firstIn_insert ho hnil hw hl)

theorem tokenize_insert_blanks {source w : Text} {k : Nat}
    (hk : k = 0 ∨ ∃ l : Lexeme, .ok l ∈ (Cursor.ofText source).drain.1 ∧ l.stop = k)
    (hw : ∀ c ∈ w, CharClass.isBlank c) :
    (∀ ts, tokenize source = .ok ts →
      tokenize (source.take k ++ w ++ source.drop k) =
        .ok (ts.map (Token.shiftFrom k w.length))) ∧
    ∀ e, tokenize source = .error e →
      tokenize (source.take k ++ w ++ source.drop k) = .error (e.shiftFrom k w.length) := by
  obtain ⟨ls, failure?, hdrain, hruns⟩ := Cursor.exists_drain_eq source
  have hboundary : Lexeme.IsBoundary ls k := by
    simpa [Lexeme.IsBoundary, hdrain] using hk
  obtain ⟨front, back, rfl, hlength⟩ := hboundary.exists_append
  obtain ⟨s, t, rfl, htile, hinsert⟩ := hruns.tokenizeFrom_insert
  obtain rfl := hlength s htile
  have hfront : ∀ l ∈ front, l.start < s.length := by
    intro l hl
    have := htile.bounds l hl
    omega
  have hmove : tokenize (s ++ w ++ t) = moveFrom s.length w.length (tokenize (s ++ t)) := by
    calc tokenize (s ++ w ++ t) = tokenizeFrom 0 (s ++ (w ++ t)) := by rw [List.append_assoc]; rfl
      _ = front.foldr Lexeme.prepend (tokenizeFrom (s.length + w.length) t) := by
        rw [hinsert w hw, Nat.zero_add]
      _ = moveFrom s.length w.length (front.foldr Lexeme.prepend (tokenizeFrom s.length t)) := by
        rw [tokenizeFrom_add, Lexeme.foldr_prepend_moveFrom hfront]
      _ = moveFrom s.length w.length (tokenizeFrom 0 (s ++ ([] ++ t))) := by
        rw [hinsert [] (by simp), Nat.zero_add, List.length_nil, Nat.add_zero]
      _ = _ := rfl
  rw [List.take_left, List.drop_left, hmove]
  constructor
  · intro ts hts
    rw [hts]
    rfl
  · intro e he
    rw [he]
    rfl

theorem tokenize_insert_blanks_comment :
    tokenize ['x', '/', '/', ' ', '\n', '\n', '#'] =
      .error ⟨.unrecognizedCharacter, "Unrecognized character '#'".toList, ⟨6, some 7⟩⟩ := by
  have hk : (3 : Nat) = 0 ∨ ∃ l : Lexeme,
      .ok l ∈ (Cursor.ofText ['x', '/', '/', '\n', '#']).drain.1 ∧ l.stop = 3 :=
    .inr ⟨⟨.lineComment, ['/', '/'], 1, 3⟩, by decide +kernel, rfl⟩
  have hw : ∀ c ∈ [' ', '\n'], CharClass.isBlank c := List.all_eq_true.mp (by decide)
  have hsource : tokenize ['x', '/', '/', '\n', '#'] =
      .error ⟨.unrecognizedCharacter, "Unrecognized character '#'".toList, ⟨4, some 5⟩⟩ := by
    decide +kernel
  exact (tokenize_insert_blanks hk hw).2 _ hsource

end ScriptLexer
