import ScriptLexer.Grammar.Category

namespace ScriptLexer

structure Lexeme where
  category : Category
  text : Text
  start : Nat
  stop : Nat
  deriving DecidableEq, Repr

namespace Lexeme

instance : HasLocation Lexeme := ⟨fun l => some ⟨l.start, some l.stop⟩⟩

def isTrivia (l : Lexeme) : Bool := l.category.isTrivia

def unrecognized (c : Char) (start : Nat) : Diagnostic :=
  .about (Location.mk start (some (start + 1))) .unrecognizedCharacter
    ("Unrecognized character '".toList ++ c :: ['\x27'])

def unterminated (o : Opening) (start : Nat) (rest : Text) : Diagnostic :=
  .about (Location.mk start (some (start + rest.length))) o.kind o.message

def firstIn (start : Nat) (rest : Text) : List Category → Except Diagnostic Lexeme
  | [] => .error (unrecognized (rest.headD '\uFFFD') start)
  | c :: order =>
    match c.matchLength? rest with
    | some length =>
      let t := (rest.takeBytes? length).getD []
      .ok ⟨c, t, start, start + t.length⟩
    | none =>
      match c.opening?.filter (·.opens rest) with
      | some o => .error (unterminated o start rest)
      | none => firstIn start rest order

theorem firstIn_cons (start : Nat) (rest : Text) (c : Category) (order : List Category) :
    firstIn start rest (c :: order) =
      match c.recognize? rest with
      | some t => .ok ⟨c, t, start, start + t.length⟩
      | none =>
        match c.opening?.filter (·.opens rest) with
        | some o => .error (unterminated o start rest)
        | none => firstIn start rest order := by
  rw [firstIn, Category.matchLength?]
  cases h : c.recognize? rest with
  | none => rfl
  | some t => simp [Category.takeBytes?_recognize? h]

theorem firstIn_ok {start : Nat} {rest : Text} {order : List Category} {l : Lexeme}
    (h : firstIn start rest order = .ok l) :
    l.category.recognize? rest = some l.text ∧ l.start = start ∧
      l.stop = start + l.text.length := by
  induction order with
  | nil => simp [firstIn] at h
  | cons c order ih =>
    rw [firstIn_cons] at h
    split at h
    · rename_i t ht
      obtain rfl := Except.ok.inj h
      exact ⟨ht, rfl, rfl⟩
    · split at h
      · simp at h
      · exact ih h

theorem firstIn_split {start : Nat} {rest : Text} {order : List Category} {l : Lexeme}
    (h : firstIn start rest order = .ok l) : l.text ≠ [] ∧ ∃ r, rest = l.text ++ r :=
  Category.recognize?_split (firstIn_ok h).1

theorem ne_nil_of_firstIn {start : Nat} {rest : Text} {order : List Category} {l : Lexeme}
    (h : firstIn start rest order = .ok l) : rest ≠ [] := by
  obtain ⟨hne, r, rfl⟩ := firstIn_split h
  exact List.append_ne_nil_of_left_ne_nil hne r

theorem length_drop_lt {start : Nat} {rest : Text} {order : List Category} {l : Lexeme}
    (hr : rest ≠ []) (h : firstIn start rest order = .ok l) :
    (rest.drop l.text.length).length < rest.length := by
  have hl := List.length_pos_iff.2 (firstIn_split h).1
  have hr := List.length_pos_iff.2 hr
  simp only [List.length_drop]
  omega

end Lexeme

end ScriptLexer
