import ScriptLexer.Proofs.ScanRun
import ScriptLexer.Token.Stream

namespace ScriptLexer

def Diagnostic.shift (n : Nat) (d : Diagnostic) : Diagnostic :=
  { d with location := ⟨d.location.start + n, d.location.stop?.map (· + n)⟩ }

def Lexeme.shift (n : Nat) (l : Lexeme) : Lexeme :=
  { l with start := l.start + n, stop := l.stop + n }

def Token.shift (n : Nat) (t : Token) : Token :=
  { t with start := t.start + n, stop := t.stop + n }

namespace Lexeme

theorem unrecognized_shift (n start : Nat) (c : Char) :
    unrecognized c (start + n) = (unrecognized c start).shift n := by
  simp [unrecognized, Diagnostic.about, HasLocation.location?, Diagnostic.shift,
    Nat.add_right_comm]

theorem unterminated_shift (n start : Nat) (o : Opening) (rest : Text) :
    unterminated o (start + n) rest = (unterminated o start rest).shift n := by
  simp [unterminated, Diagnostic.about, HasLocation.location?, Diagnostic.shift,
    Nat.add_right_comm]

theorem firstIn_shift (n start : Nat) (rest : Text) (order : List Category) :
    firstIn (start + n) rest order =
      ((firstIn start rest order).map (shift n)).mapError (Diagnostic.shift n) := by
  induction order with
  | nil => exact congrArg Except.error (unrecognized_shift n start _)
  | cons c order ih =>
    rw [firstIn_cons, firstIn_cons]
    cases c.recognize? rest with
    | some t =>
      apply congrArg Except.ok
      simp [shift, Nat.add_right_comm]
    | none =>
      cases c.opening?.filter (·.opens rest) with
      | none => exact ih
      | some o => exact congrArg Except.error (unterminated_shift n start o rest)

theorem firstIn_shift_ok {n start : Nat} {rest : Text} {order : List Category} {l : Lexeme}
    (h : firstIn start rest order = .ok l) :
    firstIn (start + n) rest order = .ok (l.shift n) := by
  rw [firstIn_shift, h]
  rfl

theorem firstIn_shift_error {n start : Nat} {rest : Text} {order : List Category}
    {d : Diagnostic} (h : firstIn start rest order = .error d) :
    firstIn (start + n) rest order = .error (d.shift n) := by
  rw [firstIn_shift, h]
  rfl

theorem value?_shift (n : Nat) (l : Lexeme) :
    (l.shift n).value? = l.value?.mapError (Diagnostic.shift n) := by
  obtain ⟨category, text, start, stop⟩ := l
  cases category with
  | number =>
    simp only [value?, shift]
    split <;> rfl
  | _ => rfl

end Lexeme

theorem Scan.Runs.shift {order : List Category} {start : Nat} {rest : Text} {ls : List Lexeme}
    {failure? : Option Diagnostic} (h : Runs order start rest ls failure?) (n : Nat) :
    Runs order (start + n) rest (ls.map (Lexeme.shift n))
      (failure?.map (Diagnostic.shift n)) := by
  induction h with
  | done => exact .done
  | stopped hr hd => exact .stopped hr (Lexeme.firstIn_shift_error hd)
  | @lexeme l rest ls failure? hl _ ih =>
    exact .lexeme (l := l.shift n) (Lexeme.firstIn_shift_ok hl) ih

theorem Token.ofLexemes_shift (n : Nat) (failure? : Option Diagnostic) (ls : List Lexeme) :
    ofLexemes (failure?.map (Diagnostic.shift n)) (ls.map (Lexeme.shift n)) =
      ((ofLexemes failure? ls).map (List.map (shift n))).mapError (Diagnostic.shift n) := by
  induction ls with
  | nil => cases failure? <;> rfl
  | cons l ls ih =>
    rw [List.map_cons, ofLexemes, ofLexemes, Lexeme.value?_shift]
    cases l.value? with
    | error d => rfl
    | ok v? =>
      cases v? with
      | none => exact ih
      | some v =>
        change Except.map _ (ofLexemes _ (ls.map (Lexeme.shift n))) = _
        rw [ih]
        cases ofLexemes failure? ls <;> rfl

end ScriptLexer
