import ScriptLexer.Lexeme.Basic

namespace ScriptLexer

structure Scan where
  lexemes : List Lexeme
  failure? : Option Diagnostic
  deriving DecidableEq, Repr

namespace Scan

def fromIn (order : List Category) (start : Nat) (rest : Text) : Scan :=
  if hr : rest = [] then ⟨[], none⟩
  else match hl : Lexeme.firstIn start rest order with
    | .error d => ⟨[], some d⟩
    | .ok l =>
      have : (rest.drop l.text.length).length < rest.length := Lexeme.length_drop_lt hr hl
      let tail := fromIn order l.stop (rest.drop l.text.length)
      ⟨l :: tail.lexemes, tail.failure?⟩
termination_by rest.length
decreasing_by exact this

def ofText (source : Text) : Scan := fromIn Category.priority 0 source

theorem fromIn_nil (order : List Category) (start : Nat) : fromIn order start [] = ⟨[], none⟩ := by
  rw [fromIn, dif_pos rfl]

theorem fromIn_of_error {order : List Category} {start : Nat} {rest : Text} {d : Diagnostic}
    (hr : rest ≠ []) (h : Lexeme.firstIn start rest order = .error d) :
    fromIn order start rest = ⟨[], some d⟩ := by
  rw [fromIn, dif_neg hr]
  split <;> simp_all

theorem fromIn_of_ok {order : List Category} {start : Nat} {rest : Text} {l : Lexeme}
    (hr : rest ≠ []) (h : Lexeme.firstIn start rest order = .ok l) :
    fromIn order start rest =
      ⟨l :: (fromIn order l.stop (rest.drop l.text.length)).lexemes,
        (fromIn order l.stop (rest.drop l.text.length)).failure?⟩ := by
  rw [fromIn, dif_neg hr]
  split <;> simp_all

end Scan

end ScriptLexer
