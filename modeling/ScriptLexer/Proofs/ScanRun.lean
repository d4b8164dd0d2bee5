import ScriptLexer.Lexeme.Cursor

namespace ScriptLexer

namespace Scan

inductive Runs (order : List Category) : Nat → Text → List Lexeme → Option Diagnostic → Prop where
  | done {start : Nat} : Runs order start [] [] none
  | stopped {start : Nat} {rest : Text} {d : Diagnostic} :
      rest ≠ [] → Lexeme.firstIn start rest order = .error d → Runs order start rest [] (some d)
  | lexeme {l : Lexeme} {rest : Text} {ls : List Lexeme} {failure? : Option Diagnostic} :
      Lexeme.firstIn l.start (l.text ++ rest) order = .ok l →
      Runs order l.stop rest ls failure? → Runs order l.start (l.text ++ rest) (l :: ls) failure?

theorem runs_fromIn (order : List Category) (start : Nat) (rest : Text) :
    Runs order start rest (fromIn order start rest).lexemes
      (fromIn order start rest).failure? := by
  induction hn : rest.length using Nat.strongRecOn generalizing start rest with
  | ind n ih =>
    by_cases hr : rest = []
    · rw [hr, fromIn_nil]
      exact .done
    · cases hl : Lexeme.firstIn start rest order with
      | error d =>
        rw [fromIn_of_error hr hl]
        exact .stopped hr hl
      | ok l =>
        have hlt := Lexeme.length_drop_lt hr hl
        have htail := ih _ (hn ▸ hlt) l.stop (rest.drop l.text.length) rfl
        rw [fromIn_of_ok hr hl]
        obtain ⟨-, rfl, -⟩ := Lexeme.firstIn_ok hl
        obtain ⟨-, r, rfl⟩ := Lexeme.firstIn_split hl
        rw [List.drop_left] at htail ⊢
        exact .lexeme hl htail

theorem Runs.fromIn_eq {order : List Category} {start : Nat} {rest : Text} {ls : List Lexeme}
    {failure? : Option Diagnostic} (h : Runs order start rest ls failure?) :
    fromIn order start rest = ⟨ls, failure?⟩ := by
  induction h with
  | done => exact fromIn_nil order _
  | stopped hr hd => exact fromIn_of_error hr hd
  | lexeme hl _ ih =>
    rw [fromIn_of_ok (Lexeme.ne_nil_of_firstIn hl) hl, List.drop_left, ih]

end Scan

namespace Cursor

theorem map_ok_append_error_inj {ls ls' : List Lexeme} {failure? failure?' : Option Diagnostic}
    (h : ls.map Except.ok ++ failure?.toList.map Except.error =
      ls'.map Except.ok ++ failure?'.toList.map Except.error) :
    ls = ls' ∧ failure? = failure?' := by
  induction ls generalizing ls' with
  | nil =>
    cases ls' with
    | nil => cases failure? <;> cases failure?' <;> simp_all
    | cons l ls' => cases failure? <;> simp at h
  | cons l ls ih =>
    cases ls' with
    | nil => cases failure?' <;> simp at h
    | cons l' ls' =>
      obtain ⟨hl, ht⟩ := List.cons.inj h
      obtain ⟨rfl, rfl⟩ := ih ht
      exact ⟨by rw [Except.ok.inj hl], rfl⟩

theorem drain_eq_iff {source : Text} {ls : List Lexeme} {failure? : Option Diagnostic} :
    (ofText source).drain.1 = ls.map .ok ++ failure?.toList.map .error ↔
      Scan.Runs Category.priority 0 source ls failure? := by
  rw [drain_ofText, Scan.ofText]
  constructor
  · intro h
    obtain ⟨rfl, rfl⟩ := map_ok_append_error_inj h
    exact Scan.runs_fromIn _ 0 source
  · intro h
    rw [h.fromIn_eq]

theorem exists_drain_eq (source : Text) : ∃ ls failure?,
    (ofText source).drain.1 = ls.map .ok ++ failure?.toList.map .error ∧
      Scan.Runs Category.priority 0 source ls failure? :=
  ⟨_, _, drain_ofText source, Scan.runs_fromIn _ 0 source⟩

end Cursor

end ScriptLexer
