import ScriptLexer.Proofs.Dispatch
import ScriptLexer.Proofs.ScanRun

namespace ScriptLexer

def Lexeme.piece (l : Lexeme) : Category × Text := (l.category, l.text)

namespace Scan

theorem Runs.segments {order : List Category} {start : Nat} {rest : Text} {ls : List Lexeme}
    {failure? : Option Diagnostic} (ho : Category.CommentsFirst order)
    (h : Runs order start rest ls failure?) (hf : failure? = none) :
    Category.Segments rest (ls.map Lexeme.piece) := by
  induction h with
  | done => exact .nil
  | stopped => cases hf
  | lexeme hl _ ih =>
    obtain ⟨hlong, hop, -⟩ := (Lexeme.firstIn_eq_ok_iff_isLongest ho).mp hl
    exact .cons (Lexeme.firstIn_split hl).1 hlong hop (ih hf)

theorem runs_of_segments {order : List Category} {rest : Text} {pieces : List (Category × Text)}
    (ho : Category.CommentsFirst order) (h : Category.Segments rest pieces) (start : Nat) :
    ∃ ls, Runs order start rest ls none ∧ ls.map Lexeme.piece = pieces := by
  induction h generalizing start with
  | nil => exact ⟨[], .done, rfl⟩
  | @cons c t rest pieces _ hlong hop _ ih =>
    obtain ⟨ls, hruns, rfl⟩ := ih (start + t.length)
    let l : Lexeme := ⟨c, t, start, start + t.length⟩
    have hl : Lexeme.firstIn start (t ++ rest) order = .ok l :=
      (Lexeme.firstIn_eq_ok_iff_isLongest ho).mpr ⟨hlong, hop, rfl, rfl⟩
    have hrun : Runs order l.start (l.text ++ rest) (l :: ls) none := .lexeme hl hruns
    exact ⟨l :: ls, hrun, rfl⟩

end Scan

namespace Cursor

theorem drain_eq_map_ok_iff {source : Text} {ls : List Lexeme} :
    (ofText source).drain.1 = ls.map .ok ↔ Scan.Runs Category.priority 0 source ls none := by
  rw [← drain_eq_iff]
  simp

theorem drain_accepts_iff_segments (source : Text) :
    ((∃ ls : List Lexeme, (ofText source).drain.1 = ls.map .ok) ↔
        ∃ pieces, Category.Segments source pieces) ∧
      ∀ ls : List Lexeme, (ofText source).drain.1 = ls.map .ok →
        ∀ pieces, Category.Segments source pieces ↔ pieces = ls.map Lexeme.piece := by
  have ho := Category.priority_commentsFirst
  refine ⟨⟨?_, ?_⟩, ?_⟩
  · rintro ⟨ls, hls⟩
    exact ⟨_, (drain_eq_map_ok_iff.mp hls).segments ho rfl⟩
  · rintro ⟨pieces, hs⟩
    obtain ⟨ls, hruns, -⟩ := Scan.runs_of_segments ho hs 0
    exact ⟨ls, drain_eq_map_ok_iff.mpr hruns⟩
  · intro ls hls pieces
    constructor
    · intro hs
      obtain ⟨ls', hruns, rfl⟩ := Scan.runs_of_segments ho hs 0
      have he := (drain_eq_map_ok_iff.mpr hruns).symm.trans hls
      rw [(List.map_inj_right fun _ _ => Except.ok.inj).mp he]
    · rintro rfl
      exact (drain_eq_map_ok_iff.mp hls).segments ho rfl

end Cursor

end ScriptLexer
