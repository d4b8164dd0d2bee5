import ScriptLexer.Proofs.Dispatch
import ScriptLexer.Lexeme.Cursor

namespace ScriptLexer

namespace Category

theorem eq_comment_of_begins {c : Category} {s : Text} (hop : operator.Begins s) (h : c.Begins s)
    (hc : c ≠ operator) : c = lineComment ∨ c = blockComment := by
  obtain ⟨a, r, rfl, ha⟩ := hop
  obtain ⟨b, r', hs, hfirst⟩ := ofFirst_of_begins h
  obtain ⟨rfl, rfl⟩ := List.cons.inj hs
  rcases hfirst with hfirst | ⟨-, -, hcomment⟩
  · exact absurd (hfirst.symm.trans (ofFirst_operator ha)) hc
  · exact hcomment

theorem operator_claims_with_iff {c : Category} {s : Text} (hc : c ≠ operator) :
    operator.claims s ∧ c.claims s ↔
      c = lineComment ∧ (∃ r, s = '/' :: '/' :: r) ∨
      c = blockComment ∧ ∃ r, s = '/' :: '*' :: r := by
  simp only [claims_iff_begins]
  constructor
  · rintro ⟨hop, h⟩
    rcases eq_comment_of_begins hop h hc with rfl | rfl
    · exact .inl ⟨rfl, h⟩
    · exact .inr ⟨rfl, h⟩
  · rintro (⟨rfl, r, rfl⟩ | ⟨rfl, r, rfl⟩)
    · exact ⟨(operator_begins_of_opensComment ⟨r, .inl rfl⟩).1, r, rfl⟩
    · exact ⟨(operator_begins_of_opensComment ⟨r, .inr rfl⟩).1, r, rfl⟩

theorem find?_claims_congr {order order' : List Category} (h : CommentsFirst order)
    (h' : CommentsFirst order') (s : Text) :
    order.find? (·.claims s) = order'.find? (·.claims s) := by
  apply Option.ext
  intro c
  rw [find?_claims_eq_some_iff h, find?_claims_eq_some_iff h']

theorem commentsFirst_of_perm {order : List Category} (h : order.Perm priority)
    (hline : order.idxOf lineComment < order.idxOf operator)
    (hblock : order.idxOf blockComment < order.idxOf operator) : CommentsFirst order :=
  ⟨fun c => h.mem_iff.mpr (mem_priority c), hline, hblock⟩

end Category

theorem Lexeme.firstIn_congr {order order' : List Category} (h : Category.CommentsFirst order)
    (h' : Category.CommentsFirst order') (start : Nat) (rest : Text) :
    firstIn start rest order = firstIn start rest order' := by
  rw [firstIn_eq_find?, Category.find?_claims_congr h h', ← firstIn_eq_find?]

namespace Cursor

theorem nextIn_congr {order order' : List Category} (h : Category.CommentsFirst order)
    (h' : Category.CommentsFirst order') (c : Cursor) : c.nextIn order = c.nextIn order' := by
  simp only [nextIn, Lexeme.firstIn_congr h h']

theorem drainIn_congr {order order' : List Category} (h : Category.CommentsFirst order)
    (h' : Category.CommentsFirst order') (c : Cursor) : c.drainIn order = c.drainIn order' := by
  induction hn : c.distance using Nat.strongRecOn generalizing c with
  | ind n ih =>
    have hnext := nextIn_congr h h' c
    cases hr : c.nextIn order with
    | mk r? after =>
      rw [hr] at hnext
      cases r? with
      | none => rw [drainIn_of_none hr, drainIn_of_none hnext.symm]
      | some r =>
        have htail := ih after.distance (hn ▸ distance_lt_of_nextIn hr) after rfl
        rw [drainIn_of_some hr, drainIn_of_some hnext.symm, htail]

theorem precedence_exact :
    (∀ (s : Text) (c d : Category), c ≠ d →
      (c.claims s ∧ d.claims s ↔
        (∃ r, s = '/' :: '/' :: r) ∧
            (c = .operator ∧ d = .lineComment ∨ c = .lineComment ∧ d = .operator) ∨
          (∃ r, s = '/' :: '*' :: r) ∧
            (c = .operator ∧ d = .blockComment ∨ c = .blockComment ∧ d = .operator))) ∧
    ∀ order : List Category, order.Perm Category.priority →
      order.idxOf .lineComment < order.idxOf .operator →
      order.idxOf .blockComment < order.idxOf .operator →
      ∀ source, (ofText source).drainIn order = (ofText source).drain := by
  constructor
  · intro s c d hne
    by_cases hc : c = .operator
    · subst hc
      rw [Category.operator_claims_with_iff hne.symm]
      simp [hne.symm, and_comm]
    · by_cases hd : d = .operator
      · subst hd
        rw [and_comm, Category.operator_claims_with_iff hc]
        simp [hc, and_comm]
      · constructor
        · rintro ⟨hcs, hds⟩
          have hop := (Category.begins_overlap (Category.claims_iff_begins.mp hcs)
            (Category.claims_iff_begins.mp hds) hne).2
          exact absurd hop (by simp [hc, hd])
        · simp [hc, hd]
  · intro order hperm hline hblock source
    exact drainIn_congr (Category.commentsFirst_of_perm hperm hline hblock)
      Category.priority_commentsFirst _

end Cursor

end ScriptLexer
