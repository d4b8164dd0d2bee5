import Mathlib.Logic.Function.Iterate
import ScriptLexer.Proofs.ScanRun

namespace ScriptLexer

theorem Category.matchLength?_bounds {k : Category} {s : Text} {length : Nat}
    (h : k.matchLength? s = some length) : 1 ≤ length ∧ length ≤ s.byteLength := by
  obtain ⟨t, ht, rfl⟩ := Option.map_eq_some_iff.mp h
  obtain ⟨hne, r, rfl⟩ := recognize?_split ht
  refine ⟨Text.byteLength_pos hne, ?_⟩
  rw [Text.byteLength_append]
  apply Nat.le_add_right

theorem Scan.Runs.length_le {order : List Category} {start : Nat} {rest : Text} {ls : List Lexeme}
    {failure? : Option Diagnostic} (h : Runs order start rest ls failure?) :
    ls.length ≤ rest.length := by
  induction h with
  | done => apply Nat.le_refl
  | stopped => apply Nat.zero_le
  | lexeme hl _ ih =>
    have hpos := List.length_pos_iff.mpr (Lexeme.firstIn_split hl).1
    rw [List.length_cons, List.length_append]
    omega

namespace Cursor

theorem next_cases (c : Cursor) :
    c.next = (none, c) ∨ (∃ l, c.next = (some (.ok l), c.advance l)) ∨
      ∃ d, c.next = (some (.error d), { c with failed := true }) := by
  unfold next nextIn
  split
  · exact .inl rfl
  · split
    · exact .inl rfl
    · exact .inl rfl
    · split
      · exact .inr (.inl ⟨_, rfl⟩)
      · exact .inr (.inr ⟨_, rfl⟩)

def IsExhausted (c : Cursor) : Prop := c.next = (none, c)

theorem isExhausted_of_next_none {c : Cursor} (h : c.next.1 = none) : c.IsExhausted := by
  rcases c.next_cases with hn | ⟨l, hn⟩ | ⟨d, hn⟩
  · exact hn
  · rw [hn] at h
    cases h
  · rw [hn] at h
    cases h

theorem isExhausted_of_next_error {c : Cursor} {d : Diagnostic} (h : c.next.1 = some (.error d)) :
    c.next.2.IsExhausted := by
  rcases c.next_cases with hn | ⟨l, hn⟩ | ⟨e, hn⟩
  · rw [hn] at h
    cases h
  · rw [hn] at h
    cases h
  · rw [hn]
    exact nextIn_of_failed rfl

theorem isExhausted_of_last {c : Cursor}
    (h : c.next.1 = none ∨ ∃ d, c.next.1 = some (.error d)) : c.next.2.IsExhausted := by
  rcases h with h | ⟨d, h⟩
  · have hc := isExhausted_of_next_none h
    rwa [show c.next.2 = c from congrArg Prod.snd hc]
  · exact isExhausted_of_next_error h

theorem answers_succ (n : Nat) (c : Cursor) :
    answers (n + 1) c = c.next.1 :: answers n c.next.2 := rfl

theorem IsExhausted.answers_eq {c : Cursor} (h : c.IsExhausted) (n : Nat) :
    answers n c = List.replicate n none := by
  induction n with
  | zero => rfl
  | succ n ih => rw [answers_succ, h, List.replicate_succ, ih]

theorem IsExhausted.iterate_eq {c : Cursor} (h : c.IsExhausted) (n : Nat) :
    (fun c : Cursor => c.next.2)^[n] c = c := by
  apply Function.iterate_fixed
  exact congrArg Prod.snd h

theorem IsExhausted.drain_eq {c : Cursor} (h : c.IsExhausted) : c.drain = ([], c) :=
  drainIn_of_none h

theorem answers_eq_take {n m : Nat} (hm : n ≤ m) (c : Cursor) :
    answers n c = (c.drain.1.map some ++ List.replicate m none).take n := by
  induction n generalizing c with
  | zero => rfl
  | succ n ih =>
    have ih := ih (by omega)
    cases hnext : c.next with
    | mk r? after =>
      cases r? with
      | none =>
        have hc : c.IsExhausted := isExhausted_of_next_none (congrArg Prod.fst hnext)
        rw [hc.answers_eq, hc.drain_eq, List.map_nil, List.nil_append, List.take_replicate,
          Nat.min_eq_left hm]
      | some r =>
        have hdrain : c.drain.1 = r :: after.drain.1 := congrArg Prod.fst (drainIn_of_some hnext)
        rw [answers_succ, hnext, hdrain, List.map_cons, List.cons_append, List.take_succ_cons, ih]

theorem scanning_ends :
    (∀ (k : Category) (s : Text) (length : Nat), k.matchLength? s = some length →
      1 ≤ length ∧ length ≤ s.byteLength) ∧
    (∀ source : Text, ∃ (ls : List Lexeme) (failure? : Option Diagnostic),
      ls.length ≤ source.length ∧
      ∀ n, answers n (ofText source) =
        ((ls.map Except.ok ++ failure?.toList.map Except.error).map some ++
          List.replicate n none).take n) ∧
    ∀ c : Cursor, (c.next.1 = none ∨ ∃ d, c.next.1 = some (.error d)) → ∀ n,
      answers n c.next.2 = List.replicate n none ∧
        (fun c : Cursor => c.next.2)^[n] c.next.2 = c.next.2 := by
  refine ⟨?_, ?_, ?_⟩
  · intro k s length h
    exact Category.matchLength?_bounds h
  · intro source
    obtain ⟨ls, failure?, hdrain, hruns⟩ := exists_drain_eq source
    refine ⟨ls, failure?, hruns.length_le, ?_⟩
    intro n
    rw [← hdrain]
    exact answers_eq_take (Nat.le_refl n) _
  · intro c h n
    have hc := isExhausted_of_last h
    exact ⟨hc.answers_eq n, hc.iterate_eq n⟩

theorem scanning_ends_unclosed :
    let c : Cursor := ⟨"é'x".toList, 2, 1, false⟩
    (1 ≤ 2 ∧ 2 ≤ Text.byteLength "++é".toList) ∧
      (∃ d, c.next.1 = some (.error d)) ∧
      ∀ n, answers n c.next.2 = List.replicate n none ∧
        (fun c : Cursor => c.next.2)^[n] c.next.2 = c.next.2 := by
  intro c
  obtain ⟨hbounds, -, hlast⟩ := scanning_ends
  have herror : c.next.1 = some (.error ⟨.unterminatedString, "Unterminated string".toList,
      ⟨1, some 3⟩⟩) := rfl
  exact ⟨hbounds .operator _ _ (by decide), ⟨_, herror⟩, hlast c (.inr ⟨_, herror⟩)⟩

end Cursor

end ScriptLexer
