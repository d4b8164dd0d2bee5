import Mathlib.Order.Bounds.Basic
import ScriptLexer.Proofs.Diagnosis

namespace ScriptLexer

def Text.ThroughFirst (s : Text) (closings : Set Nat) (width : Nat) (answer : Option Text) :
    Prop :=
  (∀ i, IsLeast closings i → answer = some (s.take (i + width))) ∧ (closings = ∅ → answer = none)

theorem Text.throughFirst_of_cases {s : Text} {closings : Set Nat} {width : Nat}
    {answer : Option Text} (hnone : answer = none → closings = ∅)
    (hsome : ∀ t, answer = some t → ∃ i, IsLeast closings i ∧ t = s.take (i + width)) :
    s.ThroughFirst closings width answer := by
  constructor
  · intro i hi
    cases ha : answer with
    | none =>
      have hmem := hi.1
      rw [hnone ha] at hmem
      exact absurd hmem (Set.notMem_empty i)
    | some t =>
      obtain ⟨k, hk, rfl⟩ := hsome t ha
      rw [hi.unique hk]
  · intro hempty
    cases ha : answer with
    | none => rfl
    | some t =>
      obtain ⟨k, hk, -⟩ := hsome t ha
      have hmem := hk.1
      rw [hempty] at hmem
      exact absurd hmem (Set.notMem_empty k)

namespace Quoted

/-- The offsets past the first at which the quote stands after an even number of backslashes. -/
def closings (quote : Char) (s : Text) : Set Nat :=
  {i | 1 ≤ i ∧ s[i]? = some quote ∧ Even (trailingBackslashes (s.take i))}

theorem mem_closings_iff {quote : Char} (hq : quote ≠ '\\') {r : Text} {i : Nat} :
    i ∈ closings quote (quote :: r) ↔
      ∃ u v, r = u ++ quote :: v ∧ i = u.length + 1 ∧ Even (trailingBackslashes u) := by
  constructor
  · rintro ⟨hi, hget, heven⟩
    obtain ⟨k, rfl⟩ := Nat.exists_eq_add_of_le' hi
    rw [List.getElem?_cons_succ] at hget
    obtain ⟨hk, hget⟩ := List.getElem?_eq_some_iff.mp hget
    rw [List.take_succ_cons, trailingBackslashes_plain hq] at heven
    refine ⟨r.take k, r.drop (k + 1), ?_, ?_, heven⟩
    · rw [← hget, List.cons_getElem_drop_succ, List.take_append_drop]
    · rw [List.length_take_of_le (Nat.le_of_lt hk)]
  · rintro ⟨u, v, rfl, rfl, heven⟩
    refine ⟨Nat.le_add_left .., by simp, ?_⟩
    rwa [List.take_succ_cons, List.take_left, trailingBackslashes_plain hq]

theorem throughQuote?_of_units {quote : Char} {units : Text} (hq : quote ≠ '\\')
    (hu : Units quote units) : throughQuote? quote units = none := by
  induction hu with
  | nil => rfl
  | plain hne hc _ ih => rw [throughQuote?_plain hne hc, ih, Option.map_none]
  | escaped _ ih => rw [throughQuote?_escaped hq, ih, Option.map_none]

theorem isLeast_closings {quote : Char} {units : Text} (hq : quote ≠ '\\')
    (hu : Units quote units) (v : Text) :
    IsLeast (closings quote (quote :: (units ++ quote :: v))) (units.length + 1) := by
  constructor
  · exact (mem_closings_iff hq).mpr ⟨units, v, rfl, rfl, hu.even_trailingBackslashes⟩
  · intro i hi
    obtain ⟨u, w, huw, rfl, heven⟩ := (mem_closings_iff hq).mp hi
    rcases List.append_eq_append_iff.mp huw with ⟨x, rfl, -⟩ | ⟨x, rfl, hx⟩
    · simp
    · -- a quote inside the units stands after an odd number of backslashes
      cases x with
      | nil => simp
      | cons a x =>
        obtain ⟨rfl, -⟩ := List.cons.inj hx
        exact absurd heven (not_even_trailingBackslashes (throughQuote?_of_units hq hu) rfl)

theorem literal?_throughFirst {quote : Char} (hq : CharClass.isQuote quote) (r : Text) :
    Text.ThroughFirst (quote :: r) (closings quote (quote :: r)) 1 (literal? (quote :: r)) := by
  have hslash := ne_backslash_of_isQuote hq
  apply Text.throughFirst_of_cases
  · intro hnone
    apply Set.eq_empty_of_forall_notMem
    intro i hi
    obtain ⟨u, v, huv, -, heven⟩ := (mem_closings_iff hslash).mp hi
    exact (literal?_eq_none_iff hq).mp hnone u v huv heven
  · intro t ht
    obtain ⟨-, v, hv⟩ := literal?_split ht
    obtain ⟨quote', units, -, hu, rfl⟩ := literal?_language ht
    rw [List.cons_append, List.append_assoc] at hv
    obtain ⟨rfl, rfl⟩ := List.cons.inj hv
    exact ⟨units.length + 1, isLeast_closings hslash hu v, by simp [List.take_append]⟩

end Quoted

namespace Trivia

def closings (s : Text) : Set Nat := {j | 2 ≤ j ∧ s[j]? = some '*' ∧ s[j + 1]? = some '/'}

theorem mem_closings_iff {r : Text} {j : Nat} :
    j ∈ closings ('/' :: '*' :: r) ↔ ∃ u v, r = u ++ '*' :: '/' :: v ∧ j = u.length + 2 := by
  constructor
  · rintro ⟨hj, hstar, hslash⟩
    obtain ⟨k, rfl⟩ := Nat.exists_eq_add_of_le' hj
    obtain ⟨hk, hstar⟩ := List.getElem?_eq_some_iff.mp hstar
    obtain ⟨hk', hslash⟩ := List.getElem?_eq_some_iff.mp hslash
    simp only [List.length_cons] at hk hk'
    refine ⟨r.take k, r.drop (k + 2), ?_, ?_⟩
    · rw [← hstar, ← hslash]
      simp
    · rw [List.length_take_of_le (by omega)]
  · rintro ⟨u, v, rfl, rfl⟩
    exact ⟨Nat.le_add_left .., by simp, by simp⟩

theorem isLeast_closings {body : Text} (h : ClosesOnce (body ++ ['*', '/'])) (v : Text) :
    IsLeast (closings ('/' :: '*' :: (body ++ '*' :: '/' :: v))) (body.length + 2) := by
  constructor
  · exact mem_closings_iff.mpr ⟨body, v, rfl, rfl⟩
  · intro j hj
    obtain ⟨u, w, huw, rfl⟩ := mem_closings_iff.mp hj
    have hmarks : (body ++ ['*', '/']) ++ v = (u ++ ['*', '/']) ++ w := by simpa using huw
    rcases List.append_eq_append_iff.mp hmarks with ⟨x, hx, -⟩ | ⟨x, hx, -⟩
    · have hlength := congrArg List.length hx
      simp only [List.length_append, List.length_cons, List.length_nil] at hlength
      omega
    · -- the close of a comment is the only one in it
      have hnil : x = [] := h.2 u x (by simpa using hx)
      have hlength := congrArg List.length hx
      simp only [hnil, List.length_append, List.length_cons, List.length_nil] at hlength
      omega

theorem blockComment?_throughFirst (r : Text) :
    Text.ThroughFirst ('/' :: '*' :: r) (closings ('/' :: '*' :: r)) 2
      (blockComment? ('/' :: '*' :: r)) := by
  apply Text.throughFirst_of_cases
  · intro hnone
    apply Set.eq_empty_of_forall_notMem
    intro j hj
    obtain ⟨u, v, rfl, -⟩ := mem_closings_iff.mp hj
    exact blockComment?_eq_none_iff.mp hnone ⟨u, v, by simp⟩
  · intro t ht
    obtain ⟨-, v, hv⟩ := blockComment?_split ht
    obtain ⟨u, rfl, honce⟩ := blockComment_language_iff.mp (blockComment?_language ht)
    obtain ⟨body, rfl⟩ := honce.1
    obtain rfl : r = body ++ '*' :: '/' :: v := by simpa using hv
    exact ⟨body.length + 2, isLeast_closings honce v, by simp [List.take_append]⟩

end Trivia

namespace Category

theorem any_opens_iff_begins {c : Category} (hc : c = blockComment ∨ c = string) {s : Text} :
    c.opening?.any (·.opens s) ↔ c.Begins s := by
  constructor
  · intro h
    obtain ⟨o, ho, hopens⟩ := (Option.any_eq_true _ _).mp h
    exact begins_of_opens ho hopens
  · intro h
    rcases hc with rfl | rfl
    · obtain ⟨r, rfl⟩ := h
      simp [opening?, Opening.opens]
    · obtain ⟨quote, r, rfl, hquote⟩ := h
      have hq : quote = '\x27' ∨ quote = '\x22' := by simpa [CharClass.isQuote] using hquote
      rcases hq with rfl | rfl <;> simp [opening?, Opening.opens]

theorem recognize?_append_of_closed {c : Category} (hc : c = blockComment ∨ c = string)
    {s t : Text} (h : c.recognize? s = some t) (r : Text) : c.recognize? (s ++ r) = some t := by
  obtain ⟨-, rest, rfl⟩ := recognize?_split h
  rw [List.append_assoc]
  exact recognize?_closed hc (recognize?_language h) (rest ++ r)

theorem delimited_ends_exact :
    (∀ quote r, CharClass.isQuote quote → Text.ThroughFirst (quote :: r)
      (Quoted.closings quote (quote :: r)) 1 (string.recognize? (quote :: r))) ∧
    (∀ r, Text.ThroughFirst ('/' :: '*' :: r)
      (Trivia.closings ('/' :: '*' :: r)) 2 (blockComment.recognize? ('/' :: '*' :: r))) ∧
    ∀ c, c = blockComment ∨ c = string → ∀ s,
      (c.opening?.any (·.opens s) ↔ c.Begins s) ∧ (¬c.Begins s → c.recognize? s = none) ∧
      ∀ t r, c.recognize? s = some t →
        c.recognize? (s ++ r) = some t ∧ c.matchLength? (s ++ r) = c.matchLength? s := by
  refine ⟨?_, Trivia.blockComment?_throughFirst, ?_⟩
  · intro quote r hq
    exact Quoted.literal?_throughFirst hq r
  · intro c hc s
    refine ⟨any_opens_iff_begins hc, ?_, ?_⟩
    · intro hbegins
      cases ht : c.recognize? s with
      | none => rfl
      | some t => exact absurd (claims_iff_begins.mp (claims_of_recognize? ht)) hbegins
    · intro t r ht
      have happend := recognize?_append_of_closed hc ht r
      exact ⟨happend, by rw [matchLength?, matchLength?, happend, ht]⟩

theorem delimited_ends_exact_escaped :
    string.recognize? "'\\\\\\'é' '".toList = some "'\\\\\\'é'".toList ∧
      blockComment.recognize? "/*/ **/ */".toList = some "/*/ **/".toList ∧
      string.recognize? ("'\\\\\\'é' '".toList ++ ['\\']) = some "'\\\\\\'é'".toList := by
  have hquote : IsLeast (Quoted.closings '\x27' "'\\\\\\'é' '".toList) 6 := by
    refine ⟨⟨by decide, by decide, by decide⟩, ?_⟩
    rintro i ⟨hi, hget, heven⟩
    by_contra hlt
    have hcases : i = 1 ∨ i = 2 ∨ i = 3 ∨ i = 4 ∨ i = 5 := by omega
    rcases hcases with rfl | rfl | rfl | rfl | rfl <;> revert hget heven <;> decide
  have hclose : IsLeast (Trivia.closings "/*/ **/ */".toList) 5 := by
    refine ⟨⟨by decide, by decide, by decide⟩, ?_⟩
    rintro j ⟨hj, hstar, hslash⟩
    by_contra hlt
    have hcases : j = 2 ∨ j = 3 ∨ j = 4 := by omega
    rcases hcases with rfl | rfl | rfl <;> revert hstar hslash <;> decide
  have hliteral := (delimited_ends_exact.1 '\x27' _ (by decide)).1 6 hquote
  have hcomment := (delimited_ends_exact.2.1 _).1 5 hclose
  have hextended := ((delimited_ends_exact.2.2 string (.inr rfl) _).2.2 _ ['\\'] hliteral).1
  exact ⟨hliteral, hcomment, hextended⟩

end Category

end ScriptLexer
