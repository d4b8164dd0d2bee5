import Mathlib.Data.Nat.SuccPred
import Mathlib.Data.Prod.Lex
import Mathlib.Order.Interval.Set.Monotone
import ScriptLexer.Text.Place

namespace ScriptLexer

namespace Text

theorem notMem_of_mem_splitOn {c : Char} {s t : Text} (h : t ∈ s.splitOn c) : c ∉ t := by
  induction s generalizing t with
  | nil =>
    obtain rfl := List.mem_singleton.mp h
    exact List.not_mem_nil
  | cons d s ih =>
    rw [List.splitOn_cons_eq_if_modifyHead] at h
    split at h
    · rcases List.mem_cons.mp h with rfl | h
      · exact List.not_mem_nil
      · exact ih h
    · rename_i hd
      have hne : c ≠ d := fun he => hd (beq_iff_eq.mpr he.symm)
      obtain ⟨u, us, hs⟩ := List.exists_cons_of_ne_nil (List.splitOn_ne_nil c s)
      rw [hs] at h ih
      rcases List.mem_cons.mp h with rfl | h
      · exact List.not_mem_cons_of_ne_of_not_mem hne (ih List.mem_cons_self)
      · exact ih (List.mem_cons_of_mem u h)

def before (s : Text) (k : Nat) : Text := (s.lines.take k).flatMap (· ++ ['\n'])

theorem exists_append_of_intercalate {c : Char} {ls : List Text} {k : Nat} {l : Text}
    (h : ls[k]? = some l) : ∃ r, (∀ a ∈ r.head?, a = c) ∧
      [c].intercalate ls = (ls.take k).flatMap (· ++ [c]) ++ (l ++ r) := by
  induction ls generalizing k with
  | nil => simp at h
  | cons t ts ih =>
    cases k with
    | zero =>
      obtain rfl : t = l := by simpa using h
      cases ts with
      | nil => exact ⟨[], by simp, by simp⟩
      | cons u us => exact ⟨c :: [c].intercalate (u :: us), by simp, by simp⟩
    | succ k =>
      rw [List.getElem?_cons_succ] at h
      obtain ⟨r, hr, htext⟩ := ih h
      refine ⟨r, hr, ?_⟩
      cases ts with
      | nil => simp at h
      | cons u us =>
        rw [List.intercalate_cons_cons, htext, List.take_succ_cons, List.flatMap_cons]
        simp only [List.append_assoc]

theorem exists_append_of_line {s l : Text} {k : Nat} (h : s.lines[k]? = some l) :
    ∃ r, (∀ a ∈ r.head?, a = '\n') ∧ s = s.before k ++ (l ++ r) := by
  obtain ⟨r, hr, htext⟩ := exists_append_of_intercalate (c := '\n') h
  rw [lines, List.intercalate_splitOn] at htext
  exact ⟨r, hr, htext⟩

theorem exists_line_of_intercalate {c : Char} {ls : List Text} (hne : ls ≠ []) {o : Nat}
    (h : o ≤ ([c].intercalate ls).length) : ∃ k l i, ls[k]? = some l ∧ i ≤ l.length ∧
      o = ((ls.take k).flatMap (· ++ [c])).length + i := by
  induction ls generalizing o with
  | nil => exact absurd rfl hne
  | cons t ts ih =>
    by_cases ho : o ≤ t.length
    · exact ⟨0, t, o, rfl, ho, by simp⟩
    · cases ts with
      | nil =>
        rw [List.intercalate_singleton] at h
        exact absurd h ho
      | cons u us =>
        rw [List.intercalate_cons_cons, List.length_append, List.length_append] at h
        have hrest : o - (t.length + 1) ≤ ([c].intercalate (u :: us)).length := by
          simp only [List.length_singleton] at h
          omega
        obtain ⟨k, l, i, hl, hi, hsum⟩ := ih (by simp) hrest
        refine ⟨k + 1, l, i, hl, hi, ?_⟩
        rw [List.take_succ_cons, List.flatMap_cons, List.length_append, List.length_append,
          List.length_singleton]
        omega

theorem exists_line_of_le {s : Text} {o : Nat} (h : o ≤ s.length) :
    ∃ k l i, s.lines[k]? = some l ∧ i ≤ l.length ∧ o = (s.before k).length + i := by
  apply exists_line_of_intercalate (c := '\n') (List.splitOn_ne_nil '\n' s)
  rwa [List.intercalate_splitOn]

end Text

namespace Place

theorem foldl_after_of_notMem {u : Text} (h : '\n' ∉ u) (p : Place) :
    u.foldl after p = ⟨p.line, p.column + u.length⟩ := by
  induction u generalizing p with
  | nil => rfl
  | cons c u ih =>
    rw [List.mem_cons, not_or] at h
    rw [List.foldl_cons, ih h.2, after, if_neg (Ne.symm h.1), List.length_cons]
    simp only [Nat.add_assoc, Nat.add_comm 1]

theorem foldl_after_lines {ls : List Text} (h : ∀ l ∈ ls, '\n' ∉ l) (line : Nat) :
    (ls.flatMap (· ++ ['\n'])).foldl after ⟨line, 1⟩ = ⟨line + ls.length, 1⟩ := by
  induction ls generalizing line with
  | nil => rfl
  | cons l ls ih =>
    obtain ⟨hl, hls⟩ := List.forall_mem_cons.mp h
    rw [List.flatMap_cons, List.foldl_append, List.foldl_append, foldl_after_of_notMem hl,
      List.foldl_cons, List.foldl_nil, after, if_pos rfl, ih hls, List.length_cons]
    simp only [Nat.add_assoc, Nat.add_comm 1]

theorem ofOffset_of_line {s l : Text} {k i : Nat} (hl : s.lines[k]? = some l)
    (hi : i ≤ l.length) : ofOffset s ((s.before k).length + i) = ⟨k + 1, i + 1⟩ := by
  obtain ⟨r, -, hs⟩ := Text.exists_append_of_line hl
  have htake : s.take ((s.before k).length + i) = s.before k ++ l.take i := by
    have hcut : (s.before k ++ (l ++ r)).take ((s.before k).length + i) = _ :=
      List.take_length_add_append i
    rwa [← hs, List.take_append_of_le_length hi] at hcut
  have hfeed : ∀ t ∈ s.lines, '\n' ∉ t := fun t ht => Text.notMem_of_mem_splitOn ht
  have hlines : (s.lines.take k).length = k := by
    obtain ⟨hk, -⟩ := List.getElem?_eq_some_iff.mp hl
    exact List.length_take_of_le (Nat.le_of_lt hk)
  have hline : '\n' ∉ l.take i := fun h =>
    hfeed l (List.mem_of_getElem? hl) (List.mem_of_mem_take h)
  rw [ofOffset, htake, List.foldl_append, Text.before, first,
    foldl_after_lines (fun t ht => hfeed t (List.mem_of_mem_take ht)),
    foldl_after_of_notMem hline, hlines, List.length_take_of_le hi]
  simp only [Nat.add_comm 1]

structure IsIn (p : Place) (s : Text) : Prop where
  line_pos : 1 ≤ p.line
  line_le : p.line ≤ s.lines.length
  column_pos : 1 ≤ p.column
  column_le : ∀ l ∈ s.lines[p.line - 1]?, p.column ≤ l.length + 1

theorem isIn_iff {p : Place} {s : Text} :
    p.IsIn s ↔ ∃ k l i, s.lines[k]? = some l ∧ i ≤ l.length ∧ p = ⟨k + 1, i + 1⟩ := by
  constructor
  · rintro ⟨hline, hlines, hcolumn, hend⟩
    obtain ⟨line, column⟩ := p
    obtain ⟨k, rfl⟩ := Nat.exists_eq_add_of_le' hline
    obtain ⟨i, rfl⟩ := Nat.exists_eq_add_of_le' hcolumn
    have hk := List.getElem?_eq_getElem (Nat.lt_of_succ_le hlines)
    exact ⟨k, _, i, hk, Nat.le_of_succ_le_succ (hend _ hk), rfl⟩
  · rintro ⟨k, l, i, hl, hi, rfl⟩
    obtain ⟨hk, -⟩ := List.getElem?_eq_some_iff.mp hl
    refine ⟨Nat.le_add_left .., hk, Nat.le_add_left .., ?_⟩
    intro t ht
    obtain rfl := Option.some.inj (hl.symm.trans ht)
    exact Nat.succ_le_succ hi

theorem toOffset_of_line (s : Text) (k i : Nat) :
    toOffset s ⟨k + 1, i + 1⟩ = (s.before k).length + i := rfl

theorem ofOffset_toOffset {p : Place} {s : Text} (h : p.IsIn s) : ofOffset s (toOffset s p) = p := by
  obtain ⟨k, l, i, hl, hi, rfl⟩ := isIn_iff.mp h
  rw [toOffset_of_line]
  exact ofOffset_of_line hl hi

theorem toOffset_le_length {p : Place} {s : Text} (h : p.IsIn s) : toOffset s p ≤ s.length := by
  obtain ⟨k, l, i, hl, hi, rfl⟩ := isIn_iff.mp h
  obtain ⟨r, -, hs⟩ := Text.exists_append_of_line hl
  have hlength := congrArg List.length hs
  rw [List.length_append, List.length_append] at hlength
  rw [toOffset_of_line]
  omega

theorem ofOffset_of_le {s : Text} {o : Nat} (h : o ≤ s.length) :
    (ofOffset s o).IsIn s ∧ toOffset s (ofOffset s o) = o := by
  obtain ⟨k, l, i, hl, hi, rfl⟩ := Text.exists_line_of_le h
  rw [ofOffset_of_line hl hi]
  exact ⟨isIn_iff.mpr ⟨k, l, i, hl, hi, rfl⟩, toOffset_of_line s k i⟩

theorem ofOffset_min (s : Text) (o : Nat) : ofOffset s (min o s.length) = ofOffset s o := by
  rw [ofOffset, ofOffset, ← List.take_eq_take_min]

theorem exists_line_of_getElem? {s : Text} {o : Nat} {a : Char} (h : s[o]? = some a)
    (ha : a ≠ '\n') : ∃ l, s.lines[(ofOffset s o).line - 1]? = some l ∧
      l[(ofOffset s o).column - 1]? = some a := by
  obtain ⟨ho, -⟩ := List.getElem?_eq_some_iff.mp h
  obtain ⟨k, l, i, hl, hi, rfl⟩ := Text.exists_line_of_le (Nat.le_of_lt ho)
  obtain ⟨r, hr, hs⟩ := Text.exists_append_of_line hl
  rw [ofOffset_of_line hl hi]
  refine ⟨l, hl, ?_⟩
  have hget : (l ++ r)[i]? = some a := by
    have hcut : (s.before k ++ (l ++ r))[(s.before k).length + i]? = _ :=
      List.getElem?_append_right (Nat.le_add_right _ i)
    rwa [← hs, h, Nat.add_sub_cancel_left, eq_comm] at hcut
  rcases Nat.lt_or_eq_of_le hi with hlt | rfl
  · rwa [List.getElem?_append_left hlt] at hget
  · rw [List.getElem?_append_right (Nat.le_refl _), Nat.sub_self, ← List.head?_eq_getElem?] at hget
    exact absurd (hr a hget) ha

def rank (p : Place) : Nat ×ₗ Nat := toLex (p.line, p.column)

theorem rank_lt_after (p : Place) (c : Char) : p.rank < (p.after c).rank := by
  rw [rank, rank, Prod.Lex.toLex_lt_toLex, after]
  split
  · exact .inl (Nat.lt_succ_self p.line)
  · exact .inr ⟨rfl, Nat.lt_succ_self p.column⟩

theorem ofOffset_succ {s : Text} {o : Nat} {c : Char} (h : s[o]? = some c) :
    ofOffset s (o + 1) = (ofOffset s o).after c := by
  rw [ofOffset, List.take_add_one, h, List.foldl_append]
  rfl

theorem rank_strictMonoOn (s : Text) :
    StrictMonoOn (fun o => (ofOffset s o).rank) (Set.Iic s.length) := by
  apply strictMonoOn_Iic_of_lt_succ
  intro o ho
  have hget := List.getElem?_eq_getElem ho
  rw [Nat.succ_eq_succ, Nat.succ_eq_add_one, ofOffset_succ hget]
  exact rank_lt_after _ _

theorem offsets_correspond_to_places (s : Text) :
    (∀ o, (ofOffset s o).IsIn s ∧ toOffset s (ofOffset s o) = min o s.length) ∧
    (∀ o₁ o₂, o₁ < o₂ → o₂ ≤ s.length → (ofOffset s o₁).rank < (ofOffset s o₂).rank) ∧
    ∀ p : Place, p.IsIn s → ∃! o, o ≤ s.length ∧ ofOffset s o = p := by
  refine ⟨?_, ?_, ?_⟩
  · intro o
    rw [← ofOffset_min]
    exact ofOffset_of_le (Nat.min_le_right o s.length)
  · intro o₁ o₂ hlt hle
    exact rank_strictMonoOn s (Set.mem_Iic.mpr (Nat.le_trans (Nat.le_of_lt hlt) hle)) hle hlt
  · intro p hp
    refine ⟨toOffset s p, ⟨toOffset_le_length hp, ofOffset_toOffset hp⟩, ?_⟩
    rintro o ⟨ho, rfl⟩
    exact (ofOffset_of_le ho).2.symm

theorem offsets_correspond_to_places_emptyLine :
    toOffset ['a', '\n', '\n', 'b'] (ofOffset ['a', '\n', '\n', 'b'] 9) = 4 ∧
      (ofOffset ['a', '\n', '\n', 'b'] 1).rank < (ofOffset ['a', '\n', '\n', 'b'] 2).rank ∧
      ∃! o, o ≤ 4 ∧ ofOffset ['a', '\n', '\n', 'b'] o = ⟨2, 1⟩ := by
  obtain ⟨hback, hlt, hplace⟩ := offsets_correspond_to_places ['a', '\n', '\n', 'b']
  have hempty : IsIn ⟨2, 1⟩ ['a', '\n', '\n', 'b'] := ⟨by decide, by decide, by decide, by decide⟩
  exact ⟨(hback 9).2, hlt 1 2 (by decide) (by decide), hplace ⟨2, 1⟩ hempty⟩

end Place

end ScriptLexer
