import ScriptLexer.Proofs.Segmentation
import ScriptLexer.Proofs.Shift
import ScriptLexer.Proofs.TokenRefinement

namespace ScriptLexer

namespace Category

theorem IsLongest.of_append {c : Category} {t r x : Text} (h : c.IsLongest t (t ++ (r ++ x))) :
    c.IsLongest t (t ++ r) := by
  obtain ⟨hlang, -, hmax⟩ := h
  refine ⟨hlang, ⟨r, rfl⟩, ?_⟩
  intro u v huv hu
  apply hmax u (v ++ x) _ hu
  rw [← List.append_assoc, huv, List.append_assoc]

theorem OpensComment.append {s : Text} (h : OpensComment s) (x : Text) : OpensComment (s ++ x) := by
  obtain ⟨r, rfl | rfl⟩ := h
  · exact ⟨r ++ x, .inl rfl⟩
  · exact ⟨r ++ x, .inr rfl⟩

end Category

theorem Lexeme.firstIn_of_append {start : Nat} {r x : Text} {order : List Category} {l : Lexeme}
    (ho : Category.CommentsFirst order)
    (h : firstIn start (l.text ++ (r ++ x)) order = .ok l) :
    firstIn start (l.text ++ r) order = .ok l := by
  obtain ⟨hlong, hop, hspan⟩ := (firstIn_eq_ok_iff_isLongest ho).mp h
  apply (firstIn_eq_ok_iff_isLongest ho).mpr
  refine ⟨hlong.of_append, ?_, hspan⟩
  intro hc hopens
  apply hop hc
  rw [← List.append_assoc]
  exact hopens.append x

namespace Scan

theorem Runs.split {order : List Category} {start : Nat} {rest : Text} {front back : List Lexeme}
    {failure? : Option Diagnostic} (ho : Category.CommentsFirst order)
    (h : Runs order start rest (front ++ back) failure?) :
    ∃ s t, rest = s ++ t ∧ Lexeme.Tile start s front ∧ Runs order start s front none ∧
      Runs order (start + s.length) t back failure? := by
  induction front generalizing start rest with
  | nil => exact ⟨[], rest, rfl, .nil, .done, h⟩
  | cons l front ih =>
    cases h with
    | @lexeme _ rest _ _ hl htail =>
      obtain ⟨s, t, rfl, htile, hfront, hback⟩ := ih htail
      obtain ⟨-, -, hstop⟩ := Lexeme.firstIn_ok hl
      refine ⟨l.text ++ s, t, (List.append_assoc ..).symm,
        .cons (Lexeme.firstIn_split hl).1 hstop htile,
        .lexeme (Lexeme.firstIn_of_append ho hl) hfront, ?_⟩
      rwa [List.length_append, ← Nat.add_assoc, ← hstop]

theorem Runs.start_lt_stop {order : List Category} {start : Nat} {rest : Text} {ls : List Lexeme}
    {failure? : Option Diagnostic} (h : Runs order start rest ls failure?) :
    ∀ l ∈ ls, start < l.stop := by
  obtain ⟨covered, left, -, htile, -⟩ := h.tile
  intro l hl
  have := htile.bounds l hl
  omega

theorem filter_stop {order : List Category} {start : Nat} {s t : Text} {front back : List Lexeme}
    {failure? : Option Diagnostic} (hfront : Lexeme.Tile start s front)
    (hback : Runs order (start + s.length) t back failure?) :
    (front ++ back).filter (fun l => l.stop ≤ start + s.length) = front ∧
      (front ++ back).filter (fun l => start + s.length < l.stop) = back := by
  have hle : ∀ l ∈ front, l.stop ≤ start + s.length := fun l hl => (hfront.bounds l hl).2.2
  have hlt := hback.start_lt_stop
  rw [List.filter_append, List.filter_append]
  constructor
  · rw [List.filter_eq_self.mpr (by simpa using hle),
      List.filter_eq_nil_iff.mpr (by simpa using hlt), List.append_nil]
  · rw [List.filter_eq_nil_iff.mpr (by simpa using hle),
      List.filter_eq_self.mpr (by simpa using hlt), List.nil_append]

end Scan

namespace Lexeme

def IsBoundary (ls : List Lexeme) (k : Nat) : Prop := k = 0 ∨ ∃ l ∈ ls, l.stop = k

theorem IsBoundary.append {ls : List Lexeme} {k : Nat} (h : IsBoundary ls k) (ks : List Lexeme) :
    IsBoundary (ls ++ ks) k := by
  rcases h with rfl | ⟨l, hl, rfl⟩
  · exact .inl rfl
  · exact .inr ⟨l, List.mem_append_left ks hl, rfl⟩

theorem IsBoundary.exists_append {ls : List Lexeme} {k : Nat} (h : IsBoundary ls k) :
    ∃ front back, ls = front ++ back ∧ ∀ s, Tile 0 s front → s.length = k := by
  rcases h with rfl | ⟨l, hl, rfl⟩
  · refine ⟨[], ls, rfl, ?_⟩
    intro s hs
    rw [← hs.texts]
    rfl
  · obtain ⟨front, back, rfl⟩ := List.append_of_mem hl
    refine ⟨front ++ [l], back, by simp, ?_⟩
    intro s hs
    have hstop := hs.stop_eq_of_getLast? l (by simp)
    omega

theorem Tile.isBoundary {s : Text} {ls : List Lexeme} (h : Tile 0 s ls) :
    IsBoundary ls s.length := by
  cases hlast : ls.getLast? with
  | none =>
    rw [List.getLast?_eq_none_iff] at hlast
    subst hlast
    rw [← h.texts]
    exact .inl rfl
  | some l =>
    have hstop := h.stop_eq_of_getLast? l hlast
    rw [Nat.zero_add] at hstop
    exact .inr ⟨l, List.mem_of_getLast? hlast, hstop⟩

end Lexeme

theorem Scan.Runs.split_at {order : List Category} {source : Text} {ls : List Lexeme}
    {failure? : Option Diagnostic} {k : Nat} (ho : Category.CommentsFirst order)
    (h : Runs order 0 source ls failure?) (hk : Lexeme.IsBoundary ls k) :
    Runs order 0 (source.take k) (ls.filter fun l => l.stop ≤ k) none ∧
      Runs order k (source.drop k) (ls.filter fun l => k < l.stop) failure? := by
  obtain ⟨front, back, rfl, hlength⟩ := hk.exists_append
  obtain ⟨s, t, rfl, htile, hfront, hback⟩ := h.split ho
  obtain ⟨hle, hlt⟩ := filter_stop htile hback
  obtain rfl := hlength s htile
  rw [Nat.zero_add] at hle hlt hback
  rw [hle, hlt, List.take_left, List.drop_left]
  exact ⟨hfront, hback⟩

theorem Scan.Runs.unique {order : List Category} {start : Nat} {rest : Text}
    {ls ls' : List Lexeme} {failure? failure?' : Option Diagnostic}
    (h : Runs order start rest ls failure?) (h' : Runs order start rest ls' failure?') :
    ls = ls' ∧ failure? = failure?' := by
  have heq := h.fromIn_eq.symm.trans h'.fromIn_eq
  exact ⟨congrArg Scan.lexemes heq, congrArg Scan.failure? heq⟩

theorem Cursor.drain_map_shift {k : Nat} {rest : Text} {ls : List Lexeme}
    {failure? : Option Diagnostic} (h : Scan.Runs Category.priority k rest ls failure?) :
    (ofText rest).drain.1.map
        (fun r => (r.map (Lexeme.shift k)).mapError (Diagnostic.shift k)) =
      ls.map .ok ++ failure?.toList.map .error := by
  obtain ⟨ls', failure?', hdrain, hruns⟩ := exists_drain_eq rest
  have hshift := hruns.shift k
  rw [Nat.zero_add] at hshift
  obtain ⟨rfl, rfl⟩ := h.unique hshift
  rw [hdrain, List.map_append, List.map_map, List.map_map, List.map_map]
  cases failure?' <;> rfl

theorem tokenize_of_finite {source : Text} (left : Text) {ls : List Lexeme}
    (h : Scan.Runs Category.priority 0 source ls none)
    (hall : ∀ l ∈ ls, l.category = .number → l.IsFiniteNumber) :
    ∃ ts, tokenize source = .ok ts ∧
      List.Forall₂ (Token.StandsFor (source ++ left)) ts (ls.filter fun l => !l.isTrivia) := by
  cases ht : tokenize source with
  | error e =>
    have hfailure := (tokenize_eq_error_iff h e).mp ht
    exact absurd hfailure (Lexeme.not_firstFailure rfl hall e)
  | ok ts =>
    obtain ⟨covered, rest, rfl, htile, hnone, -⟩ := h.tile
    rw [hnone rfl, List.append_nil] at h ht ⊢
    rw [tokenize_eq_ofLexemes h] at ht
    refine ⟨ts, rfl, ?_⟩
    have hlexemes : ∀ l ∈ ls, l.category.Language l.text ∧
        l.text = (covered ++ left).slice l.start l.stop := by
      intro l hl
      exact ⟨h.language l hl, htile.text_eq_slice [] left rfl l hl⟩
    exact ((Token.ofLexemes_eq_ok_iff hlexemes ts).mp ht).2.2

theorem Lexeme.FirstFailure.isBoundary {source : Text} {ls : List Lexeme}
    {failure? : Option Diagnostic} {e : Diagnostic}
    (hruns : Scan.Runs Category.priority 0 source ls failure?) (h : FirstFailure failure? ls e) :
    IsBoundary ls e.location.start ∧ ∀ l ∈ ls, l.stop ≤ e.location.start →
      l.category = .number → l.IsFiniteNumber := by
  rcases h with ⟨front, l, back, rfl, hall, -, -, rfl⟩ | ⟨hall, rfl⟩
  · obtain ⟨s, t, rfl, htile, -, hback⟩ := hruns.split Category.priority_commentsFirst
    obtain ⟨hfilter, -⟩ := Scan.filter_stop htile hback
    have hstart : l.start = s.length := by
      obtain ⟨_, _, -, hrest, -⟩ := hback.tile
      rw [hrest.start_eq_of_head? l rfl, Nat.zero_add]
    constructor
    · change IsBoundary (front ++ l :: back) l.start
      rw [hstart]
      exact htile.isBoundary.append (l :: back)
    · intro k hk hstop
      change k.stop ≤ l.start at hstop
      have hle : k.stop ≤ 0 + s.length := by omega
      apply hall k
      rw [← hfilter, List.mem_filter]
      exact ⟨hk, decide_eq_true hle⟩
  · refine ⟨?_, fun l hl _ => hall l hl⟩
    obtain ⟨covered, left, rfl, htile, -, hsome⟩ := hruns.tile
    rw [firstIn_error_start (hsome e rfl).2, Nat.zero_add]
    exact htile.isBoundary

theorem Cursor.drain_cut (source : Text) : ∃ (ls : List Lexeme) (failure? : Option Diagnostic),
    (ofText source).drain.1 = ls.map .ok ++ failure?.toList.map .error ∧
      (∀ k, Lexeme.IsBoundary ls k →
        (ofText (source.take k)).drain.1 = (ls.filter fun l => l.stop ≤ k).map .ok ∧
        (ofText (source.drop k)).drain.1.map
            (fun r => (r.map (Lexeme.shift k)).mapError (Diagnostic.shift k)) =
          (ls.filter fun l => k < l.stop).map .ok ++ failure?.toList.map .error) ∧
      ∀ e, tokenize source = .error e →
        ∃ ts, tokenize (source.take e.location.start) = .ok ts ∧
          List.Forall₂ (Token.StandsFor source) ts
            ((ls.filter fun l => l.stop ≤ e.location.start).filter fun l => !l.isTrivia) := by
  have ho := Category.priority_commentsFirst
  obtain ⟨ls, failure?, hdrain, hruns⟩ := exists_drain_eq source
  refine ⟨ls, failure?, hdrain, ?_, ?_⟩
  · intro k hk
    obtain ⟨hfront, hback⟩ := hruns.split_at ho hk
    exact ⟨drain_eq_map_ok_iff.mpr hfront, drain_map_shift hback⟩
  · intro e he
    obtain ⟨hk, hall⟩ := ((tokenize_eq_error_iff hruns e).mp he).isBoundary hruns
    obtain ⟨hfront, -⟩ := hruns.split_at ho hk
    have hfinite : ∀ l ∈ ls.filter (fun l => l.stop ≤ e.location.start),
        l.category = .number → l.IsFiniteNumber := by
      intro l hl
      obtain ⟨hmem, hstop⟩ := List.mem_filter.mp hl
      exact hall l hmem (of_decide_eq_true hstop)
    have htokens := tokenize_of_finite (source.drop e.location.start) hfront hfinite
    rwa [List.take_append_drop] at htokens

end ScriptLexer
