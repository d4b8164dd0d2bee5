import Mathlib.Data.List.Chain
import ScriptLexer.Proofs.ScanRun

namespace ScriptLexer

def Text.slice (s : Text) (start stop : Nat) : Text := (s.take stop).drop start

theorem Text.slice_append (s t r : Text) :
    slice (s ++ (t ++ r)) s.length (s.length + t.length) = t := by
  rw [slice, List.take_length_add_append, List.take_left, List.drop_left]

theorem Text.length_slice {s : Text} {start stop : Nat} (h : stop ≤ s.length) :
    (slice s start stop).length = stop - start := by
  rw [slice, List.length_drop, List.length_take_of_le h]

namespace Lexeme

inductive Tile : Nat → Text → List Lexeme → Prop where
  | nil {start : Nat} : Tile start [] []
  | cons {l : Lexeme} {s : Text} {ls : List Lexeme} :
      l.text ≠ [] → l.stop = l.start + l.text.length → Tile l.stop s ls →
      Tile l.start (l.text ++ s) (l :: ls)

namespace Tile

theorem texts {start : Nat} {s : Text} {ls : List Lexeme} (h : Tile start s ls) :
    ls.flatMap Lexeme.text = s := by
  induction h with
  | nil => rfl
  | cons _ _ _ ih => rw [List.flatMap_cons, ih]

theorem start_eq_of_head? {start : Nat} {s : Text} {ls : List Lexeme} (h : Tile start s ls) :
    ∀ l ∈ ls.head?, l.start = start := by
  cases h with
  | nil => simp
  | cons => simp

theorem isChain {start : Nat} {s : Text} {ls : List Lexeme} (h : Tile start s ls) :
    ls.IsChain fun l k => k.start = l.stop := by
  induction h with
  | nil => exact .nil
  | cons _ _ htail ih => exact ih.cons htail.start_eq_of_head?

theorem stop_eq_of_getLast? {start : Nat} {s : Text} {ls : List Lexeme} (h : Tile start s ls) :
    ∀ l ∈ ls.getLast?, l.stop = start + s.length := by
  induction h with
  | nil => simp
  | @cons l s ls _ hstop htail ih =>
    intro k hk
    cases ls with
    | nil =>
      obtain rfl : l = k := by simpa using hk
      obtain rfl := htail.texts
      simp [hstop]
    | cons =>
      rw [List.getLast?_cons_cons] at hk
      rw [ih k hk, hstop, List.length_append]
      omega

theorem bounds {start : Nat} {s : Text} {ls : List Lexeme} (h : Tile start s ls) :
    ∀ l ∈ ls, start ≤ l.start ∧ l.start < l.stop ∧ l.stop ≤ start + s.length := by
  induction h with
  | nil => simp
  | @cons l s ls hne hstop _ ih =>
    have hl := List.length_pos_iff.mpr hne
    intro k hk
    rw [List.length_append]
    rcases List.mem_cons.mp hk with rfl | hk
    · omega
    · have := ih k hk
      omega

theorem pairwise {start : Nat} {s : Text} {ls : List Lexeme} (h : Tile start s ls) :
    ls.Pairwise fun l k => l.stop ≤ k.start := by
  induction h with
  | nil => exact .nil
  | cons _ _ htail ih => exact .cons (fun k hk => (htail.bounds k hk).1) ih

theorem exists_mem {start : Nat} {s : Text} {ls : List Lexeme} (h : Tile start s ls) {i : Nat}
    (hl : start ≤ i) (hu : i < start + s.length) : ∃ l ∈ ls, l.start ≤ i ∧ i < l.stop := by
  induction h with
  | nil =>
    simp only [List.length_nil] at hu
    omega
  | @cons l s ls _ hstop _ ih =>
    by_cases hi : i < l.stop
    · exact ⟨l, List.mem_cons_self, hl, hi⟩
    · rw [List.length_append] at hu
      obtain ⟨k, hk, hki⟩ := ih (by omega) (by omega)
      exact ⟨k, List.mem_cons_of_mem l hk, hki⟩

theorem text_eq_slice {start : Nat} {s : Text} {ls : List Lexeme} (h : Tile start s ls)
    (before after : Text) (hb : before.length = start) :
    ∀ l ∈ ls, l.text = Text.slice (before ++ (s ++ after)) l.start l.stop := by
  induction h generalizing before with
  | nil => simp
  | @cons l s ls _ hstop _ ih =>
    intro k hk
    rcases List.mem_cons.mp hk with rfl | hk
    · rw [hstop, ← hb, List.append_assoc, Text.slice_append]
    · have hlength : (before ++ l.text).length = l.stop := by rw [List.length_append, hb, hstop]
      have hslice := ih (before ++ l.text) hlength k hk
      rwa [List.append_assoc, ← List.append_assoc l.text] at hslice

end Tile

theorem firstIn_error_start {start : Nat} {rest : Text} {order : List Category} {d : Diagnostic}
    (h : firstIn start rest order = .error d) : d.location.start = start := by
  induction order with
  | nil =>
    obtain rfl := Except.error.inj h
    rfl
  | cons c order ih =>
    rw [firstIn_cons] at h
    split at h
    · cases h
    · split at h
      · obtain rfl := Except.error.inj h
        rfl
      · exact ih h

end Lexeme

theorem Scan.Runs.tile {order : List Category} {start : Nat} {rest : Text} {ls : List Lexeme}
    {failure? : Option Diagnostic} (h : Runs order start rest ls failure?) :
    ∃ covered left, rest = covered ++ left ∧ Lexeme.Tile start covered ls ∧
      (failure? = none → left = []) ∧
      ∀ d ∈ failure?, left ≠ [] ∧
        Lexeme.firstIn (start + covered.length) left order = .error d := by
  induction h with
  | done => exact ⟨[], [], rfl, .nil, fun _ => rfl, by simp⟩
  | @stopped start rest d hr hd =>
    refine ⟨[], rest, rfl, .nil, by simp, ?_⟩
    intro e he
    obtain rfl := Option.mem_some_iff.mp he
    exact ⟨hr, hd⟩
  | @lexeme l rest ls failure? hl _ ih =>
    obtain ⟨covered, left, rfl, htile, hnone, hsome⟩ := ih
    obtain ⟨-, -, hstop⟩ := Lexeme.firstIn_ok hl
    refine ⟨l.text ++ covered, left, (List.append_assoc ..).symm,
      .cons (Lexeme.firstIn_split hl).1 hstop htile, hnone, ?_⟩
    intro d hd
    rw [List.length_append, ← Nat.add_assoc, ← hstop]
    exact hsome d hd

namespace Cursor

theorem drain_covers (source : Text) : ∃ ls failure?,
    (ofText source).drain.1 = ls.map .ok ++ failure?.toList.map .error ∧
      (∀ l ∈ ls.head?, l.start = 0) ∧ ls.IsChain (fun l k => k.start = l.stop) ∧
      (∀ l ∈ ls, l.start < l.stop ∧ l.stop ≤ source.length ∧
        l.text = source.slice l.start l.stop) ∧
      (failure? = none → (∀ l ∈ ls.getLast?, l.stop = source.length) ∧
        (ls = [] ↔ source = []) ∧ ls.flatMap Lexeme.text = source) ∧
      ∀ d ∈ failure?, ∃ left, left ≠ [] ∧ source = ls.flatMap Lexeme.text ++ left ∧
        (ls.flatMap Lexeme.text).length = d.location.start := by
  obtain ⟨ls, failure?, hdrain, hruns⟩ := exists_drain_eq source
  obtain ⟨covered, left, rfl, htile, hnone, hsome⟩ := hruns.tile
  refine ⟨ls, failure?, hdrain, htile.start_eq_of_head?, htile.isChain, ?_, ?_, ?_⟩
  · intro l hl
    obtain ⟨-, hlt, hle⟩ := htile.bounds l hl
    refine ⟨hlt, ?_, htile.text_eq_slice [] left rfl l hl⟩
    rw [List.length_append]
    omega
  · intro hf
    rw [hnone hf, List.append_nil]
    refine ⟨by simpa using htile.stop_eq_of_getLast?, ?_, htile.texts⟩
    constructor
    · rintro rfl
      exact htile.texts.symm
    · rintro rfl
      cases ls with
      | nil => rfl
      | cons l ls =>
        have := htile.bounds l List.mem_cons_self
        simp only [List.length_nil] at this
        omega
  · intro d hd
    obtain ⟨hleft, herror⟩ := hsome d hd
    rw [htile.texts, Lexeme.firstIn_error_start herror]
    exact ⟨left, hleft, rfl, by omega⟩

end Cursor

end ScriptLexer
