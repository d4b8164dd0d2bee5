import Mathlib.Algebra.Order.Ring.Nat
import ScriptLexer.Lexeme.Cursor

namespace ScriptLexer

namespace Lexeme

theorem opening?_kind {c : Category} {o : Opening} (h : c.opening? = some o) :
    o.kind ≠ .unrecognizedCharacter := by
  cases c with
  | blockComment => rw [← Option.some.inj h]; decide
  | string => rw [← Option.some.inj h]; decide
  | _ => cases h

theorem firstIn_error_unrecognized {start : Nat} {rest : Text} {order : List Category}
    {d : Diagnostic} (h : firstIn start rest order = .error d)
    (hk : d.kind = .unrecognizedCharacter) :
    d = unrecognized (rest.headD '\uFFFD') start := by
  induction order with
  | nil => exact (Except.error.inj h).symm
  | cons c order ih =>
    rw [firstIn_cons] at h
    split at h
    · cases h
    · split at h
      · rename_i o ho
        obtain rfl := Except.error.inj h
        exact absurd hk (opening?_kind (Option.filter_eq_some_iff.mp ho).1)
      · exact ih h

end Lexeme

namespace Cursor

inductive Reachable (source : Text) : Cursor → Prop where
  | start : Reachable source (ofText source)
  | next {c : Cursor} : Reachable source c → Reachable source c.next.2

/-- By both counters the cursor stands in the source between two texts. -/
structure Between (source before rest : Text) (c : Cursor) : Prop where
  source_eq : c.source = source
  append_eq : before ++ rest = source
  offset_eq : c.offset = before.byteLength
  position_eq : c.position = before.length

variable {source before rest : Text} {c : Cursor}

theorem Between.remaining? (h : Between source before rest c) : c.remaining? = some rest := by
  rw [Cursor.remaining?, h.source_eq, h.offset_eq, ← h.append_eq, Text.dropBytes?_append]

theorem Between.takeBytes? (h : Between source before rest c) :
    source.takeBytes? c.offset = some before := by
  rw [h.offset_eq, ← h.append_eq, Text.takeBytes?_append]

theorem Between.advance {l : Lexeme} (h : Between source before (l.text ++ rest) c)
    (hl : l.stop = c.position + l.text.length) :
    Between source (before ++ l.text) rest (c.advance l) where
  source_eq := h.source_eq
  append_eq := by rw [List.append_assoc, h.append_eq]
  offset_eq := by rw [Cursor.advance, h.offset_eq, Text.byteLength_append]
  position_eq := by rw [Cursor.advance, hl, h.position_eq, List.length_append]

theorem Between.next_cases (h : Between source before rest c) :
    ((c.failed = true ∨ rest = []) ∧ c.next = (none, c)) ∨
    (∃ l after, c.failed = false ∧ rest = l.text ++ after ∧
      Lexeme.firstIn c.position rest Category.priority = .ok l ∧
      c.next = (some (.ok l), c.advance l) ∧
      Between source (before ++ l.text) after (c.advance l)) ∨
    (∃ d, c.failed = false ∧ rest ≠ [] ∧
      Lexeme.firstIn c.position rest Category.priority = .error d ∧
      c.next = (some (.error d), { c with failed := true })) := by
  cases hf : c.failed with
  | true => exact .inl ⟨.inl rfl, nextIn_of_failed hf⟩
  | false =>
    by_cases hr : rest = []
    · exact .inl ⟨.inr hr, nextIn_of_nil (hr ▸ h.remaining?)⟩
    · cases hl : Lexeme.firstIn c.position rest Category.priority with
      | error d => exact .inr (.inr ⟨d, rfl, hr, rfl, nextIn_of_error hf h.remaining? hr hl⟩)
      | ok l =>
        have hnext := nextIn_of_ok hf h.remaining? hr hl
        obtain ⟨-, -, hstop⟩ := Lexeme.firstIn_ok hl
        obtain ⟨-, after, rfl⟩ := Lexeme.firstIn_split hl
        exact .inr (.inl ⟨l, after, rfl, rfl, rfl, hnext, h.advance hstop⟩)

theorem Between.next (h : Between source before rest c) :
    ∃ before rest, Between source before rest c.next.2 := by
  rcases h.next_cases with ⟨-, hn⟩ | ⟨l, after, -, -, -, hn, hb⟩ | ⟨d, -, -, -, hn⟩
  · rw [hn]
    exact ⟨before, rest, h⟩
  · rw [hn]
    exact ⟨_, _, hb⟩
  · rw [hn]
    exact ⟨before, rest, h.source_eq, h.append_eq, h.offset_eq, h.position_eq⟩

theorem Reachable.between (h : Reachable source c) :
    ∃ before rest, Between source before rest c := by
  induction h with
  | start => exact ⟨[], source, rfl, rfl, rfl, rfl⟩
  | next _ ih =>
    obtain ⟨before, rest, hb⟩ := ih
    exact hb.next

theorem Between.offset_add (h : Between source before rest c) :
    c.offset + rest.byteLength = source.byteLength := by
  rw [h.offset_eq, ← h.append_eq, Text.byteLength_append]

theorem Between.position_add (h : Between source before rest c) :
    c.position + rest.length ≤ source.byteLength := by
  have hl := Text.length_le_byteLength source
  have hp := h.position_eq
  have hs := congrArg List.length h.append_eq
  rw [List.length_append] at hs
  omega

theorem Between.matchLength? (h : Between source before rest c) {k : Category} {length : Nat}
    (hk : k.matchLength? rest = some length) : ∃ t, k.recognize? rest = some t ∧
      rest.takeBytes? length = some t ∧ c.offset + length ≤ source.byteLength ∧
      c.position + t.length ≤ source.byteLength := by
  obtain ⟨t, ht, rfl⟩ := Option.map_eq_some_iff.mp hk
  refine ⟨t, ht, Category.takeBytes?_recognize? ht, ?_⟩
  have hoffset := h.offset_add
  have hposition := h.position_add
  obtain ⟨-, r, rfl⟩ := Category.recognize?_split ht
  rw [Text.byteLength_append] at hoffset
  rw [List.length_append] at hposition
  omega

theorem Between.firstIn_of_next (h : Between source before rest c) {r : Except Diagnostic Lexeme}
    (hr : c.next.1 = some r) :
    rest ≠ [] ∧ Lexeme.firstIn c.position rest Category.priority = r := by
  rcases h.next_cases with ⟨-, hn⟩ | ⟨l, after, -, rfl, hl, hn, -⟩ | ⟨d, -, hne, hd, hn⟩
  · rw [hn] at hr
    cases hr
  · rw [hn] at hr
    obtain rfl := Option.some.inj hr
    exact ⟨Lexeme.ne_nil_of_firstIn hl, hl⟩
  · rw [hn] at hr
    obtain rfl := Option.some.inj hr
    exact ⟨hne, hd⟩

theorem Between.head? (h : Between source before rest c) {r : Except Diagnostic Lexeme}
    (hr : c.next.1 = some r) : ∃ a, rest.head? = some a ∧
      ∀ d, r = .error d → d.kind = .unrecognizedCharacter →
        d = Lexeme.unrecognized a c.position := by
  obtain ⟨hne, hfirst⟩ := h.firstIn_of_next hr
  obtain ⟨a, tail, rfl⟩ := List.exists_cons_of_ne_nil hne
  refine ⟨a, rfl, ?_⟩
  rintro d rfl hd
  exact Lexeme.firstIn_error_unrecognized hfirst hd

theorem Between.next_error (h : Between source before rest c) {d : Diagnostic}
    (hd : c.next.1 = some (.error d)) :
    c.next.2.offset = c.offset ∧ c.next.2.position = c.position := by
  rcases h.next_cases with ⟨-, hn⟩ | ⟨l, after, -, -, -, hn, -⟩ | ⟨e, -, -, -, hn⟩
  · rw [hn] at hd
    cases hd
  · rw [hn] at hd
    cases hd
  · rw [hn]
    exact ⟨rfl, rfl⟩

theorem reachable_inStep {source : Text} {c : Cursor} (h : Reachable source c) :
    c.offset ≤ source.byteLength ∧
      (∃ before, source.takeBytes? c.offset = some before ∧ c.position = before.length) ∧
      ∃ rest, c.remaining? = some rest ∧
        (∀ (k : Category) (length : Nat), k.matchLength? rest = some length →
          ∃ t, k.recognize? rest = some t ∧ rest.takeBytes? length = some t ∧
            (source.byteLength < 2 ^ 63 →
              c.offset + length < 2 ^ 64 ∧ c.position + t.length < 2 ^ 64)) ∧
        (∀ r, c.next.1 = some r → ∃ a, rest.head? = some a ∧
          ∀ d, r = .error d → d.kind = .unrecognizedCharacter →
            d = Lexeme.unrecognized a c.position) ∧
        (source.byteLength < 2 ^ 63 →
          c.position + rest.length < 2 ^ 64 ∧ c.position + 1 < 2 ^ 64) ∧
        ∀ d, c.next.1 = some (.error d) →
          c.next.2.offset = c.offset ∧ c.next.2.position = c.position := by
  obtain ⟨before, rest, hb⟩ := h.between
  have hoffset := hb.offset_add
  have hposition := hb.position_add
  refine ⟨by omega, ⟨before, hb.takeBytes?, hb.position_eq⟩, rest, hb.remaining?, ?_, ?_, ?_, ?_⟩
  · intro k length hk
    obtain ⟨t, ht, hcut, ho, hp⟩ := hb.matchLength? hk
    exact ⟨t, ht, hcut, fun hs => ⟨by omega, by omega⟩⟩
  · intro r hr
    exact hb.head? hr
  · intro hs
    exact ⟨by omega, by omega⟩
  · intro d hd
    exact hb.next_error hd

theorem reachable_inStep_accent :
    Reachable ['\x22', 'é', '\x22', '#'] ⟨['\x22', 'é', '\x22', '#'], 4, 3, false⟩ ∧
      ∃ before, Text.takeBytes? ['\x22', 'é', '\x22', '#'] 4 = some before ∧ 3 = before.length := by
  have h : Reachable ['\x22', 'é', '\x22', '#'] ⟨['\x22', 'é', '\x22', '#'], 4, 3, false⟩ :=
    .next .start
  exact ⟨h, (reachable_inStep h).2.1⟩

end Cursor

end ScriptLexer
