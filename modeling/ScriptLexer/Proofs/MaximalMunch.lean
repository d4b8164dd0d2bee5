import ScriptLexer.Proofs.LongestMatch

namespace ScriptLexer

theorem Text.takeBytes?_of_prefix {s t : Text} (h : t <+: s) :
    s.takeBytes? t.byteLength = some t := by
  obtain ⟨r, rfl⟩ := h
  exact takeBytes?_append t r

theorem Text.eq_of_byteLength_eq {s t u : Text} (ht : t <+: s) (hu : u <+: s)
    (h : t.byteLength = u.byteLength) : t = u := by
  have hcut := takeBytes?_of_prefix ht
  rw [h, takeBytes?_of_prefix hu] at hcut
  exact (Option.some.inj hcut).symm

namespace Punctuator

theorem longestIn?_byteLength_le {marks : List Text} {limit : Nat} {s t : Text}
    (h : longestIn? marks limit s = some t) : t.byteLength ≤ limit := by
  induction limit with
  | zero => simp [longestIn?] at h
  | succ limit ih =>
    rw [longestIn?] at h
    split at h
    · rename_i candidate hcut
      split at h
      · obtain rfl := Option.some.inj h
        obtain ⟨-, -, hlength⟩ := Text.exists_append_of_takeBytes? hcut
        exact Nat.le_of_eq hlength
      · exact Nat.le_succ_of_le (ih h)
    · exact Nat.le_succ_of_le (ih h)

theorem longestIn?_of_prefix {marks : List Text} {limit : Nat} {s u : Text} (hnil : [] ∉ marks)
    (hu : u ∈ marks) (hs : u <+: s) (hl : u.byteLength ≤ limit) :
    ∃ t, longestIn? marks limit s = some t ∧ u.byteLength ≤ t.byteLength := by
  obtain ⟨r, rfl⟩ := hs
  apply longestIn?_append hu _ hl
  rintro rfl
  exact hnil hu

theorem longestIn?_eq_some_iff {marks : List Text} {limit : Nat} {s t : Text}
    (hnil : [] ∉ marks) : longestIn? marks limit s = some t ↔
      t ∈ marks ∧ t <+: s ∧ t.byteLength ≤ limit ∧
        ∀ u ∈ marks, u <+: s → u.byteLength ≤ limit → u.byteLength ≤ t.byteLength := by
  have hsound : ∀ t, longestIn? marks limit s = some t → t ∈ marks ∧ t <+: s ∧
      t.byteLength ≤ limit ∧
        ∀ u ∈ marks, u <+: s → u.byteLength ≤ limit → u.byteLength ≤ t.byteLength := by
    intro t h
    obtain ⟨ht, -, r, hr⟩ := longestIn?_split h
    refine ⟨ht, ⟨r, hr.symm⟩, longestIn?_byteLength_le h, ?_⟩
    intro u hu hs hl
    obtain ⟨t', ht', hle⟩ := longestIn?_of_prefix hnil hu hs hl
    obtain rfl := Option.some.inj (h.symm.trans ht')
    exact hle
  constructor
  · exact hsound t
  · rintro ⟨ht, hs, hl, hmax⟩
    obtain ⟨t', ht', hle⟩ := longestIn?_of_prefix hnil ht hs hl
    obtain ⟨hmem, hs', hl', -⟩ := hsound t' ht'
    have hge := hmax t' hmem hs' hl'
    rw [ht', Text.eq_of_byteLength_eq hs' hs (Nat.le_antisymm hge hle)]

theorem longestIn?_eq_none_iff {marks : List Text} {limit : Nat} {s : Text} (hnil : [] ∉ marks) :
    longestIn? marks limit s = none ↔ ∀ u ∈ marks, u <+: s → limit < u.byteLength := by
  constructor
  · intro h u hu hs
    by_contra hl
    obtain ⟨t, ht, -⟩ := longestIn?_of_prefix hnil hu hs (Nat.not_lt.mp hl)
    rw [h] at ht
    cases ht
  · intro h
    cases ht : longestIn? marks limit s with
    | none => rfl
    | some t =>
      obtain ⟨hmem, hs, hl, -⟩ := (longestIn?_eq_some_iff hnil).mp ht
      exact absurd hl (Nat.not_le.mpr (h t hmem hs))

theorem longestIn?_perm {marks marks' : List Text} (h : marks.Perm marks') (limit : Nat)
    (s : Text) : longestIn? marks limit s = longestIn? marks' limit s := by
  induction limit with
  | zero => rfl
  | succ limit ih => simp only [longestIn?, h.mem_iff, ih]

theorem longest_mark_exact (s : Text) :
    (∀ mark, longest? s = some mark ↔
      mark ∈ table ∧ mark <+: s ∧ ∀ u ∈ table, u <+: s → ¬mark.length < u.length) ∧
    (longest? s = none ↔ ∀ u ∈ table, ¬u <+: s) ∧
    (∀ marks : List Text, marks.Perm table → longestIn? marks maxBytes s = longest? s) ∧
    ∀ u ∈ table, u <+: s → 1 ≤ u.byteLength ∧ u.byteLength ≤ maxBytes ∧
      s.takeBytes? u.byteLength = some u ∧ ∃ mark ∈ longest? s, u.length ≤ mark.length := by
  refine ⟨?_, ?_, ?_, ?_⟩
  · intro mark
    rw [longest?, longestIn?_eq_some_iff nil_notMem_table]
    constructor
    · rintro ⟨hmark, hs, -, hmax⟩
      refine ⟨hmark, hs, ?_⟩
      intro u hu hus
      have hle := hmax u hu hus (byteLength_le_maxBytes u hu)
      rw [byteLength_eq_length u hu, byteLength_eq_length mark hmark] at hle
      exact Nat.not_lt.mpr hle
    · rintro ⟨hmark, hs, hmax⟩
      refine ⟨hmark, hs, byteLength_le_maxBytes mark hmark, ?_⟩
      intro u hu hus _
      rw [byteLength_eq_length u hu, byteLength_eq_length mark hmark]
      exact Nat.not_lt.mp (hmax u hu hus)
  · rw [longest?, longestIn?_eq_none_iff nil_notMem_table]
    constructor
    · intro h u hu hus
      exact absurd (byteLength_le_maxBytes u hu) (Nat.not_le.mpr (h u hu hus))
    · intro h u hu hus
      exact absurd hus (h u hu)
  · intro marks hmarks
    exact longestIn?_perm hmarks maxBytes s
  · rintro u hu hus
    have hne : u ≠ [] := ne_of_mem_of_not_mem hu nil_notMem_table
    refine ⟨Text.byteLength_pos hne, byteLength_le_maxBytes u hu, Text.takeBytes?_of_prefix hus, ?_⟩
    obtain ⟨r, rfl⟩ := hus
    exact longest?_append hu r

theorem longest_mark_exact_wide :
    let s := ['>', '>', '\u2028', '=']
    Text.takeBytes? s 4 = none ∧ Text.takeBytes? s 3 = none ∧ longest? s = some ['>', '>'] ∧
      longestIn? table.reverse maxBytes s = some ['>', '>'] ∧
      Text.takeBytes? s 2 = some ['>', '>'] := by
  obtain ⟨hsome, -, hperm, hprefix⟩ := longest_mark_exact ['>', '>', '\u2028', '=']
  have hlongest := (hsome ['>', '>']).mpr ⟨by decide, by decide, by decide⟩
  have hreverse := (hperm table.reverse (List.reverse_perm table)).trans hlongest
  have hcut := hprefix ['>', '>'] (by decide) (by decide)
  exact ⟨by decide, by decide, hlongest, hreverse, hcut.2.2.1⟩

end Punctuator

end ScriptLexer
