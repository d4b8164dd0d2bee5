import ScriptLexer.Proofs.ListedTokens
import ScriptLexer.Proofs.Places

namespace ScriptLexer

namespace Text

theorem lines_flatMap {rows : List Text} (h : ∀ row ∈ rows, '\n' ∉ row) :
    lines (rows.flatMap (· ++ ['\n'])) = rows ++ [[]] := by
  induction rows with
  | nil => rfl
  | cons row rows ih =>
    obtain ⟨hrow, hrows⟩ := List.forall_mem_cons.mp h
    have ih := ih hrows
    rw [lines] at ih ⊢
    rw [List.flatMap_cons, List.append_assoc, List.singleton_append,
      List.splitOn_append_cons_self_of_not_mem hrow, ih, List.cons_append]

theorem lines_flatMap_iff {rows : List Text} :
    lines (rows.flatMap (· ++ ['\n'])) = rows ++ [[]] ↔ ∀ row ∈ rows, '\n' ∉ row := by
  constructor
  · intro h row hrow
    apply notMem_of_mem_splitOn (s := rows.flatMap (· ++ ['\n']))
    rw [← lines, h]
    exact List.mem_append_left _ hrow
  · exact lines_flatMap

end Text

namespace Token

theorem lineFeed_mem_text_iff (t : Token) : '\n' ∈ t.text ↔ '\n' ∈ t.value.text := by
  have hlabel : '\n' ∉ t.kind.label := by
    cases t.kind <;> decide
  have hoffset (n : Nat) : '\n' ∉ Text.ofNat n := Text.notMem_ofNat (by decide) n
  simp [text, hlabel, hoffset]

theorem Legible.lineFeed_mem_text_iff {t : Token} (h : t.Legible) :
    '\n' ∈ t.text ↔ ∃ content, t.value = .string content ∧ '\n' ∈ content := by
  rw [Token.lineFeed_mem_text_iff]
  by_cases hkind : t.value.kind = .string
  · obtain ⟨content, hvalue⟩ := TokenValue.exists_eq_string hkind
    simp [hvalue, TokenValue.text]
  · have hnone : '\n' ∉ t.value.text := by
      intro hmem
      have htoken := TokenValue.Legible.isTokenChar h hkind '\n' hmem
      exact Category.not_isBlank_of_isTokenChar htoken (by decide)
    constructor
    · intro hmem
      exact absurd hmem hnone
    · rintro ⟨content, hvalue, -⟩
      exact absurd (congrArg TokenValue.kind hvalue) hkind

end Token

theorem Listing.tokens_text_of_ne_nil {ts : List Token} (h : ts ≠ []) (notice : Text) :
    tokens .text notice ts = (ts.map Token.text).flatMap (· ++ ['\n']) := by
  cases ts with
  | nil => exact absurd rfl h
  | cons t ts =>
    rw [List.flatMap_map]
    rfl

theorem line_per_token_iff {source : Text} {ts : List Token} (h : tokenize source = .ok ts)
    (hne : ts ≠ []) :
    (Listing.tokens .text Listing.noTokens ts).lines = ts.map Token.text ++ [[]] ↔
      ∀ t ∈ ts, ∀ content, t.value = .string content → '\n' ∉ content := by
  have hlegible := Token.legible h
  rw [Listing.tokens_text_of_ne_nil hne, Text.lines_flatMap_iff, List.forall_mem_map]
  constructor
  · intro hlines t ht content hvalue hfeed
    exact hlines t ht ((hlegible t ht).lineFeed_mem_text_iff.mpr ⟨content, hvalue, hfeed⟩)
  · intro hcontent t ht hfeed
    obtain ⟨content, hvalue, hmem⟩ := (hlegible t ht).lineFeed_mem_text_iff.mp hfeed
    exact hcontent t ht content hvalue hmem

theorem line_per_token_iff_carriageReturn :
    let ts : List Token := [⟨.string ['\r'], 0, 3⟩, ⟨.name ['a'], 4, 5⟩, ⟨.operator ['+'], 5, 6⟩]
    tokenize "'\r' a+".toList = .ok ts ∧ ts ≠ [] ∧
      (Listing.tokens .text Listing.noTokens ts).lines =
        ["String \"\r\" (0, 3)".toList, "Name a (4, 5)".toList, "Operator + (5, 6)".toList, []] := by
  intro ts
  have h : tokenize "'\r' a+".toList = .ok ts := by decide +kernel
  have hne : ts ≠ [] := List.cons_ne_nil _ _
  refine ⟨h, hne, (line_per_token_iff h hne).mpr ?_⟩
  intro t ht content hvalue hfeed
  simp only [ts, List.mem_cons, List.not_mem_nil, or_false] at ht
  rcases ht with rfl | rfl | rfl
  · obtain rfl := TokenValue.string.inj hvalue
    exact absurd hfeed (by decide)
  · cases hvalue
  · cases hvalue

theorem token_over_two_lines :
    ¬∀ (source : Text) (ts : List Token), tokenize source = .ok ts → ts ≠ [] →
      (Listing.tokens .text Listing.noTokens ts).lines = ts.map Token.text ++ [[]] := by
  intro h
  have htokens : tokenize "'a\nb'".toList = .ok [⟨.string ['a', '\n', 'b'], 0, 5⟩] := by
    decide +kernel
  have hlines := h _ _ htokens (List.cons_ne_nil _ _)
  exact absurd hlines (by decide)

end ScriptLexer
