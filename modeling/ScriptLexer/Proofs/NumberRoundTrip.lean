import ScriptLexer.Proofs.DecodedTokens
import ScriptLexer.Proofs.ListedTokens

namespace ScriptLexer

theorem Scan.runs_whole {c : Category} {t : Text} (h : c.Language t)
    (hop : c = .operator → ¬Category.OpensComment t) :
    Runs Category.priority 0 t [⟨c, t, 0, t.length⟩] none := by
  have hlong : c.IsLongest t t := by
    refine ⟨h, ⟨[], (List.append_nil t).symm⟩, ?_⟩
    rintro u r hr -
    have hlength := congrArg List.length hr
    rw [List.length_append] at hlength
    omega
  have hfirst : Lexeme.firstIn 0 (t ++ []) Category.priority = .ok ⟨c, t, 0, t.length⟩ := by
    rw [List.append_nil]
    apply (Lexeme.firstIn_eq_ok_iff_isLongest Category.priority_commentsFirst).mpr
    exact ⟨hlong, hop, rfl, (Nat.zero_add _).symm⟩
  have hruns := Runs.lexeme (l := ⟨c, t, 0, t.length⟩) hfirst .done
  rwa [List.append_nil] at hruns

theorem tokenize_numeral {n : Numeral} (hn : n.WellFormed) {x : Binary64}
    (hx : n.value? = some x) : tokenize n.text = .ok [⟨.number x, 0, n.text.length⟩] := by
  have hlanguage : Category.number.Language n.text := ⟨n, hn, rfl⟩
  rw [tokenize_eq_ofLexemes (Scan.runs_whole hlanguage nofun)]
  simp [Token.ofLexemes, Lexeme.value?, Numeral.scan?_text hn, hx, Except.map]

namespace Binary64

inductive Printed (x : Binary64) : Text → Prop where
  | text : Printed x (TokenValue.number x).text
  | compact : Printed x (TokenValue.number x).payload.compact
  | pretty (depth : Nat) : Printed x ((TokenValue.number x).payload.prettyAt depth)

theorem Printed.exists_numeral {x : Binary64} (hfinite : x.isFinite) (hsign : x.negative = false)
    {t : Text} (h : x.Printed t) : ∃ n : Numeral, n.WellFormed ∧ n.text = t ∧
      Shortest.Encloses x.magnitude (2 * (n.decimal.toRat * unitsPerOne)) := by
  obtain ⟨n, hn, -, henclosed, htext⟩ := Json.exists_numeral_write x
  have hjson : Json.ofBinary64 x = .number n.text := by
    rw [Json.ofBinary64_of_isFinite hfinite, htext, hsign]
    rfl
  cases h with
  | text => exact exists_numeral_text hfinite hsign
  | compact =>
    refine ⟨n, hn, ?_, henclosed⟩
    rw [TokenValue.payload, hjson, Json.compact]
  | pretty depth =>
    refine ⟨n, hn, ?_, henclosed⟩
    rw [TokenValue.payload, hjson, Json.prettyAt]

theorem Printed.reads_back {x : Binary64} (hfinite : x.isFinite) (hsign : x.negative = false)
    {t : Text} (h : x.Printed t) : tokenize t = .ok [⟨.number x, 0, t.length⟩] := by
  obtain ⟨n, hn, rfl, henclosed⟩ := h.exists_numeral hfinite hsign
  apply tokenize_numeral hn
  obtain ⟨negative, m, hm⟩ := x
  obtain rfl : negative = false := hsign
  exact Decimal.nearest?_of_encloses (of_decide_eq_true hfinite) henclosed

end Binary64

theorem printed_numbers_read_back :
    (∀ (x : Binary64) (t : Text), x.isFinite → x.negative = false → x.Printed t →
      tokenize t = .ok [⟨.number x, 0, t.length⟩]) ∧
    ∀ (source : Text) (ts : List Token), tokenize source = .ok ts → ∀ token ∈ ts, ∀ x,
      token.value = .number x → ∀ t, x.Printed t → tokenize t = .ok [⟨.number x, 0, t.length⟩] := by
  constructor
  · intro x t hfinite hsign h
    exact h.reads_back hfinite hsign
  · intro source ts hsource token hmem x hvalue t h
    have hlegible := Token.legible hsource token hmem
    rw [Token.Legible, hvalue] at hlegible
    exact h.reads_back hlegible.1 hlegible.2

theorem printed_numbers_read_back_extremes :
    tokenize "5e-324".toList = .ok [⟨.number (.ofBits 1), 0, 6⟩] ∧
    tokenize (TokenValue.number (.ofBits 0x7FEFFFFFFFFFFFFF)).text =
      .ok [⟨.number (.ofBits 0x7FEFFFFFFFFFFFFF), 0, 309⟩] ∧
    ∃ ts, tokenize "x=10E15".toList = .ok ts ∧
      ⟨.number (.ofBits 0x4341C37937E08000), 2, 7⟩ ∈ ts ∧
      tokenize "1e+16".toList = .ok [⟨.number (.ofBits 0x4341C37937E08000), 0, 5⟩] := by
  obtain ⟨hnumber, hsource⟩ := printed_numbers_read_back
  refine ⟨?_, ?_, ?_⟩
  · have htext : (TokenValue.number (.ofBits 1)).payload.compact = "5e-324".toList := by
      decide +kernel
    have hread := hnumber (.ofBits 1) _ (by decide) rfl .compact
    rwa [htext] at hread
  · have hlength : (TokenValue.number (.ofBits 0x7FEFFFFFFFFFFFFF)).text.length = 309 := by
      decide +kernel
    have hread := hnumber (.ofBits 0x7FEFFFFFFFFFFFFF) _ (by decide) rfl .text
    rwa [hlength] at hread
  · have htokens : tokenize "x=10E15".toList =
        .ok [⟨.name ['x'], 0, 1⟩, ⟨.operator ['='], 1, 2⟩,
          ⟨.number (.ofBits 0x4341C37937E08000), 2, 7⟩] := by
      decide +kernel
    have hmem : Token.mk (.number (.ofBits 0x4341C37937E08000)) 2 7 ∈
        [⟨.name ['x'], 0, 1⟩, ⟨.operator ['='], 1, 2⟩,
          ⟨.number (.ofBits 0x4341C37937E08000), 2, 7⟩] := by
      simp
    have htext : (TokenValue.number (.ofBits 0x4341C37937E08000)).payload.prettyAt 1 =
        "1e+16".toList := by
      decide +kernel
    have hread := hsource _ _ htokens _ hmem _ rfl _ (.pretty 1)
    rw [htext] at hread
    exact ⟨_, htokens, hmem, hread⟩

end ScriptLexer
