import ScriptLexer.Proofs.PrintedJson
import ScriptLexer.Proofs.TokenRefinement
import ScriptLexer.Report.Listing

namespace ScriptLexer

namespace Json

theorem toNat?_ofNat {n : Nat} (h : n < 2 ^ 64) : (ofNat n).toNat? = some n := by
  have hvalue : Nat.ofDigitChars 10 (Text.ofNat n) 0 = n := Nat.ofDigitChars_ten_toDigits
  have hne : Text.ofNat n ≠ [] := Nat.toDigits_ne_nil
  have hdigits := NumberLayout.isDigit_of_mem_ofNat n
  simp only [ofNat, toNat?, hvalue]
  apply if_pos
  exact ⟨hne, List.all_eq_true.mpr hdigits, h⟩

theorem legal_ofNat (n : Nat) : (ofNat n).Legal := .number (isNumber_ofNat n)

theorem ofBinary64_of_isFinite {x : Binary64} (h : x.isFinite) :
    ofBinary64 x = .number (numberLayout.write x) := if_pos h

end Json

namespace TokenValue

def IsRepresentable (v : TokenValue) : Prop := ∀ x, v = number x → x.isFinite

theorem legal_payload {v : TokenValue} (h : v.IsRepresentable) : v.payload.Legal := by
  cases v with
  | number x =>
    rw [payload, Json.ofBinary64_of_isFinite (h x rfl)]
    exact .number (Json.isNumber_write x)
  | name s => exact .string s
  | string s => exact .string s
  | operator s => exact .string s

theorem ofJson?_payload {v : TokenValue} (h : v.IsRepresentable) :
    ofJson? v.kind.label v.payload = some v := by
  cases v with
  | number x =>
    have hread := Json.toBinary64?_write (h x rfl)
    rw [payload, Json.ofBinary64_of_isFinite (h x rfl)]
    simp [ofJson?, kind, hread]
  | name s => rfl
  | string s => rfl
  | operator s => rfl

end TokenValue

namespace Token

def keys : List Text := ["kind".toList, "value".toList, "from".toList, "to".toList]

structure IsRepresentable (t : Token) : Prop where
  value : t.value.IsRepresentable
  start : t.start < 2 ^ 64
  stop : t.stop < 2 ^ 64

theorem legal_toJson {t : Token} (h : t.IsRepresentable) : t.toJson.Legal := by
  apply Json.Legal.object
  simp only [fields, TokenValue.fields, List.cons_append, List.nil_append, List.forall_mem_cons]
  exact ⟨.string _, TokenValue.legal_payload h.value, Json.legal_ofNat _, Json.legal_ofNat _,
    by simp⟩

theorem ofJson?_toJson {t : Token} (h : t.IsRepresentable) : ofJson? t.toJson = some t := by
  simp [toJson, fields, TokenValue.fields, TokenKind.toJson, ofJson?,
    TokenValue.ofJson?_payload h.value, Json.toNat?_ofNat h.start, Json.toNat?_ofNat h.stop]

theorem isRepresentable_of_tokenize {source : Text} {ts : List Token} (hs : source.length < 2 ^ 64)
    (h : tokenize source = .ok ts) : ∀ t ∈ ts, t.IsRepresentable := by
  obtain ⟨ls, failure?, -, hruns⟩ := Cursor.exists_drain_eq source
  obtain ⟨hf, -, hstands⟩ := (tokenize_eq_ok_iff hruns ts).mp h
  obtain ⟨covered, left, rfl, htile, hnone, -⟩ := hruns.tile
  obtain rfl := hnone hf
  rw [List.append_nil] at hs hstands
  intro t ht
  obtain ⟨hlt, hle⟩ := (htile.token_spans hstands).1 t ht
  refine ⟨?_, by omega, by omega⟩
  intro x hx
  obtain ⟨l, -, htl⟩ := exists_standsFor hstands ht
  have hreads := htl.reads
  rw [hx] at hreads
  obtain ⟨v, -, -, hnearest⟩ := hreads
  exact hnearest.isFinite

def IsArrayText (ts : List Token) (text : Text) : Prop :=
  ∃ objects : List (List (Text × Json)),
    Json.Written (.array (objects.map .object)) text ∧
    List.Forall₂ (fun fields t => fields.map Prod.fst = keys ∧ ofJson? (.object fields) = some t)
      objects ts ∧
    (Json.parse? text).bind listOfJson? = some ts

theorem listOfJson?_map_toJson {ts : List Token} (h : ∀ t ∈ ts, t.IsRepresentable) :
    listOfJson? (.array (ts.map toJson)) = some ts := by
  induction ts with
  | nil => rfl
  | cons t ts ih =>
    obtain ⟨ht, hts⟩ := List.forall_mem_cons.mp h
    have htail := ih hts
    rw [listOfJson?] at htail ⊢
    simp [List.mapM_cons, ofJson?_toJson ht, htail]

theorem isArrayText_pretty {ts : List Token} (h : ∀ t ∈ ts, t.IsRepresentable) :
    IsArrayText ts (Json.array (ts.map toJson)).pretty := by
  have hlegal : (Json.array (ts.map toJson)).Legal := by
    apply Json.Legal.array
    intro item hitem
    obtain ⟨t, ht, rfl⟩ := List.mem_map.mp hitem
    exact legal_toJson (h t ht)
  have hwritten := hlegal.written 0
  have hobjects : (ts.map fields).map Json.object = ts.map toJson := by
    rw [List.map_map]
    rfl
  refine ⟨ts.map fields, ?_, ?_, ?_⟩
  · rw [hobjects]
    exact hwritten
  · apply List.forall₂_map_left_iff.mpr
    apply List.forall₂_same.mpr
    intro t ht
    exact ⟨rfl, ofJson?_toJson (h t ht)⟩
  · rw [Json.pretty, hwritten.parse?]
    exact listOfJson?_map_toJson h

end Token

def Location.IsRepresentable (l : Location) : Prop :=
  l.start < 2 ^ 64 ∧ ∀ stop ∈ l.stop?, stop < 2 ^ 64

theorem Location.ofFields?_fields {l : Location} (h : l.IsRepresentable) :
    ofFields? l.fields = some l := by
  obtain ⟨start, stop?⟩ := l
  obtain ⟨hstart, hstop⟩ := h
  cases stop? with
  | none => simp [fields, ofFields?, Json.toNat?_ofNat hstart]
  | some stop =>
    simp [fields, ofFields?, Json.toNat?_ofNat hstart, Json.toNat?_ofNat (hstop stop rfl)]

namespace Diagnostic

def keys (d : Diagnostic) : List Text :=
  ["kind".toList, "message".toList, "from".toList] ++
    if d.location.stop?.isSome then ["to".toList] else []

theorem map_fst_fields (d : Diagnostic) : d.fields.map Prod.fst = d.keys := by
  obtain ⟨kind, message, start, stop?⟩ := d
  cases stop? <;> rfl

theorem legal_toJson (d : Diagnostic) : d.toJson.Legal := by
  apply Json.Legal.object
  intro field hfield
  simp only [fields, List.mem_cons, Location.fields, Option.mem_toList,
    Option.map_eq_some_iff] at hfield
  rcases hfield with rfl | rfl | rfl | ⟨stop, -, rfl⟩
  · exact .string _
  · exact .string _
  · exact Json.legal_ofNat _
  · exact Json.legal_ofNat stop

theorem ofJson?_toJson {d : Diagnostic} (h : d.location.IsRepresentable) :
    ofJson? d.toJson = some d := by
  simp [toJson, fields, ofJson?, DiagnosticKind.ofLabel?_label, Location.ofFields?_fields h]

def IsObjectText (d : Diagnostic) (text : Text) : Prop :=
  ∃ fields : List (Text × Json), Json.Written (.object fields) text ∧
    fields.map Prod.fst = d.keys ∧ (Json.parse? text).bind ofJson? = some d

theorem isObjectText_pretty {d : Diagnostic} (h : d.location.IsRepresentable) :
    IsObjectText d d.toJson.pretty := by
  have hwritten := d.legal_toJson.written 0
  refine ⟨d.fields, hwritten, d.map_fst_fields, ?_⟩
  rw [Json.pretty, hwritten.parse?]
  exact ofJson?_toJson h

end Diagnostic

theorem json_listing_reads_back :
    (∀ (ts : List Token) (notice : Text), (∀ t ∈ ts, t.IsRepresentable) →
      Token.IsArrayText ts (Listing.tokens .json notice ts)) ∧
    (∀ (source notice : Text) (ts : List Token), source.length < 2 ^ 64 →
      tokenize source = .ok ts → Token.IsArrayText ts (Listing.tokens .json notice ts)) ∧
    ∀ d : Diagnostic, d.location.IsRepresentable →
      ∃ text, Listing.diagnostic? .json d = some text ∧ d.IsObjectText text := by
  refine ⟨?_, ?_, ?_⟩
  · intro ts notice h
    exact Token.isArrayText_pretty h
  · intro source notice ts hs h
    exact Token.isArrayText_pretty (Token.isRepresentable_of_tokenize hs h)
  · intro d h
    exact ⟨_, rfl, Diagnostic.isObjectText_pretty h⟩

theorem json_listing_reads_back_escapes :
    Token.IsArrayText
      [⟨.string ['\x22', '\x01', '\\'], 0, 5⟩, ⟨.number (.ofBits 0x8000000000000000), 6, 8⟩]
      (Listing.tokens .json []
        [⟨.string ['\x22', '\x01', '\\'], 0, 5⟩, ⟨.number (.ofBits 0x8000000000000000), 6, 8⟩]) ∧
    (∃ ts, tokenize "'\n\"' 1e21".toList = .ok ts ∧
      Token.IsArrayText ts (Listing.tokens .json Listing.noTokens ts)) ∧
    ∃ text, Listing.diagnostic? .json ⟨.syntaxError, "tab\t".toList, ⟨2 ^ 64 - 1, none⟩⟩ = some text ∧
      Diagnostic.IsObjectText ⟨.syntaxError, "tab\t".toList, ⟨2 ^ 64 - 1, none⟩⟩ text := by
  obtain ⟨htokens, hsource, hdiagnostic⟩ := json_listing_reads_back
  refine ⟨?_, ?_, ?_⟩
  · apply htokens
    simp only [List.forall_mem_cons]
    refine ⟨⟨?_, by decide, by decide⟩, ⟨?_, by decide, by decide⟩, by simp⟩
    · rintro x ⟨⟩
    · rintro x ⟨⟩
      decide
  · have htokenize : tokenize "'\n\"' 1e21".toList =
        .ok [⟨.string ['\n', '\x22'], 0, 4⟩, ⟨.number (.ofBits 0x444B1AE4D6E2EF50), 5, 9⟩] := by
      decide +kernel
    exact ⟨_, htokenize, hsource _ _ _ (by decide) htokenize⟩
  · apply hdiagnostic
    exact ⟨by decide, by simp⟩

end ScriptLexer
