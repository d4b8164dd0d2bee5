import ScriptLexer.Proofs.Cutting
import ScriptLexer.Proofs.Joining

namespace ScriptLexer

def Text.spaced (lead : Text) : List Text → List Text → Text
  | x :: xs, gap :: gaps => lead ++ (x ++ spaced gap xs gaps)
  | _, _ => lead

structure Text.AreGaps (gaps : List Text) : Prop where
  blank : ∀ gap ∈ gaps, ∀ c ∈ gap, CharClass.isBlank c
  ne_nil : ∀ gap ∈ gaps.dropLast, gap ≠ []

theorem Text.AreGaps.of_cons {gap : Text} {gaps : List Text} (h : AreGaps (gap :: gaps)) :
    (∀ c ∈ gap, CharClass.isBlank c) ∧ (gaps ≠ [] → gap ≠ []) ∧ AreGaps gaps := by
  obtain ⟨hgap, hblank⟩ := List.forall_mem_cons.mp h.blank
  cases gaps with
  | nil => exact ⟨hgap, by simp, hblank, by simp⟩
  | cons g gaps =>
    obtain ⟨hne, hrest⟩ := List.forall_mem_cons.mp h.ne_nil
    exact ⟨hgap, fun _ => hne, hblank, hrest⟩

theorem Text.spaced_take (lead : Text) {xs gaps : List Text} (hlength : gaps.length = xs.length)
    {i : Nat} {x : Text} (hx : xs[i]? = some x) :
    ∃ after, spaced lead xs gaps = spaced lead (xs.take i) (gaps.take i) ++ (x ++ after) := by
  induction xs generalizing lead gaps i with
  | nil => cases hx
  | cons y ys ih =>
    cases gaps with
    | nil => cases hlength
    | cons gap gaps =>
      cases i with
      | zero =>
        obtain rfl : y = x := by simpa using hx
        exact ⟨spaced gap ys gaps, rfl⟩
      | succ i =>
        obtain ⟨after, hafter⟩ := ih gap (by simpa using hlength) (by simpa using hx)
        refine ⟨after, ?_⟩
        simp only [List.take_succ_cons, spaced, hafter, List.append_assoc]

theorem Text.head?_spaced {gap : Text} {gaps : List Text} (hgap : ∀ c ∈ gap, CharClass.isBlank c)
    (hne : gaps ≠ [] → gap ≠ []) {xs : List Text} (hlength : gaps.length = xs.length) :
    ∀ c ∈ (spaced gap xs gaps).head?, CharClass.isBlank c := by
  intro c hc
  cases gaps with
  | nil =>
    obtain rfl := List.length_eq_zero_iff.mp hlength.symm
    exact hgap c (List.mem_of_mem_head? hc)
  | cons g gaps =>
    cases xs with
    | nil => cases hlength
    | cons x xs =>
      rw [spaced, List.head?_append_of_ne_nil gap (hne (by simp))] at hc
      exact hgap c (List.mem_of_mem_head? hc)

def TokenValue.StandsAlone (v : TokenValue) (x : Text) : Prop :=
  ∀ (start : Nat) (rest : Text), (∀ c ∈ rest.head?, CharClass.isBlank c) →
    tokenizeFrom start (x ++ rest) =
      (tokenizeFrom (start + x.length) rest).map (⟨v, start, start + x.length⟩ :: ·)

namespace Lexeme

theorem firstIn_elsewhere {start : Nat} {rest : Text} {order : List Category} {l : Lexeme}
    (h : firstIn start rest order = .ok l) (n : Nat) :
    firstIn n rest order = .ok ⟨l.category, l.text, n, n + l.text.length⟩ := by
  obtain ⟨hfind, hr, -, -⟩ := firstIn_eq_ok_iff.mp h
  exact firstIn_eq_ok_iff.mpr ⟨hfind, hr, rfl, rfl⟩

theorem value?_elsewhere {l : Lexeme} {v? : Option TokenValue} (h : l.value? = .ok v?)
    (start stop : Nat) : (Lexeme.mk l.category l.text start stop).value? = .ok v? := by
  obtain ⟨category, text, _, _⟩ := l
  cases category with
  | number =>
    simp only [value?] at h ⊢
    split at h
    · exact h
    · cases h
  | _ => exact h

theorem not_absorbs_of_value? {l : Lexeme} {v : TokenValue} (h : l.value? = .ok (some v))
    (a : Char) : ¬l.category.absorbs a := by
  obtain ⟨category, text, _, _⟩ := l
  intro ha
  rcases Category.absorbs_iff.mp ha with rfl | ⟨rfl, -⟩ <;> cases h

theorem standsAlone {l : Lexeme} {rest : Text} {v : TokenValue}
    (hl : firstIn l.start (l.text ++ rest) Category.priority = .ok l)
    (hv : l.value? = .ok (some v)) : v.StandsAlone l.text := by
  intro start after hafter
  have ho := Category.priority_commentsFirst
  have halone : firstIn l.start (l.text ++ []) Category.priority = .ok l :=
    firstIn_of_append (x := rest) ho hl
  have hnext := firstIn_append_blank ho halone hafter fun a _ ha =>
    absurd ha (not_absorbs_of_value? hv a)
  have htoken := tokenizeFrom_lexeme (l := ⟨l.category, l.text, start, start + l.text.length⟩)
    (firstIn_elsewhere hnext start)
  rwa [value?_elsewhere hv] at htoken

end Lexeme

theorem Scan.Runs.firstIn_of_mem {order : List Category} {start : Nat} {rest : Text}
    {ls : List Lexeme} {failure? : Option Diagnostic} (h : Runs order start rest ls failure?) :
    ∀ l ∈ ls, ∃ after, Lexeme.firstIn l.start (l.text ++ after) order = .ok l := by
  induction h with
  | done => simp
  | stopped => simp
  | @lexeme l rest ls failure? hl _ ih => exact List.forall_mem_cons.mpr ⟨⟨rest, hl⟩, ih⟩

theorem Token.exists_lexeme {failure? : Option Diagnostic} {ls : List Lexeme} {ts : List Token}
    (h : ofLexemes failure? ls = .ok ts) : ∀ t ∈ ts, ∃ l ∈ ls,
      l.value? = .ok (some t.value) ∧ l.start = t.start ∧ l.stop = t.stop := by
  induction ls generalizing ts with
  | nil =>
    cases failure? with
    | none =>
      obtain rfl := Except.ok.inj h
      simp
    | some d => cases h
  | cons l ls ih =>
    rcases ofLexemes_cons_eq_ok h with ⟨-, htail⟩ | ⟨v, us, hv, htail, rfl⟩
    · intro t ht
      exact List.exists_mem_cons_of_exists (ih htail t ht)
    · refine List.forall_mem_cons.mpr ⟨⟨l, List.mem_cons_self, hv, rfl, rfl⟩, ?_⟩
      intro t ht
      exact List.exists_mem_cons_of_exists (ih htail t ht)

theorem Token.standsAlone {source : Text} {ts : List Token} (h : tokenize source = .ok ts) :
    ∀ t ∈ ts, t.value.StandsAlone (source.slice t.start t.stop) := by
  intro t ht
  have hruns := Scan.runs_fromIn Category.priority 0 source
  obtain ⟨l, hl, hv, hstart, hstop⟩ := exists_lexeme h t ht
  obtain ⟨after, hfirst⟩ := hruns.firstIn_of_mem l hl
  obtain ⟨covered, left, rfl, htile, -⟩ := hruns.tile
  have hslice := htile.text_eq_slice [] left rfl l hl
  rw [List.nil_append, hstart, hstop] at hslice
  rw [← hslice]
  exact Lexeme.standsAlone hfirst hv

theorem tokenizeFrom_spaced {ts : List Token} {text : Token → Text} {lead : Text}
    {gaps : List Text} (h : ∀ t ∈ ts, t.value.StandsAlone (text t))
    (hlength : gaps.length = ts.length) (hlead : ∀ c ∈ lead, CharClass.isBlank c)
    (hgaps : Text.AreGaps gaps) (start : Nat) :
    ∃ us, tokenizeFrom start (Text.spaced lead (ts.map text) gaps) = .ok us ∧
      us.map Token.value = ts.map Token.value ∧
      ∀ i u x, us[i]? = some u → (ts.map text)[i]? = some x →
        u.start = start + (Text.spaced lead ((ts.map text).take i) (gaps.take i)).length ∧
          u.stop = u.start + x.length := by
  induction ts generalizing lead gaps start with
  | nil =>
    refine ⟨[], ?_, rfl, by simp⟩
    have hblanks := tokenizeFrom_blanks hlead start []
    rwa [List.append_nil, tokenizeFrom_nil] at hblanks
  | cons t ts ih =>
    cases gaps with
    | nil => cases hlength
    | cons gap gaps =>
      obtain ⟨ht, hts⟩ := List.forall_mem_cons.mp h
      obtain ⟨hgap, hne, hrest⟩ := hgaps.of_cons
      have hlength : gaps.length = ts.length := Nat.succ.inj hlength
      have hhead : ∀ c ∈ (Text.spaced gap (ts.map text) gaps).head?, CharClass.isBlank c :=
        Text.head?_spaced hgap hne (by simpa using hlength)
      let n := start + lead.length
      obtain ⟨us, hus, hvalues, hspans⟩ := ih hts hlength hgap hrest (n + (text t).length)
      refine ⟨⟨t.value, n, n + (text t).length⟩ :: us, ?_, by simp [hvalues], ?_⟩
      · rw [List.map_cons, Text.spaced, tokenizeFrom_blanks hlead, ht _ _ hhead, hus]
        rfl
      · intro i u x hu hx
        cases i with
        | zero =>
          obtain rfl : ⟨t.value, n, n + (text t).length⟩ = u := by simpa using hu
          obtain rfl : text t = x := by simpa using hx
          exact ⟨rfl, rfl⟩
        | succ i =>
          obtain ⟨hstart, hstop⟩ := hspans i u x (by simpa using hu) (by simpa using hx)
          refine ⟨?_, hstop⟩
          rw [hstart]
          simp only [List.map_cons, List.take_succ_cons, Text.spaced, List.length_append, n]
          omega

theorem tokenize_spaced {source : Text} {ts : List Token} (h : tokenize source = .ok ts)
    (lead : Text) (gaps : List Text) (hlength : gaps.length = ts.length)
    (hlead : ∀ c ∈ lead, CharClass.isBlank c) (hgaps : Text.AreGaps gaps) :
    let texts := ts.map fun t => source.slice t.start t.stop
    ∃ us, tokenize (Text.spaced lead texts gaps) = .ok us ∧
      us.map (fun u => (u.kind, u.value)) = ts.map (fun t => (t.kind, t.value)) ∧
      ∀ i u x, us[i]? = some u → texts[i]? = some x →
        u.start = (Text.spaced lead (texts.take i) (gaps.take i)).length ∧
          u.stop = u.start + x.length ∧
          (Text.spaced lead texts gaps).slice u.start u.stop = x := by
  intro texts
  obtain ⟨us, hus, hvalues, hspans⟩ :=
    tokenizeFrom_spaced (Token.standsAlone h) hlength hlead hgaps 0
  refine ⟨us, hus, ?_, ?_⟩
  · have hkinds := congrArg (List.map fun v => (TokenValue.kind v, v)) hvalues
    rwa [List.map_map, List.map_map] at hkinds
  · intro i u x hu hx
    obtain ⟨hstart, hstop⟩ := hspans i u x hu hx
    rw [Nat.zero_add] at hstart
    obtain ⟨after, hafter⟩ := Text.spaced_take lead (by simpa [texts] using hlength) hx
    refine ⟨hstart, hstop, ?_⟩
    rw [hafter, hstop, hstart, Text.slice_append]

theorem tokenize_spaced_comment :
    ∃ us, tokenize ['a', '\n', 'b', ' ', '=', '\t', '\x22', '/', '/', '\x22'] = .ok us ∧
      us.map (fun u => (u.kind, u.value)) = [(.name, .name ['a']), (.name, .name ['b']),
        (.operator, .operator ['=']), (.string, .string ['/', '/'])] := by
  have hsource : tokenize "a/**/b=\"//\"".toList = .ok [⟨.name ['a'], 0, 1⟩,
      ⟨.name ['b'], 5, 6⟩, ⟨.operator ['='], 6, 7⟩, ⟨.string ['/', '/'], 7, 11⟩] := by
    decide +kernel
  have hblank : [['\n'], [' '], ['\t'], []].all (·.all CharClass.isBlank) := by decide
  have hgaps : Text.AreGaps [['\n'], [' '], ['\t'], []] :=
    ⟨fun gap hgap => List.all_eq_true.mp (List.all_eq_true.mp hblank gap hgap), by simp⟩
  obtain ⟨us, hus, hvalues, -⟩ := tokenize_spaced hsource [] _ rfl (by simp) hgaps
  exact ⟨us, hus, hvalues⟩

end ScriptLexer
