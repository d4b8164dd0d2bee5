import ScriptLexer.Lexeme.Scan

/-!
A cursor walks a source one lexeme at a time. It keeps its place twice, in bytes to cut the
source and in characters to report offsets. After a diagnostic, and at the end of the source,
it yields nothing more.
-/

namespace ScriptLexer

structure Cursor where
  source : Text
  offset : Nat
  position : Nat
  failed : Bool
  deriving DecidableEq, Repr

namespace Cursor

def ofText (source : Text) : Cursor := ⟨source, 0, 0, false⟩

def remaining? (c : Cursor) : Option Text := c.source.dropBytes? c.offset

def advance (c : Cursor) (l : Lexeme) : Cursor :=
  { c with offset := c.offset + Text.byteLength l.text, position := l.stop }

def nextIn (order : List Category) (c : Cursor) : Option (Except Diagnostic Lexeme) × Cursor :=
  if c.failed then (none, c)
  else match c.remaining? with
    | none => (none, c)
    | some [] => (none, c)
    | some rest =>
      match Lexeme.firstIn c.position rest order with
      | .ok l => (some (.ok l), c.advance l)
      | .error d => (some (.error d), { c with failed := true })

def next (c : Cursor) : Option (Except Diagnostic Lexeme) × Cursor := c.nextIn Category.priority

def answers : Nat → Cursor → List (Option (Except Diagnostic Lexeme))
  | 0, _ => []
  | n + 1, c =>
    let (r?, after) := c.next
    r? :: answers n after

def distance (c : Cursor) : Nat :=
  if c.failed then 0 else c.source.byteLength + 1 - c.offset

theorem nextIn_of_failed {order : List Category} {c : Cursor} (h : c.failed) :
    c.nextIn order = (none, c) := by
  rw [nextIn, if_pos h]

theorem nextIn_of_ok {order : List Category} {c : Cursor} {rest : Text} {l : Lexeme}
    (hf : c.failed = false) (hc : c.remaining? = some rest) (hr : rest ≠ [])
    (h : Lexeme.firstIn c.position rest order = .ok l) :
    c.nextIn order = (some (.ok l), c.advance l) := by
  rw [nextIn, if_neg (by simp [hf]), hc]
  cases rest with
  | nil => exact absurd rfl hr
  | cons a r => simp [h]

theorem nextIn_of_error {order : List Category} {c : Cursor} {rest : Text} {d : Diagnostic}
    (hf : c.failed = false) (hc : c.remaining? = some rest) (hr : rest ≠ [])
    (h : Lexeme.firstIn c.position rest order = .error d) :
    c.nextIn order = (some (.error d), { c with failed := true }) := by
  rw [nextIn, if_neg (by simp [hf]), hc]
  cases rest with
  | nil => exact absurd rfl hr
  | cons a r => simp [h]

theorem nextIn_of_nil {order : List Category} {c : Cursor} (hc : c.remaining? = some []) :
    c.nextIn order = (none, c) := by
  rw [nextIn, hc]
  simp

theorem distance_lt_of_nextIn {order : List Category} {c after : Cursor}
    {r : Except Diagnostic Lexeme} (h : c.nextIn order = (some r, after)) :
    after.distance < c.distance := by
  rw [nextIn] at h
  split at h
  · simp at h
  · rename_i hf
    split at h
    · simp at h
    · simp at h
    · rename_i rest hne hrest
      obtain ⟨before, hs, ho⟩ := Text.exists_append_of_dropBytes? hrest
      have hle : c.offset ≤ c.source.byteLength := by rw [hs, ← ho]; simp
      split at h
      · rename_i l hl
        have := Text.byteLength_pos (Lexeme.firstIn_split hl).1
        obtain ⟨-, rfl⟩ := Prod.mk.inj h
        simp only [distance, advance, hf]
        simp
        omega
      · obtain ⟨-, rfl⟩ := Prod.mk.inj h
        simp only [distance, hf]
        simp
        omega

def drainIn (order : List Category) (c : Cursor) : List (Except Diagnostic Lexeme) × Cursor :=
  match h : c.nextIn order with
  | (none, after) => ([], after)
  | (some r, after) =>
    have : after.distance < c.distance := distance_lt_of_nextIn h
    let tail := drainIn order after
    (r :: tail.1, tail.2)
termination_by c.distance

def drain (c : Cursor) : List (Except Diagnostic Lexeme) × Cursor := c.drainIn Category.priority

theorem drainIn_of_none {order : List Category} {c after : Cursor}
    (h : c.nextIn order = (none, after)) : c.drainIn order = ([], after) := by
  rw [drainIn]
  split <;> simp_all

theorem drainIn_of_some {order : List Category} {c after : Cursor} {r : Except Diagnostic Lexeme}
    (h : c.nextIn order = (some r, after)) :
    c.drainIn order = (r :: (after.drainIn order).1, (after.drainIn order).2) := by
  rw [drainIn]
  split <;> simp_all

theorem remaining?_advance {order : List Category} {c : Cursor} {rest : Text} {l : Lexeme}
    (hc : c.remaining? = some rest) (h : Lexeme.firstIn c.position rest order = .ok l) :
    (c.advance l).remaining? = some (rest.drop l.text.length) := by
  obtain ⟨before, hs, ho⟩ := Text.exists_append_of_dropBytes? hc
  obtain ⟨-, r, rfl⟩ := Lexeme.firstIn_split h
  have hb : c.offset + Text.byteLength l.text = Text.byteLength (before ++ l.text) := by simp [ho]
  rw [remaining?, advance, hb, hs, ← List.append_assoc, Text.dropBytes?_append]
  simp

theorem drainIn_fst {order : List Category} {c : Cursor} {rest : Text} (hf : c.failed = false)
    (hc : c.remaining? = some rest) :
    (c.drainIn order).1 = (Scan.fromIn order c.position rest).lexemes.map .ok ++
      (Scan.fromIn order c.position rest).failure?.toList.map .error := by
  induction hn : rest.length using Nat.strongRecOn generalizing c rest with
  | ind n ih =>
    by_cases hr : rest = []
    · subst hr
      rw [drainIn_of_none (nextIn_of_nil hc), Scan.fromIn_nil]
      rfl
    · cases hl : Lexeme.firstIn c.position rest order with
      | error d =>
        rw [drainIn_of_some (nextIn_of_error hf hc hr hl), Scan.fromIn_of_error hr hl,
          drainIn_of_none (nextIn_of_failed rfl)]
        rfl
      | ok l =>
        have hlt := Lexeme.length_drop_lt hr hl
        have hf' : (c.advance l).failed = false := hf
        have ht := ih _ (hn ▸ hlt) hf' (remaining?_advance hc hl) rfl
        rw [drainIn_of_some (nextIn_of_ok hf hc hr hl), Scan.fromIn_of_ok hr hl]
        exact congrArg (Except.ok l :: ·) ht

theorem drain_ofText (source : Text) :
    (ofText source).drain.1 = (Scan.ofText source).lexemes.map .ok ++
      (Scan.ofText source).failure?.toList.map .error :=
  drainIn_fst rfl (Text.dropBytes?_zero source)

end Cursor

end ScriptLexer
