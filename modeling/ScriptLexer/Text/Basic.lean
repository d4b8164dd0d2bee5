/-!
Source text is a list of Unicode scalar values. Offsets count characters; the byte measures of
this module count the UTF-8 encoding of the same text. A cut at a byte count exists only where
that count falls on a character boundary.
-/

namespace ScriptLexer

abbrev Text := List Char

namespace Text

def byteLength : Text → Nat
  | [] => 0
  | c :: s => c.utf8Size + byteLength s

@[simp] theorem byteLength_nil : byteLength [] = 0 := rfl

@[simp] theorem byteLength_cons (c : Char) (s : Text) :
    byteLength (c :: s) = c.utf8Size + byteLength s := rfl

@[simp] theorem byteLength_append (s t : Text) :
    byteLength (s ++ t) = byteLength s + byteLength t := by
  induction s with
  | nil => simp
  | cons c s ih => simp [ih, Nat.add_assoc]

theorem length_le_byteLength (s : Text) : s.length ≤ byteLength s := by
  induction s with
  | nil => simp
  | cons c s ih =>
    have := c.utf8Size_pos
    simp only [List.length_cons, byteLength_cons]
    omega

theorem byteLength_pos {s : Text} (h : s ≠ []) : 0 < byteLength s := by
  have := length_le_byteLength s
  have := List.length_pos_iff.2 h
  omega

def takeBytes? : Text → Nat → Option Text
  | _, 0 => some []
  | [], _ + 1 => none
  | c :: s, n + 1 =>
    if c.utf8Size ≤ n + 1 then (takeBytes? s (n + 1 - c.utf8Size)).map (c :: ·) else none

def dropBytes? : Text → Nat → Option Text
  | s, 0 => some s
  | [], _ + 1 => none
  | c :: s, n + 1 => if c.utf8Size ≤ n + 1 then dropBytes? s (n + 1 - c.utf8Size) else none

@[simp] theorem takeBytes?_zero (s : Text) : takeBytes? s 0 = some [] := by
  cases s <;> rfl

@[simp] theorem dropBytes?_zero (s : Text) : dropBytes? s 0 = some s := by
  cases s <;> rfl

theorem takeBytes?_cons_add (c : Char) (s : Text) (n : Nat) :
    takeBytes? (c :: s) (c.utf8Size + n) = (takeBytes? s n).map (c :: ·) := by
  obtain ⟨m, hm⟩ : ∃ m, c.utf8Size + n = m + 1 :=
    ⟨c.utf8Size + n - 1, by have := c.utf8Size_pos; omega⟩
  have hn : m + 1 - c.utf8Size = n := by omega
  rw [hm, takeBytes?, if_pos (by omega), hn]

theorem dropBytes?_cons_add (c : Char) (s : Text) (n : Nat) :
    dropBytes? (c :: s) (c.utf8Size + n) = dropBytes? s n := by
  obtain ⟨m, hm⟩ : ∃ m, c.utf8Size + n = m + 1 :=
    ⟨c.utf8Size + n - 1, by have := c.utf8Size_pos; omega⟩
  have hn : m + 1 - c.utf8Size = n := by omega
  rw [hm, dropBytes?, if_pos (by omega), hn]

@[simp] theorem takeBytes?_append (s t : Text) : takeBytes? (s ++ t) (byteLength s) = some s := by
  induction s with
  | nil => simp
  | cons c s ih => simp [takeBytes?_cons_add, ih]

@[simp] theorem dropBytes?_append (s t : Text) : dropBytes? (s ++ t) (byteLength s) = some t := by
  induction s with
  | nil => simp
  | cons c s ih => simp [dropBytes?_cons_add, ih]

theorem exists_append_of_dropBytes? {s t : Text} {n : Nat} (h : dropBytes? s n = some t) :
    ∃ r, s = r ++ t ∧ byteLength r = n := by
  induction s generalizing n with
  | nil =>
    cases n with
    | zero => simp_all [dropBytes?]
    | succ n => simp [dropBytes?] at h
  | cons c s ih =>
    cases n with
    | zero => exact ⟨[], by simpa [dropBytes?] using h⟩
    | succ n =>
      rw [dropBytes?] at h
      split at h
      · obtain ⟨r, rfl, hr⟩ := ih h
        exact ⟨c :: r, rfl, by simp only [byteLength_cons]; omega⟩
      · simp at h

theorem exists_append_of_takeBytes? {s r : Text} {n : Nat} (h : takeBytes? s n = some r) :
    ∃ t, s = r ++ t ∧ byteLength r = n := by
  induction s generalizing n r with
  | nil =>
    cases n with
    | zero => simp_all [takeBytes?]
    | succ n => simp [takeBytes?] at h
  | cons c s ih =>
    cases n with
    | zero => simp_all [takeBytes?]
    | succ n =>
      rw [takeBytes?] at h
      split at h
      · obtain ⟨u, hu, rfl⟩ := Option.map_eq_some_iff.1 h
        obtain ⟨t, rfl, ht⟩ := ih hu
        exact ⟨t, rfl, by simp only [byteLength_cons]; omega⟩
      · simp at h

def toBytes (s : Text) : ByteArray := (String.ofList s).toUTF8

def ofBytes? (bytes : ByteArray) : Option Text := (String.fromUTF8? bytes).map String.toList

theorem ofBytes?_toBytes (s : Text) : ofBytes? s.toBytes = some s := by
  have h : s.toBytes.IsValidUTF8 := (String.ofList s).isValidUTF8
  rw [ofBytes?, String.fromUTF8?, dif_pos h, Option.map_some]
  exact congrArg some String.toList_ofList

theorem toBytes_of_ofBytes? {bytes : ByteArray} {s : Text} (h : ofBytes? bytes = some s) :
    s.toBytes = bytes := by
  rw [ofBytes?, String.fromUTF8?] at h
  split at h
  · rw [Option.map_some, Option.some.injEq] at h
    rw [toBytes, ← h, String.ofList_toList]; rfl
  · simp at h

def ofNat (n : Nat) : Text := Nat.toDigits 10 n

def replaceChar (c : Char) (r : Text) (s : Text) : Text :=
  s.flatMap fun d => if d = c then r else [d]

@[simp] theorem replaceChar_append (c : Char) (r s t : Text) :
    replaceChar c r (s ++ t) = replaceChar c r s ++ replaceChar c r t := by
  simp [replaceChar]

end Text

end ScriptLexer
