import ScriptLexer.Json.Basic

namespace ScriptLexer.Json

def isBlank (c : Char) : Bool := c = ' ' || c = '\n' || c = '\r' || c = '\t'

def skipBlanks (s : Text) : Text := s.dropWhile isBlank

def hexValue? (c : Char) : Option Nat :=
  if '0' ≤ c ∧ c ≤ '9' then some (c.toNat - '0'.toNat)
  else if 'a' ≤ c ∧ c ≤ 'f' then some (c.toNat - 'a'.toNat + 10)
  else if 'A' ≤ c ∧ c ≤ 'F' then some (c.toNat - 'A'.toNat + 10)
  else none

def unit? (a b c d : Char) : Option Nat := do
  let a ← hexValue? a
  let b ← hexValue? b
  let c ← hexValue? c
  let d ← hexValue? d
  return 4096 * a + 256 * b + 16 * c + d

def ofEscape? (c : Char) : Option Char :=
  if c = '\x22' then some '\x22'
  else if c = '\\' then some '\\'
  else if c = '/' then some '/'
  else if c = 'b' then some '\x08'
  else if c = 'f' then some '\x0c'
  else if c = 'n' then some '\n'
  else if c = 'r' then some '\r'
  else if c = 't' then some '\t'
  else none

def readString? : Text → Option (Text × Text)
  | '\x22' :: s => some ([], s)
  | '\\' :: 'u' :: a :: b :: c :: d :: s =>
    match unit? a b c d with
    | none => none
    | some high =>
      if high < 0xD800 ∨ 0xE000 ≤ high then
        (readString? s).map fun p => (Char.ofNat high :: p.1, p.2)
      else
        match s with
        | '\\' :: 'u' :: a :: b :: c :: d :: s =>
          match unit? a b c d with
          | none => none
          | some low =>
            if high < 0xDC00 ∧ 0xDC00 ≤ low ∧ low < 0xE000 then
              (readString? s).map fun p =>
                (Char.ofNat (0x10000 + 0x400 * (high - 0xD800) + (low - 0xDC00)) :: p.1, p.2)
            else none
        | _ => none
  | '\\' :: c :: s =>
    match ofEscape? c with
    | some e => (readString? s).map fun p => (e :: p.1, p.2)
    | none => none
  | c :: s => if c.toNat < 0x20 then none else (readString? s).map fun p => (c :: p.1, p.2)
  | [] => none

def unsignedLiteral? (s : Text) : Option Text :=
  match Numeral.scan? s with
  | some n =>
    if (n.whole.length = 1 ∨ n.whole.head? ≠ some '0') ∧ n.fraction? ≠ some [] then some n.text
    else none
  | none => none

def readNumber? (s : Text) : Option (Text × Text) :=
  match s with
  | '-' :: r => (unsignedLiteral? r).map fun t => ('-' :: t, r.drop t.length)
  | _ => (unsignedLiteral? s).map fun t => (t, s.drop t.length)

mutual

def readValue? : Nat → Text → Option (Json × Text)
  | 0, _ => none
  | fuel + 1, s =>
    match skipBlanks s with
    | 'n' :: 'u' :: 'l' :: 'l' :: r => some (null, r)
    | 't' :: 'r' :: 'u' :: 'e' :: r => some (bool true, r)
    | 'f' :: 'a' :: 'l' :: 's' :: 'e' :: r => some (bool false, r)
    | '\x22' :: r => (readString? r).map fun p => (string p.1, p.2)
    | '[' :: r =>
      match skipBlanks r with
      | ']' :: r => some (array [], r)
      | r => (readItems? fuel r).map fun p => (array p.1, p.2)
    | '\x7b' :: r =>
      match skipBlanks r with
      | '\x7d' :: r => some (object [], r)
      | r => (readFields? fuel r).map fun p => (object p.1, p.2)
    | r => (readNumber? r).map fun p => (number p.1, p.2)

def readItems? : Nat → Text → Option (List Json × Text)
  | 0, _ => none
  | fuel + 1, s =>
    match readValue? fuel s with
    | none => none
    | some (item, r) =>
      match skipBlanks r with
      | ',' :: r => (readItems? fuel r).map fun p => (item :: p.1, p.2)
      | ']' :: r => some ([item], r)
      | _ => none

def readFields? : Nat → Text → Option (List (Text × Json) × Text)
  | 0, _ => none
  | fuel + 1, s =>
    match skipBlanks s with
    | '\x22' :: r =>
      match readString? r with
      | none => none
      | some (key, r) =>
        match skipBlanks r with
        | ':' :: r =>
          match readValue? fuel r with
          | none => none
          | some (value, r) =>
            match skipBlanks r with
            | ',' :: r => (readFields? fuel r).map fun p => ((key, value) :: p.1, p.2)
            | '\x7d' :: r => some ([(key, value)], r)
            | _ => none
        | _ => none
    | _ => none

end

/-- The value of a JSON text. Of two steps of the reader at least one takes a character, so twice
the length of the text is fuel enough. -/
def parse? (s : Text) : Option Json :=
  match readValue? (2 * s.length + 1) s with
  | some (j, r) => if skipBlanks r = [] then some j else none
  | none => none

end ScriptLexer.Json
