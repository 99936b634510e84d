import Dataflow.Decimal
import Dataflow.Wire.Numeral
set_option autoImplicit false

/-!
Trees as JSON text. The reader takes the whole grammar and leaves it to later steps to refuse what
only matters if it is used: deep nesting, numbers out of range, halves of surrogate pairs.
-/

namespace Dataflow.Wire

/-! ### Reading -/

def isBlank (c : Char) : Bool := c == ' ' || c == '\n' || c == '\t' || c == '\r'

def blanks (cs : List Char) : List Char := cs.dropWhile isBlank

def digitValue (c : Char) : Nat := c.toNat - '0'.toNat

/-- The longest run of digits. -/
def readDigits (cs : List Char) : List Nat × List Char :=
  ((cs.takeWhile Char.isDigit).map digitValue, cs.dropWhile Char.isDigit)

/-- A point must be followed by a digit. -/
def readFraction : List Char → Option (Option (List Nat) × List Char)
  | '.' :: cs =>
    match readDigits cs with
    | ([], _) => none
    | (ds, rest) => some (some ds, rest)
  | cs => some (none, cs)

def readSign : List Char → Bool × List Char
  | '+' :: cs => (false, cs)
  | '-' :: cs => (true, cs)
  | cs => (false, cs)

def readPower : List Char → Option (Option (Bool × List Nat) × List Char)
  | c :: cs =>
    if c == 'e' || c == 'E' then
      let (down, cs) := readSign cs
      match readDigits cs with
      | ([], _) => none
      | (ds, rest) => some (some (down, ds), rest)
    else some (none, c :: cs)
  | [] => some (none, [])

/-- A zero stands alone before the point. -/
def readNumeral (negative : Bool) (cs : List Char) : Option (Numeral × List Char) :=
  match readDigits cs with
  | ([], _) => none
  | (0 :: _ :: _, _) => none
  | (whole, rest) => do
    let (fraction, rest) ← readFraction rest
    let (power, rest) ← readPower rest
    pure (⟨negative, whole, fraction, power⟩, rest)

def hexValue (c : Char) : Option Nat :=
  if c.isDigit then some (c.toNat - '0'.toNat)
  else if 'a' ≤ c ∧ c ≤ 'f' then some (c.toNat - 'a'.toNat + 10)
  else if 'A' ≤ c ∧ c ≤ 'F' then some (c.toNat - 'A'.toNat + 10)
  else none

def hexUnit (a b c d : Char) : Option Nat := do
  let a ← hexValue a
  let b ← hexValue b
  let c ← hexValue c
  let d ← hexValue d
  pure (((a * 16 + b) * 16 + c) * 16 + d)

def unescape : Char → Option Nat
  | '"' => some 34
  | '\\' => some 92
  | '/' => some 47
  | 'b' => some 8
  | 'f' => some 12
  | 'n' => some 10
  | 'r' => some 13
  | 't' => some 9
  | _ => none

/-- The units of a text up to its closing quote. Only an escape can name half of a pair. -/
def readUnits : List Char → Option (List Nat × List Char)
  | [] => none
  | '"' :: rest => some ([], rest)
  | '\\' :: 'u' :: a :: b :: c :: d :: rest => do
    let u ← hexUnit a b c d
    let (us, rest) ← readUnits rest
    pure (u :: us, rest)
  | '\\' :: c :: rest => do
    let u ← unescape c
    let (us, rest) ← readUnits rest
    pure (u :: us, rest)
  | c :: rest =>
    if c.toNat < 32 then none
    else do
      let (us, rest) ← readUnits rest
      pure (c.toNat :: us, rest)

def isHigh (u : Nat) : Bool := 0xD800 ≤ u && u < 0xDC00
def isLow (u : Nat) : Bool := 0xDC00 ≤ u && u < 0xE000

/-- Joins each pair of halves. A half on its own names no character. -/
def joinUnits : List Nat → Option (List Char)
  | [] => some []
  | [u] => if isHigh u || isLow u then none else some [Char.ofNat u]
  | u :: v :: rest =>
    if isHigh u then
      if isLow v then
        (joinUnits rest).map (Char.ofNat (0x10000 + (u - 0xD800) * 0x400 + (v - 0xDC00)) :: ·)
      else none
    else if isLow u then none
    else (joinUnits (v :: rest)).map (Char.ofNat u :: ·)

def readText (cs : List Char) : Option (Wire × List Char) := do
  let (us, rest) ← readUnits cs
  match joinUnits us with
  | some cs => pure (.text (String.ofList cs), rest)
  | none => pure (.broken, rest)

mutual
def readValue : Nat → List Char → Option (Wire × List Char)
  | 0, _ => none
  | fuel + 1, cs =>
    match blanks cs with
    | 'n' :: 'u' :: 'l' :: 'l' :: rest => some (.null, rest)
    | 't' :: 'r' :: 'u' :: 'e' :: rest => some (.bool true, rest)
    | 'f' :: 'a' :: 'l' :: 's' :: 'e' :: rest => some (.bool false, rest)
    | '"' :: rest => readText rest
    | '[' :: rest =>
      match blanks rest with
      | ']' :: rest => some (.list [], rest)
      | rest => (readItems fuel rest).map fun p => (.list p.1, p.2)
    | '\x7b' :: rest =>
      match blanks rest with
      | '\x7d' :: rest => some (.record [], rest)
      | rest => (readMembers fuel rest).map fun p => (.record p.1, p.2)
    | '-' :: rest => (readNumeral true rest).map fun p => (p.1.wire, p.2)
    | rest => (readNumeral false rest).map fun p => (p.1.wire, p.2)

def readItems : Nat → List Char → Option (List Wire × List Char)
  | 0, _ => none
  | fuel + 1, cs => do
    let (item, rest) ← readValue fuel cs
    match blanks rest with
    | ']' :: rest => pure ([item], rest)
    | ',' :: rest =>
      let (items, rest) ← readItems fuel rest
      pure (item :: items, rest)
    | _ => none

def readMembers : Nat → List Char → Option (List (Wire × Wire) × List Char)
  | 0, _ => none
  | fuel + 1, cs =>
    match blanks cs with
    | '"' :: rest => do
      let (key, rest) ← readText rest
      match blanks rest with
      | ':' :: rest =>
        let (value, rest) ← readValue fuel rest
        match blanks rest with
        | '\x7d' :: rest => pure ([(key, value)], rest)
        | ',' :: rest =>
          let (members, rest) ← readMembers fuel rest
          pure ((key, value) :: members, rest)
        | _ => none
      | _ => none
    | _ => none
end

/-- Every step down or along takes a character with it or is followed by one that does. -/
def ofJsonText (s : String) : Option Wire :=
  let cs := s.toList
  match readValue (2 * cs.length + 2) cs with
  | some (w, rest) => if (blanks rest).isEmpty then some w else none
  | none => none

/-! ### Writing -/

def hexDigit (n : Nat) : Char := if n < 10 then Char.ofNat (n + 48) else Char.ofNat (n + 87)

def escape (c : Char) : List Char :=
  match c with
  | '"' => ['\\', '"']
  | '\\' => ['\\', '\\']
  | '\n' => ['\\', 'n']
  | '\r' => ['\\', 'r']
  | '\t' => ['\\', 't']
  | c =>
    if c.toNat = 8 then ['\\', 'b']
    else if c.toNat = 12 then ['\\', 'f']
    else if c.toNat < 32 then
      ['\\', 'u', '0', '0', hexDigit (c.toNat / 16), hexDigit (c.toNat % 16)]
    else [c]

def quote (s : String) : List Char := '"' :: s.toList.flatMap escape ++ ['"']

/-- Numbers from `0.00001` up to sixteen digits before the point stand without a power of ten. -/
def numberNotation : Notation := ⟨-5, 16⟩

def keyChars : Wire → List Char
  | .text s => quote s
  | _ => ['"', '"']

/-- How a container of items is laid out at a given depth. -/
structure Style where
  lineBreak : Nat → List Char
  colon : List Char

def Style.compact : Style := ⟨fun _ => [], [':']⟩

/-- Every item on a line of its own, two blanks deeper than its container. -/
def Style.pretty : Style := ⟨fun depth => '\n' :: List.replicate (2 * depth) ' ', [':', ' ']⟩

mutual
def write (style : Style) (depth : Nat) : Wire → List Char
  | .null => "null".toList
  | .bool true => "true".toList
  | .bool false => "false".toList
  | .int i => intChars i
  | .float x => if x.isFinite then floatChars numberNotation x else "null".toList
  | .text s => quote s
  | .list [] => ['[', ']']
  | .list (item :: items) =>
    '[' :: style.lineBreak (depth + 1) ++ write style (depth + 1) item ++
      writeItems style (depth + 1) items ++ style.lineBreak depth ++ [']']
  | .record [] => ['\x7b', '\x7d']
  | .record ((k, w) :: members) =>
    '\x7b' :: style.lineBreak (depth + 1) ++ keyChars k ++ style.colon ++
      write style (depth + 1) w ++
      writeMembers style (depth + 1) members ++ style.lineBreak depth ++ ['\x7d']
  | .bytes _ | .broken => "null".toList

def writeItems (style : Style) (depth : Nat) : List Wire → List Char
  | [] => []
  | item :: items =>
    ',' :: style.lineBreak depth ++ write style depth item ++ writeItems style depth items

def writeMembers (style : Style) (depth : Nat) : List (Wire × Wire) → List Char
  | [] => []
  | (k, w) :: members =>
    ',' :: style.lineBreak depth ++ keyChars k ++ style.colon ++ write style depth w ++
      writeMembers style depth members
end

def toJsonText (w : Wire) : String := String.ofList (w.write .compact 0)

def toPrettyText (w : Wire) : String := String.ofList (w.write .pretty 0)

end Dataflow.Wire
