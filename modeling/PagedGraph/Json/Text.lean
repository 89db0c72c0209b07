import PagedGraph.Json.Number

/-!
# JSON texts

`JsonValue.ofText?` reads a JSON text.  It is strict: no comments, no trailing commas, no
leading zeros, no control characters in strings, and nothing but blanks around the
value.  Members of an object keep their order, and a key can occur twice.

A string may escape any 16 bit code unit.  A unit that is half of a surrogate pair
without its other half is no character.  Such a string is kept as one without a
text, since it does not make the whole text malformed.
-/

namespace PagedGraph

/-- The value of a JSON text. -/
inductive JsonValue where
  | null
  | bool (b : Bool)
  | number (n : JsonNumber)
  /-- A string, without a text if it has half a surrogate pair. -/
  | string (text : Option String)
  | array (items : List JsonValue)
  | object (members : List (Option String × JsonValue))
deriving Repr, Inhabited

namespace JsonValue

/-! ## Blanks and digits -/

/-- Blank, tab, line feed and carriage return. -/
def isBlank (c : Char) : Bool := c = ' ' || c = '\t' || c = '\n' || c = '\r'

/-- What follows the blanks. -/
def skipBlanks (cs : List Char) : List Char := cs.dropWhile isBlank

/-- What follows a word, none where another word stands. -/
def expect? : List Char → List Char → Option (List Char)
  | [], cs => some cs
  | w :: word, c :: cs => if w = c then expect? word cs else none
  | _ :: _, [] => none

/-- Whether a character is a decimal digit. -/
def isDigit (c : Char) : Bool := '0' ≤ c && c ≤ '9'

/-- The digits at the front, and what follows. -/
def digits (cs : List Char) : List Nat × List Char :=
  ((cs.takeWhile isDigit).map fun c => c.toNat - '0'.toNat, cs.dropWhile isDigit)

/-- The digits at the front, of which there is at least one. -/
def digits? (cs : List Char) : Option (List Nat × List Char) :=
  match digits cs with
  | ([], _) => none
  | found => some found

/-- The integer part of a number: no digit follows a leading zero. -/
def whole? (cs : List Char) : Option (List Nat × List Char) :=
  match digits cs with
  | ([], _) => none
  | (0 :: _ :: _, _) => none
  | found => some found

/-- The places behind a point, if there is one. -/
def places? : List Char → Option (Option (List Nat) × List Char)
  | '.' :: cs => (digits? cs).map fun (ds, rest) => (some ds, rest)
  | cs => some (none, cs)

/-- The exponent of a number, if there is one: whether it is negative, and its digits. -/
def exponent? : List Char → Option (Option (Bool × List Nat) × List Char)
  | c :: cs =>
    if c = 'e' ∨ c = 'E' then
      let (down, rest) :=
        match cs with
        | '+' :: rest => (false, rest)
        | '-' :: rest => (true, rest)
        | rest => (false, rest)
      (digits? rest).map fun (ds, rest) => (some (down, ds), rest)
    else some (none, c :: cs)
  | [] => some (none, [])

/-- The number at the front, and what follows. -/
def number? (cs : List Char) : Option (JsonNumber × List Char) := do
  let (negated, cs) :=
    match cs with
    | '-' :: rest => (true, rest)
    | rest => (false, rest)
  let (whole, cs) ← whole? cs
  let (places, cs) ← places? cs
  let (exponent, cs) ← exponent? cs
  pure (NumberText.value { negated, whole, places, exponent }, cs)

/-! ## Strings -/

/-- The value of a hexadecimal digit. -/
def hexDigit? (c : Char) : Option Nat :=
  if isDigit c then some (c.toNat - '0'.toNat)
  else if 'a' ≤ c && c ≤ 'f' then some (c.toNat - 'a'.toNat + 10)
  else if 'A' ≤ c && c ≤ 'F' then some (c.toNat - 'A'.toNat + 10)
  else none

/-- The code unit of four hexadecimal digits. -/
def unit? : List Char → Option (Nat × List Char)
  | a :: b :: c :: d :: rest => do
    let a ← hexDigit? a
    let b ← hexDigit? b
    let c ← hexDigit? c
    let d ← hexDigit? d
    pure (((a * 16 + b) * 16 + c) * 16 + d, rest)
  | _ => none

/-- The character of a one-letter escape. -/
def escaped? : Char → Option Char
  | '"' => some '"'
  | '\\' => some '\\'
  | '/' => some '/'
  | 'b' => some '\x08'
  | 'f' => some '\x0c'
  | 'n' => some '\n'
  | 'r' => some '\r'
  | 't' => some '\t'
  | _ => none

/-- The code points and code units of a string up to its closing quote, behind those of
`before`, which come in reverse. -/
def stringUnits? : Nat → List Char → List Nat → Option (List Nat × List Char)
  | 0, _, _ => none
  | _ + 1, [], _ => none
  | fuel + 1, c :: cs, before =>
    if c = '"' then some (before.reverse, cs)
    else if c = '\\' then
      match cs with
      | 'u' :: rest =>
        match unit? rest with
        | some (u, rest) => stringUnits? fuel rest (u :: before)
        | none => none
      | e :: rest =>
        match escaped? e with
        | some x => stringUnits? fuel rest (x.toNat :: before)
        | none => none
      | [] => none
    else if c.toNat < 0x20 then none
    else stringUnits? fuel cs (c.toNat :: before)

/-- The first half of a surrogate pair. -/
def isHighHalf (u : Nat) : Bool := 0xd800 ≤ u && u < 0xdc00

/-- The second half of a surrogate pair. -/
def isLowHalf (u : Nat) : Bool := 0xdc00 ≤ u && u < 0xe000

/-- The character two halves make. -/
def joinHalves (high low : Nat) : Char :=
  .ofNat (0x10000 + (high - 0xd800) * 0x400 + (low - 0xdc00))

/-- The characters of code points and code units, behind those of `before`, which come in
reverse.  None when a half of a surrogate pair is alone. -/
def joinUnits? : List Nat → List Char → Option (List Char)
  | [], before => some before.reverse
  | [u], before =>
    if isHighHalf u || isLowHalf u then none else some (Char.ofNat u :: before).reverse
  | u :: v :: rest, before =>
    if isHighHalf u then
      if isLowHalf v then joinUnits? rest (joinHalves u v :: before) else none
    else if isLowHalf u then none
    else joinUnits? (v :: rest) (Char.ofNat u :: before)

/-- A string behind its opening quote. -/
def string? (cs : List Char) : Option (Option String × List Char) :=
  (stringUnits? (cs.length + 1) cs []).map fun (units, rest) =>
    ((joinUnits? units []).map String.ofList, rest)

/-! ## Values -/

mutual

/-- A value.  Blanks in front of it are skipped. -/
def value? : Nat → List Char → Option (JsonValue × List Char)
  | 0, _ => none
  | fuel + 1, cs =>
    match skipBlanks cs with
    | 'n' :: rest => (expect? ['u', 'l', 'l'] rest).map (null, ·)
    | 't' :: rest => (expect? ['r', 'u', 'e'] rest).map (bool true, ·)
    | 'f' :: rest => (expect? ['a', 'l', 's', 'e'] rest).map (bool false, ·)
    | '"' :: rest => (string? rest).map fun (text, rest) => (string text, rest)
    | '[' :: rest =>
      match skipBlanks rest with
      | ']' :: rest => some (array [], rest)
      | rest => (items? fuel rest []).map fun (items, rest) => (array items, rest)
    | '{' :: rest =>
      match skipBlanks rest with
      | '}' :: rest => some (object [], rest)
      | rest => (members? fuel rest []).map fun (members, rest) => (object members, rest)
    | rest => (number? rest).map fun (n, rest) => (number n, rest)

/-- The items of an array up to its end, behind those of `before`, which come in
reverse. -/
def items? : Nat → List Char → List JsonValue → Option (List JsonValue × List Char)
  | 0, _, _ => none
  | fuel + 1, cs, before =>
    match value? fuel cs with
    | none => none
    | some (item, rest) =>
      match skipBlanks rest with
      | ',' :: rest => items? fuel rest (item :: before)
      | ']' :: rest => some ((item :: before).reverse, rest)
      | _ => none

/-- The members of an object up to its end, behind those of `before`, which come in
reverse. -/
def members? : Nat → List Char → List (Option String × JsonValue) →
    Option (List (Option String × JsonValue) × List Char)
  | 0, _, _ => none
  | fuel + 1, cs, before =>
    match skipBlanks cs with
    | '"' :: rest =>
      match string? rest with
      | none => none
      | some (key, rest) =>
        match skipBlanks rest with
        | ':' :: rest =>
          match value? fuel rest with
          | none => none
          | some (item, rest) =>
            match skipBlanks rest with
            | ',' :: rest => members? fuel rest ((key, item) :: before)
            | '}' :: rest => some (((key, item) :: before).reverse, rest)
            | _ => none
        | _ => none
    | _ => none

end

/-- The value of a text, none for a text that is not JSON. -/
def ofText? (text : String) : Option JsonValue :=
  match value? (2 * text.length + 2) text.toList with
  | some (v, rest) => if (skipBlanks rest).isEmpty then some v else none
  | none => none

end JsonValue

end PagedGraph
