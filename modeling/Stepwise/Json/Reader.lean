import Stepwise.Json.Value

/-!
# Reading JSON

A reader takes a value off the front of a text and returns it with the rest. The
grammar is the standard's: four blank characters, no leading zeros, no trailing
commas, no raw control characters inside a text, and nothing but blanks after the
value.

The recursive readers take a budget, which bounds how many values they may read.
Each value takes at least one character, so the length of the text is budget enough.
-/

namespace Stepwise.Json

/-- A text that is still to be read. -/
abbrev Input := List Char

/-- Whether a character may stand between the parts of a value. -/
def isBlank (c : Char) : Bool := c == ' ' || c == '\n' || c == '\t' || c == '\r'

/-- The text after its leading blanks. -/
def skipBlanks (input : Input) : Input := input.dropWhile isBlank

/-- The text after a literal, if it starts with it. -/
def skip? (literal : String) (input : Input) : Option Input :=
  if literal.toList.isPrefixOf input then some (input.drop literal.length) else none

/-! ### Numbers -/

/-- The number that digits stand for. -/
def ofDigits (digits : List Char) : Nat :=
  digits.foldl (fun n c => 10 * n + (c.toNat - '0'.toNat)) 0

/-- A run of digits, without a zero at the front of a longer one. -/
def wholeDigits? (input : Input) : Option (List Char × Input) :=
  match input with
  | '0' :: rest => some (['0'], rest)
  | _ =>
    match input.takeWhile Char.isDigit with
    | [] => none
    | digits => some (digits, input.dropWhile Char.isDigit)

/-- At least one digit. -/
def someDigits? (input : Input) : Option (List Char × Input) :=
  match input.takeWhile Char.isDigit with
  | [] => none
  | digits => some (digits, input.dropWhile Char.isDigit)

/-- The digits after a point, if there is one. -/
def fraction? (input : Input) : Option (List Char × Input) :=
  match input with
  | '.' :: rest => someDigits? rest
  | _ => some ([], input)

/-- The exponent, if there is one. -/
def exponent? (input : Input) : Option (Option Int × Input) :=
  let signed (rest : Input) : Option (Option Int × Input) :=
    match rest with
    | '-' :: rest =>
      (someDigits? rest).map fun (digits, rest) => (some (-(ofDigits digits : Int)), rest)
    | '+' :: rest => (someDigits? rest).map fun (digits, rest) => (some (ofDigits digits), rest)
    | _ => (someDigits? rest).map fun (digits, rest) => (some (ofDigits digits), rest)
  match input with
  | 'e' :: rest => signed rest
  | 'E' :: rest => signed rest
  | _ => some (none, input)

/-- A number. -/
def numeral? (input : Input) : Option (Numeral × Input) := do
  let (negative, input) := match input with
    | '-' :: rest => (true, rest)
    | _ => (false, input)
  let (before, input) ← wholeDigits? input
  let (after, input) ← fraction? input
  let (power, input) ← exponent? input
  return ({
    negative := negative
    digits := ofDigits (before ++ after)
    power := power.getD 0 - after.length
    whole := after.isEmpty && power.isNone }, input)

/-! ### Texts -/

/-- What one place of a text was written as. -/
inductive Piece where
  /-- A character, or a short escape for one. -/
  | char (c : Char)
  /-- An escaped code unit of sixteen bits. -/
  | unit (n : Nat)

/-- The value of a hexadecimal digit. -/
def hexDigit? (c : Char) : Option Nat :=
  if '0' ≤ c && c ≤ '9' then some (c.toNat - '0'.toNat)
  else if 'a' ≤ c && c ≤ 'f' then some (c.toNat - 'a'.toNat + 10)
  else if 'A' ≤ c && c ≤ 'F' then some (c.toNat - 'A'.toNat + 10)
  else none

/-- The code unit of four hexadecimal digits. -/
def hexUnit? (a b c d : Char) : Option Nat := do
  return ((← hexDigit? a) * 16 + (← hexDigit? b)) * 256 + (← hexDigit? c) * 16 + (← hexDigit? d)

/-- The character of a short escape. -/
def shortEscape? (c : Char) : Option Char :=
  match c with
  | '\x22' => some '\x22'
  | '\x5c' => some '\x5c'
  | '/' => some '/'
  | 'b' => some '\x08'
  | 'f' => some '\x0c'
  | 'n' => some '\n'
  | 'r' => some '\r'
  | 't' => some '\t'
  | _ => none

/-- The pieces of a text whose opening quote has been read, up to the closing one. -/
def pieces? : Input → Option (List Piece × Input)
  | [] => none
  | '\x22' :: rest => some ([], rest)
  | '\x5c' :: 'u' :: a :: b :: c :: d :: rest => do
    let n ← hexUnit? a b c d
    let (pieces, rest) ← pieces? rest
    return (.unit n :: pieces, rest)
  | '\x5c' :: e :: rest => do
    let c ← shortEscape? e
    let (pieces, rest) ← pieces? rest
    return (.char c :: pieces, rest)
  | c :: rest =>
    if c == '\x5c' || c.toNat < 0x20 then none
    else do
      let (pieces, rest) ← pieces? rest
      return (.char c :: pieces, rest)

/-- The characters that pieces stand for: a high surrogate has to be followed by a
low one, and a low one may not stand alone. -/
def characters? : List Piece → Option (List Char)
  | [] => some []
  | .char c :: rest => (characters? rest).map (c :: ·)
  | .unit n :: rest =>
    if n < 0xD800 || 0xE000 ≤ n then (characters? rest).map (Char.ofNat n :: ·)
    else if 0xDC00 ≤ n then none
    else match rest with
      | .unit m :: rest =>
        if 0xDC00 ≤ m && m < 0xE000 then
          (characters? rest).map
            (Char.ofNat (0x10000 + (n - 0xD800) * 0x400 + (m - 0xDC00)) :: ·)
        else none
      | _ => none

/-- A text whose opening quote has been read. -/
def text? (input : Input) : Option (Option String × Input) := do
  let (pieces, rest) ← pieces? input
  return ((characters? pieces).map String.ofList, rest)

/-! ### Values -/

mutual

/-- A value, after blanks. -/
def value? : (budget : Nat) → Input → Option (Value × Input)
  | 0, _ => none
  | budget + 1, input =>
    match skipBlanks input with
    | '\x22' :: rest => (text? rest).map fun (content, rest) => (.text content, rest)
    | '[' :: rest =>
      match skipBlanks rest with
      | ']' :: rest => some (.array [], rest)
      | _ => (items? budget rest).map fun (items, rest) => (.array items, rest)
    | '\x7b' :: rest =>
      match skipBlanks rest with
      | '\x7d' :: rest => some (.object [], rest)
      | _ => (members? budget rest).map fun (members, rest) => (.object members, rest)
    | 'n' :: rest => (skip? "ull" rest).map fun rest => (.null, rest)
    | 't' :: rest => (skip? "rue" rest).map fun rest => (.bool true, rest)
    | 'f' :: rest => (skip? "alse" rest).map fun rest => (.bool false, rest)
    | input => (numeral? input).map fun (numeral, rest) => (.number numeral, rest)

/-- The items of a list, from the first one to the closing bracket. -/
def items? : (budget : Nat) → Input → Option (List Value × Input)
  | 0, _ => none
  | budget + 1, input => do
    let (item, rest) ← value? budget input
    match skipBlanks rest with
    | ',' :: rest =>
      let (items, rest) ← items? budget rest
      return (item :: items, rest)
    | ']' :: rest => return ([item], rest)
    | _ => none

/-- The members of an object, from the first one to the closing brace. -/
def members? : (budget : Nat) → Input → Option (List (Option String × Value) × Input)
  | 0, _ => none
  | budget + 1, input =>
    match skipBlanks input with
    | '\x22' :: rest => do
      let (name, rest) ← text? rest
      match skipBlanks rest with
      | ':' :: rest =>
        let (value, rest) ← value? budget rest
        match skipBlanks rest with
        | ',' :: rest =>
          let (members, rest) ← members? budget rest
          return ((name, value) :: members, rest)
        | '\x7d' :: rest => return ([(name, value)], rest)
        | _ => none
      | _ => none
    | _ => none

end

/-- The value that a whole text holds. -/
def read? (text : String) : Option Value :=
  let input := text.toList
  match value? (2 * input.length + 2) input with
  | some (value, rest) => if (skipBlanks rest).isEmpty then some value else none
  | none => none

end Stepwise.Json
