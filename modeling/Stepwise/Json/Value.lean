/-!
# JSON values

The values a JSON text can hold. Two of them keep more than their meaning, so that
whoever reads a value can decide how strict to be.

* A number keeps the decimal it was written as, and whether it was written as a whole
  number. As a double it is that decimal, correctly rounded.
* A text may contain escapes for single halves of a surrogate pair. Such a text
  stands for no characters; it is kept as a text without content.

Members of an object keep their order and their repetitions.
-/

namespace Stepwise.Json

/-- A number as it was written: `± digits · 10 ^ power`. -/
structure Numeral where
  /-- Whether a minus sign was written, also before a zero. -/
  negative : Bool
  /-- All digits, read as one number. -/
  digits : Nat
  /-- The power of ten they count. -/
  power : Int
  /-- Whether neither a point nor an exponent was written. -/
  whole : Bool
  deriving Repr, DecidableEq

/-- A JSON value. -/
inductive Value where
  /-- The literal `null`. -/
  | null
  /-- A truth value. -/
  | bool (value : Bool)
  /-- A number. -/
  | number (numeral : Numeral)
  /-- A text; without content if its escapes name no characters. -/
  | text (content : Option String)
  /-- A list of values. -/
  | array (items : List Value)
  /-- Named values. -/
  | object (members : List (Option String × Value))

namespace Numeral

/-- The double nearest to a number. -/
def toFloat (n : Numeral) : Float :=
  let size := Float.ofScientific n.digits (n.power < 0) n.power.natAbs
  if n.negative then -size else size

/-- A number written as a count of at most 64 bits. -/
def toCount? (n : Numeral) : Option Nat :=
  if n.whole && !n.negative && n.digits < UInt64.size then some n.digits else none

end Numeral

namespace Value

/-- The double nearest to a number, if it is not beyond all doubles. -/
def toFloat? : Value → Option Float
  | number n => if n.toFloat.isFinite then some n.toFloat else none
  | _ => none

/-- A count. -/
def toCount? : Value → Option Nat
  | number n => n.toCount?
  | _ => none

/-- The content of a text. -/
def toText? : Value → Option String
  | text content => content
  | _ => none

/-- The items of a list. -/
def toItems? : Value → Option (List Value)
  | array items => some items
  | _ => none

/-- The first member of an object with a given name. -/
def member? (name : String) : Value → Option Value
  | object members => (members.find? fun m => m.1 == some name).map (·.2)
  | _ => none

end Value

end Stepwise.Json
