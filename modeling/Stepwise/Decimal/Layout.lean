import Stepwise.Decimal.Shortest

/-!
# Writing doubles

A double is written with its shortest digits. What is left to say is the layout:
from which size on an exponent is used, and whether a whole number shows that it is
not a count. There are two layouts.

* `Stepwise.Decimal.Layout.compact`, for data: an exponent below `10⁻⁴` and from
  `10¹⁶` on, and `.0` after whole numbers.
* `Stepwise.Decimal.Layout.plain`, for sentences: never an exponent, and whole
  numbers without a point.
-/

namespace Stepwise.Decimal

/-! ### What a double stands for -/

/-- A double taken apart. -/
inductive Double where
  /-- No number at all. -/
  | undefined
  /-- Beyond all numbers. -/
  | infinite (negative : Bool)
  /-- Zero, which has a sign too. -/
  | zero (negative : Bool)
  /-- The number `± significand · 2 ^ exponent`; `closerBelow` says that the next
  double towards zero is only half as far away as the next one from zero. -/
  | finite (negative : Bool) (significand : Nat) (exponent : Int) (closerBelow : Bool)

/-- The parts of a double: a sign bit, eleven bits of exponent and fifty-two bits of
fraction. -/
def Double.ofFloat (x : Float) : Double :=
  let bits : Nat := x.toBits.toNat
  let negative := bits / Nat.pow 2 63 = 1
  let power : Nat := bits / Nat.pow 2 52 % 2048
  let fraction : Nat := bits % Nat.pow 2 52
  if power = 2047 then
    if fraction = 0 then .infinite negative else .undefined
  else if power = 0 then
    if fraction = 0 then .zero negative else .finite negative fraction (-1074) false
  else .finite negative (Nat.pow 2 52 + fraction) (power - 1075) (fraction = 0 && 1 < power)

/-! ### Layouts -/

/-- How digits are laid out. -/
structure Layout where
  /-- Whether a number is written without an exponent, given the power of ten of its
  leading digit. -/
  positional : Int → Bool
  /-- What follows a whole number written without an exponent. -/
  wholeMark : String

namespace Layout

/-- The layout of numbers in data. -/
def compact : Layout := ⟨fun power => -4 ≤ power && power < 16, ".0"⟩

/-- The layout of numbers in sentences. -/
def plain : Layout := ⟨fun _ => true, ""⟩

/-- Digits with the point `before` places after their first one, padded with zeros
where there are no digits. -/
def withPoint (l : Layout) (digits : List Char) (before : Int) : String :=
  if before ≤ 0 then "0." ++ String.ofList (List.replicate (-before).toNat '0' ++ digits)
  else
    let n := before.toNat
    if digits.length ≤ n then
      String.ofList (digits ++ List.replicate (n - digits.length) '0') ++ l.wholeMark
    else String.ofList (digits.take n) ++ "." ++ String.ofList (digits.drop n)

/-- Digits with an exponent, the point after the first of them. -/
def withExponent (digits : List Char) (power : Int) : String :=
  let lead := String.ofList (digits.take 1)
  let rest := String.ofList (digits.drop 1)
  lead ++ (if rest.isEmpty then "" else "." ++ rest) ++ "e" ++ toString power

/-- A decimal in the layout, without zeros at its end. -/
def digits (l : Layout) (d : Digits) : String :=
  let all := Nat.toDigits 10 d.significand
  let before : Int := all.length + d.exponent
  let shown := (all.reverse.dropWhile (· = '0')).reverse
  if l.positional (before - 1) then l.withPoint shown before
  else withExponent shown (before - 1)

/-- A sign, if one is needed. -/
def sign (negative : Bool) : String := if negative then "-" else ""

/-- A double in the layout. -/
def text (l : Layout) (x : Float) : String :=
  match Double.ofFloat x with
  | .undefined => "NaN"
  | .infinite negative => sign negative ++ "inf"
  | .zero negative => sign negative ++ "0" ++ l.wholeMark
  | .finite negative significand exponent closerBelow =>
    sign negative ++ l.digits (Span.ofBinary significand exponent closerBelow).shortest

end Layout

/-- A double as data. -/
def compact (x : Float) : String := Layout.compact.text x

/-- A double in a sentence. -/
def plain (x : Float) : String := Layout.plain.text x

/-- A list of doubles as data. -/
def compactList (xs : List Float) : String := "[" ++ ", ".intercalate (xs.map compact) ++ "]"

end Stepwise.Decimal
