import Tracery.Decimal

namespace Tracery

namespace Text

/-- The characters with the Unicode property `White_Space`. -/
def isBlank (c : Char) : Bool :=
  let n := c.toNat
  (9 ≤ n && n ≤ 13) || n == 0x20 || n == 0x85 || n == 0xA0 || n == 0x1680 ||
    (0x2000 ≤ n && n ≤ 0x200A) || n == 0x2028 || n == 0x2029 || n == 0x202F || n == 0x205F ||
    n == 0x3000

def trim (text : List Char) : List Char :=
  ((text.dropWhile isBlank).reverse.dropWhile isBlank).reverse

def isWord (word text : List Char) : Bool := text.map Char.toLower == word

def hexValue? (c : Char) : Option Nat :=
  if c.isDigit then some (c.toNat - '0'.toNat)
  else if 'a' ≤ c ∧ c ≤ 'f' then some (c.toNat - 'a'.toNat + 10)
  else if 'A' ≤ c ∧ c ≤ 'F' then some (c.toNat - 'A'.toNat + 10)
  else none

def hexNumber? (digits : List Char) : Option Nat :=
  (digits.mapM hexValue?).map fun values => values.foldl (fun n digit => 16 * n + digit) 0

def hexDigit (n : Nat) : Char :=
  if n < 10 then Char.ofNat ('0'.toNat + n) else Char.ofNat ('a'.toNat + (n - 10))

end Text

/--
Numbers in attributes: `10` for a whole number, `0` for both zeros, and an exponent below `1e-6`
and from `1e+21` up.
-/
def Layout.markup : Layout where
  plainFrom := Decimal.rank ⟨1, -6⟩
  plainBelow := Decimal.rank ⟨1, 21⟩
  wholeFraction := none
  signedZero := false
  tie := .up

def numberText (x : Float) : String := String.ofList (Layout.markup.chars x)

def namedNumber? (negative : Bool) (text : List Char) : Option Float :=
  if Text.isWord "inf".toList text || Text.isWord "infinity".toList text then
    some (Binary.ofRank negative Binary.infinityRank)
  else if Text.isWord "nan".toList text then some (0 / 0)
  else none

/--
The number that a text spells, blanks around it aside: a decimal literal with at least one digit,
or `inf`, `infinity` or `nan` in any case, each with an optional sign.
-/
def readNumber? (text : String) : Option Float :=
  let text := Text.trim text.toList
  match Literal.scan text with
  | (literal, []) => if literal.hasDigits then some literal.toFloat else none
  | _ =>
      let (sign, name) := Literal.scanSign text
      namedNumber? (sign == some .minus) name

end Tracery
