/-!
Doubles as integers. The nonnegative doubles are numbered in increasing order from zero, and the
number of a magnitude, its *rank*, is what its bits spell. Every finite magnitude is a whole
multiple of the least positive double, counted by `units`, so that decimals are read and written by
exact integer arithmetic on ranks.
-/

namespace Tracery

namespace Binary

def binade : Nat := 1 <<< 52

def infinityRank : Nat := 2047 * binade

def signBit : Nat := 1 <<< 63

def one : Nat := 1 <<< 1074

def rank (x : Float) : Nat := x.toBits.toNat % signBit

def isNegative (x : Float) : Bool := decide (signBit ≤ x.toBits.toNat)

def ofRank (negative : Bool) (rank : Nat) : Float :=
  Float.ofBits (UInt64.ofNat (if negative then signBit + rank else rank))

def isNaN (x : Float) : Bool := decide (infinityRank < rank x)

def isFinite (x : Float) : Bool := decide (rank x < infinityRank)

def units (rank : Nat) : Nat :=
  if rank < binade then rank
  else (binade + rank % binade) <<< (rank / binade - 1)

/-- A quotient rounded to the nearest integer, a half going to the even neighbour. -/
def roundDiv (n d : Nat) : Nat :=
  if d < 2 * (n % d) ∨ (2 * (n % d) = d ∧ n / d % 2 = 1) then n / d + 1 else n / d

/--
The rank of the double nearest to `n / d` units. The quotient keeps 53 binary digits; a carry out
of them lands on the first double of the next binade by itself. Ranks from `infinityRank` up are
magnitudes that no finite double is nearest to.
-/
def rankOfRatio (n d : Nat) : Nat :=
  let dropped := (n / d).log2 - 52
  dropped * binade + roundDiv n (d <<< dropped)

def rankOfNat (n : Nat) : Nat := min infinityRank (rankOfRatio (n * one) 1)

def productRank (a b : Nat) : Nat := min infinityRank (rankOfRatio (units a * units b) one)

def quotientRank (a b : Nat) : Nat := min infinityRank (rankOfRatio (units a * one) (units b))

def ofNat (n : Nat) : Float := ofRank false (rankOfNat n)

/-- The whole part of a finite magnitude, however large. -/
def truncate (x : Float) : Nat := units (rank x) / one

/--
The nearest integer, halves going up. Infinities, NaN and both zeros stay as they are, and a
negative double that rounds to zero gives positive zero.
-/
def roundHalfUp (x : Float) : Float :=
  if rank x = 0 ∨ infinityRank ≤ rank x then x
  else if isNegative x then
    let whole := (2 * units (rank x) + one - 1) / (2 * one)
    ofRank (decide (whole ≠ 0)) (rankOfNat whole)
  else ofNat ((2 * units (rank x) + one) / (2 * one))

end Binary

structure Decimal where
  mantissa : Nat
  exponent : Int
  deriving Repr, DecidableEq

namespace Decimal

open Binary (infinityRank one rankOfRatio units)

def numerator (d : Decimal) : Nat := d.mantissa * Nat.pow 10 d.exponent.toNat

def denominator (d : Decimal) : Nat := Nat.pow 10 (-d.exponent).toNat

def exactRank (d : Decimal) : Nat :=
  min infinityRank (rankOfRatio (d.numerator * one) d.denominator)

/--
The rank of the nearest double. A decimal from `10 ^ 400` up is infinite, and one below `10 ^ -400`
is zero; both are decided without writing out the powers of ten.
-/
def rank (d : Decimal) : Nat :=
  if d.mantissa = 0 then 0
  else if 400 < d.exponent then infinityRank
  else if d.exponent < -400 ∧ d.mantissa.log2 < 3 * (-d.exponent - 400) then 0
  else d.exactRank

def toFloat (negative : Bool) (d : Decimal) : Float := Binary.ofRank negative d.rank

def trim (d : Decimal) : Decimal :=
  if h : d.mantissa ≠ 0 ∧ d.mantissa % 10 = 0 then
    trim ⟨d.mantissa / 10, d.exponent + 1⟩
  else d
termination_by d.mantissa
decreasing_by exact Nat.div_lt_self (Nat.pos_of_ne_zero h.1) (by decide)

def ofRank (rank : Nat) : Decimal := ⟨units rank * Nat.pow 5 1074, -1074⟩

def leadingPlace (rank : Nat) : Int :=
  ((Nat.toDigits 10 (units rank * Nat.pow 10 324 / one)).length : Int) - 325

inductive Tie where
  | up
  | even
  deriving Repr, DecidableEq

def Tie.roundsUp (tie : Tie) (n d : Nat) : Bool :=
  match tie with
  | .up => decide (d ≤ 2 * (n % d))
  | .even => decide (d < 2 * (n % d) ∨ (2 * (n % d) = d ∧ n / d % 2 = 1))

/--
The decimal with a given exponent that reads as the magnitude and lies nearest to it. Only the two
neighbours of the magnitude on the grid of that exponent can be it.
-/
def onGrid (tie : Tie) (rank : Nat) (exponent : Int) : Option Decimal :=
  let n := units rank * Nat.pow 10 (-exponent).toNat
  let d := one * Nat.pow 10 exponent.toNat
  let below : Decimal := ⟨n / d, exponent⟩
  let above : Decimal := ⟨n / d + 1, exponent⟩
  let candidates := if tie.roundsUp n d then [above, below] else [below, above]
  candidates.find? fun candidate => candidate.rank == rank

/--
The fewest digits that read as the magnitude, and of those the nearest. Seventeen digits always
suffice, and all of them are there to fall back on.
-/
def shortest (tie : Tie) (rank : Nat) : Decimal :=
  if rank = 0 then ⟨0, 0⟩
  else
    let place := leadingPlace rank
    match (List.range 17).findSome? fun (n : Nat) => onGrid tie rank (place - n) with
    | some d => d.trim
    | none => (ofRank rank).trim

end Decimal

inductive Sign where
  | plus
  | minus
  deriving Repr, DecidableEq

def Sign.char : Sign → Char
  | .plus => '+'
  | .minus => '-'

/-- A literal `sign whole.fraction e exponent`, of which every part may be missing. -/
structure Literal where
  sign : Option Sign
  whole : List Char
  fraction : Option (List Char)
  exponent : Option Int
  deriving Repr, DecidableEq

namespace Literal

def natural (digits : List Char) : Nat := Nat.ofDigitChars 10 digits 0

def fractionDigits (l : Literal) : List Char := l.fraction.getD []

def hasDigits (l : Literal) : Bool := !(l.whole.isEmpty && l.fractionDigits.isEmpty)

def decimal (l : Literal) : Decimal where
  mantissa := natural (l.whole ++ l.fractionDigits)
  exponent := l.exponent.getD 0 - l.fractionDigits.length

def toFloat (l : Literal) : Float := l.decimal.toFloat (l.sign == some .minus)

def fractionChars : Option (List Char) → List Char
  | some digits => '.' :: digits
  | none => []

def exponentChars : Option Int → List Char
  | some e => 'e' :: (if e < 0 then '-' else '+') :: Nat.toDigits 10 e.natAbs
  | none => []

def chars (l : Literal) : List Char :=
  (l.sign.map Sign.char).toList ++ l.whole ++ fractionChars l.fraction ++ exponentChars l.exponent

def scanSign : List Char → Option Sign × List Char
  | '+' :: rest => (some .plus, rest)
  | '-' :: rest => (some .minus, rest)
  | text => (none, text)

def scanDigits (text : List Char) : List Char × List Char := text.span Char.isDigit

def scanFraction : List Char → Option (List Char) × List Char
  | '.' :: rest => let (digits, rest) := scanDigits rest; (some digits, rest)
  | text => (none, text)

/-- An exponent; without digits there is none, and its letter stays unread. -/
def scanExponent : List Char → Option Int × List Char
  | c :: rest =>
      if c = 'e' ∨ c = 'E' then
        let (sign, afterSign) := scanSign rest
        match scanDigits afterSign with
        | ([], _) => (none, c :: rest)
        | (digits, rest) =>
            (some (if sign = some .minus then -(natural digits : Int) else natural digits), rest)
      else (none, c :: rest)
  | [] => (none, [])

def scan (text : List Char) : Literal × List Char :=
  let (sign, text) := scanSign text
  let (whole, text) := scanDigits text
  let (fraction, text) := scanFraction text
  let (exponent, text) := scanExponent text
  (⟨sign, whole, fraction, exponent⟩, text)

end Literal

/--
How doubles are spelled. The digits are the shortest that read back; from the rank `plainFrom` up to
`plainBelow` they are written without an exponent, and a whole number with `wholeFraction` behind a
point, if there is one.
-/
structure Layout where
  plainFrom : Nat
  plainBelow : Nat
  wholeFraction : Option (List Char)
  signedZero : Bool
  tie : Decimal.Tie

namespace Layout

def plain (layout : Layout) (sign : Option Sign) (d : Decimal) : Literal :=
  let digits := Nat.toDigits 10 d.mantissa
  let places := (-d.exponent).toNat
  if places = 0 then
    ⟨sign, digits ++ List.replicate d.exponent.toNat '0', layout.wholeFraction, none⟩
  else if places < digits.length then
    ⟨sign, digits.take (digits.length - places), some (digits.drop (digits.length - places)), none⟩
  else ⟨sign, ['0'], some (List.replicate (places - digits.length) '0' ++ digits), none⟩

def scientific (sign : Option Sign) (d : Decimal) : Literal :=
  let digits := Nat.toDigits 10 d.mantissa
  let rest := digits.drop 1
  ⟨sign, digits.take 1, if rest.isEmpty then none else some rest,
    some (d.exponent + rest.length)⟩

def literal (layout : Layout) (x : Float) : Literal :=
  let rank := Binary.rank x
  let signed := Binary.isNegative x && (layout.signedZero || rank != 0)
  let sign := if signed then some .minus else none
  let d := Decimal.shortest layout.tie rank
  if rank = 0 ∨ (layout.plainFrom ≤ rank ∧ rank < layout.plainBelow) then layout.plain sign d
  else scientific sign d

def chars (layout : Layout) (x : Float) : List Char :=
  if Binary.isNaN x then "NaN".toList
  else if Binary.isFinite x then (layout.literal x).chars
  else if Binary.isNegative x then "-Infinity".toList
  else "Infinity".toList

end Layout

/-!
Decimal literals read by scaling: the leading digits that fit a word of 64 bits, times or over a
power of ten, each step rounded to a double. This is the nearest double wherever word and power are
doubles themselves, and a neighbour of it at times.
-/

namespace Decimal

def tenRank (n : Nat) : Nat := rank ⟨1, n⟩

def greatestTen : Nat := 308

/--
The rank of the mantissa scaled by the power of ten. A power that is beyond all doubles makes
anything but zero infinite, and is divided by in two steps.
-/
def scaledRank (d : Decimal) : Nat :=
  let mantissa := Binary.rankOfNat d.mantissa
  if 0 ≤ d.exponent then Binary.productRank mantissa (tenRank d.exponent.toNat)
  else
    let places := (-d.exponent).toNat
    Binary.quotientRank
      (Binary.quotientRank mantissa (tenRank (min places greatestTen)))
      (tenRank (places - greatestTen))

end Decimal

namespace Literal

def addDigits (n : Nat) : List Char → Nat × List Char
  | [] => (n, [])
  | c :: rest =>
      let extended := 10 * n + (c.toNat - '0'.toNat)
      if extended < UInt64.size then addDigits extended rest else (n, c :: rest)

/--
The digits of a literal that fit a word, and where they stand. Of the digits before the point those
that are left out count as places; the digits behind the point are then tried anew.
-/
def wordDecimal (l : Literal) : Decimal :=
  let (whole, leftOut) := addDigits 0 l.whole
  let (word, unread) := addDigits whole l.fractionDigits
  ⟨word, l.exponent.getD 0 + leftOut.length + unread.length - l.fractionDigits.length⟩

def scaledFloat (l : Literal) : Float :=
  Binary.ofRank (l.sign == some .minus) l.wordDecimal.scaledRank

end Literal

end Tracery
