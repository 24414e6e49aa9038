import Tracery.Decimal
import Tracery.Text

/-!
TOML 1.0 documents as trees of tables, built up by the statements of a text. A table may be opened
by a header once, and a key may be given a value once. Where the format leaves a choice it is that
of `toml` 0.8: integers are words of 64 bits, and a float that is too large is refused.
-/

namespace Tracery

/--
How a table came to be: by a header of its own, on the way to a table with a header, or on the way
to a value, by a key with dots.
-/
inductive Toml.Origin where
  | header
  | implied
  | dotted
  deriving Repr, DecidableEq

inductive Toml where
  | string (content : String)
  | integer (n : Int)
  | float (x : Float)
  | boolean (b : Bool)
  | moment (spelling : String)
  | array (items : List Toml)
  | inline (entries : List (String × Toml))
  | table (origin : Toml.Origin) (entries : List (String × Toml))
  | tables (last : List (String × Toml)) (before : List (List (String × Toml)))
  deriving Repr, Inhabited

namespace Toml

abbrev Entries := List (String × Toml)

def alter (key : String) (change : Option Toml → Option Toml) : Entries → Option Entries
  | [] => (change none).map fun value => [(key, value)]
  | (k, value) :: rest =>
      if k = key then (change (some value)).map fun value => (k, value) :: rest
      else (alter key change rest).map ((k, value) :: ·)

def put (value : Toml) : List String → Entries → Option Entries
  | [] => fun _ => none
  | [key] => alter key fun
      | none => some value
      | some _ => none
  | key :: next :: path => alter key fun
      | none => (put value (next :: path) []).map (table .dotted)
      | some (.table .dotted entries) => (put value (next :: path) entries).map (table .dotted)
      | some (.table .implied entries) =>
          if path.isEmpty then none else (put value (next :: path) entries).map (table .implied)
      | some (.tables last before) =>
          if path.isEmpty then none else (put value (next :: path) last).map (tables · before)
      | some _ => none

def within (change : Entries → Option Entries) : List String → Entries → Option Entries
  | [] => change
  | key :: path => alter key fun
      | none => (within change path []).map (table .implied)
      | some (.table origin entries) => (within change path entries).map (table origin)
      | some (.tables last before) => (within change path last).map (tables · before)
      | some _ => none

def openTable (path : List String) (key : String) : Entries → Option Entries :=
  within (alter key fun
    | none => some (.table .header [])
    | some (.table .implied entries) => some (.table .header entries)
    | some _ => none) path

def openRow (path : List String) (key : String) : Entries → Option Entries :=
  within (alter key fun
    | none => some (.tables [] [])
    | some (.tables last before) => some (.tables [] (last :: before))
    | some _ => none) path

inductive Statement where
  | pair (keys : List String) (value : Toml)
  | header (keys : List String)
  | rowHeader (keys : List String)
  deriving Repr

structure Draft where
  path : List String := []
  entries : Entries := []

def Draft.add (draft : Draft) : Statement → Option Draft
  | .pair keys value => do
      return { draft with entries := ← within (put value keys) draft.path draft.entries }
  | .header keys => do
      return ⟨keys, ← openTable keys.dropLast (← keys.getLast?) draft.entries⟩
  | .rowHeader keys => do
      return ⟨keys, ← openRow keys.dropLast (← keys.getLast?) draft.entries⟩

def ofStatements? (statements : List Statement) : Option Entries :=
  (statements.foldlM Draft.add {}).map Draft.entries

def ofPairs? (pairs : List (List String × Toml)) : Option Entries :=
  pairs.foldlM (fun entries (keys, value) => put value keys entries) []

def digits? (isDigit : Char → Bool) : List Char → Option (List Char)
  | [] => none
  | [c] => if isDigit c then some [c] else none
  | c :: '_' :: rest => if isDigit c then (digits? isDigit rest).map (c :: ·) else none
  | c :: rest => if isDigit c then (digits? isDigit rest).map (c :: ·) else none

def wholeDigits? (text : List Char) : Option (List Char) :=
  (digits? Char.isDigit text).filter fun digits => digits.length == 1 || digits.head? != some '0'

def word? (n : Int) : Option Toml :=
  if -9223372036854775808 ≤ n ∧ n ≤ 9223372036854775807 then some (.integer n) else none

def based? (base : Nat) (text : List Char) : Option Toml := do
  let digits ← digits? (fun c => (Text.hexValue? c).any (· < base)) text
  let values ← digits.mapM Text.hexValue?
  word? (values.foldl (fun n digit => base * n + digit) 0 : Nat)

/-- A float by its parts; one that is too large is refused, unless it is negative. -/
def float? (sign : Option Sign) (whole : List Char) (fraction : Option (List Char))
    (exponent : Int) : Option Toml :=
  let x := (Literal.mk sign whole fraction (some exponent)).toFloat
  if Binary.isFinite x || sign == some .minus then some (.float x) else none

def exponent? (text : List Char) : Option Int := do
  let (sign, text) := Literal.scanSign text
  let digits ← digits? Char.isDigit text
  return if sign = some .minus then -(Literal.natural digits : Int) else Literal.natural digits

def spanDigits (text : List Char) : List Char × List Char :=
  text.span fun c => c.isDigit || c == '_'

def decimal? (sign : Option Sign) (text : List Char) : Option Toml := do
  let (whole, rest) := spanDigits text
  let whole ← wholeDigits? whole
  match rest with
  | [] =>
      let n : Int := Literal.natural whole
      word? (if sign = some .minus then -n else n)
  | '.' :: rest =>
      let (fraction, rest) := spanDigits rest
      let fraction ← digits? Char.isDigit fraction
      match rest with
      | [] => float? sign whole (some fraction) 0
      | c :: rest =>
          if c = 'e' ∨ c = 'E' then float? sign whole (some fraction) (← exponent? rest) else none
  | c :: rest => if c = 'e' ∨ c = 'E' then float? sign whole none (← exponent? rest) else none

def number? (text : List Char) : Option Toml :=
  match text with
  | '0' :: 'x' :: digits => based? 16 digits
  | '0' :: 'o' :: digits => based? 8 digits
  | '0' :: 'b' :: digits => based? 2 digits
  | _ =>
      let (sign, text) := Literal.scanSign text
      if text = "inf".toList then
        some (.float (Binary.ofRank (sign == some .minus) Binary.infinityRank))
      else if text = "nan".toList then some (.float (0 / 0))
      else decimal? sign text

def scanFixed (count : Nat) (text : List Char) : Option (Nat × List Char) :=
  let digits := text.take count
  if digits.length = count ∧ digits.all Char.isDigit then
    some (Literal.natural digits, text.drop count)
  else none

def daysOfMonth (year month : Nat) : Nat :=
  match month with
  | 2 => if year % 4 = 0 ∧ (year % 100 ≠ 0 ∨ year % 400 = 0) then 29 else 28
  | 4 | 6 | 9 | 11 => 30
  | _ => 31

def skipChar (c : Char) : List Char → Option (List Char)
  | d :: rest => if d = c then some rest else none
  | [] => none

def scanDate (text : List Char) : Option (List Char) := do
  let (year, text) ← scanFixed 4 text
  let (month, text) ← scanFixed 2 (← skipChar '-' text)
  let (day, text) ← scanFixed 2 (← skipChar '-' text)
  if 1 ≤ month ∧ month ≤ 12 ∧ 1 ≤ day ∧ day ≤ daysOfMonth year month then some text else none

def scanClock (text : List Char) : Option (List Char) := do
  let (hour, text) ← scanFixed 2 text
  let (minute, text) ← scanFixed 2 (← skipChar ':' text)
  if hour ≤ 23 ∧ minute ≤ 59 then some text else none

def scanTime (text : List Char) : Option (List Char) := do
  let (second, text) ← scanFixed 2 (← skipChar ':' (← scanClock text))
  if 60 < second then none
  else
    match text with
    | '.' :: rest =>
        let (digits, rest) := Literal.scanDigits rest
        if digits.isEmpty then none else some rest
    | rest => some rest

def isOffset : List Char → Bool
  | [] => true
  | ['Z'] => true
  | ['z'] => true
  | '+' :: rest => scanClock rest == some []
  | '-' :: rest => scanClock rest == some []
  | _ => false

def isDate (text : List Char) : Bool := scanDate text == some []

def isZonedTime (text : List Char) : Bool := (scanTime text).any isOffset

def isMoment (text : List Char) : Bool :=
  scanTime text == some [] ||
    (match scanDate text with
    | some [] => true
    | some (c :: rest) => (c == 'T' || c == 't') && isZonedTime rest
    | none => false)

end Toml

end Tracery
