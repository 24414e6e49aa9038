import Tracery.Text

namespace Tracery

structure Color where
  r : Float
  g : Float
  b : Float
  a : Float
  deriving Repr, DecidableEq

namespace Color

instance : BEq Color := ⟨fun c d => c.r == d.r && c.g == d.g && c.b == d.b && c.a == d.a⟩

def ofBytes (r g b a : Nat) : Color :=
  ⟨Binary.ofNat r, Binary.ofNat g, Binary.ofNat b, Binary.ofNat a / 255⟩

def solid (r g b : Nat) : Color := ofBytes r g b 255

def withAlpha (c : Color) (a : Float) : Color := { c with a }

/-- The paint text `rgba(r,g,b,a)`, with whole channels and, if asked for, a whole opacity. -/
def paint (c : Color) (roundAlpha : Bool) : String :=
  let channel (x : Float) := numberText (Binary.roundHalfUp x)
  let alpha := if roundAlpha then channel c.a else numberText c.a
  "rgba(" ++ channel c.r ++ "," ++ channel c.g ++ "," ++ channel c.b ++ "," ++ alpha ++ ")"

def named : List (String × Color) :=
  [("black", solid 0 0 0), ("white", solid 255 255 255), ("transparent", ofBytes 0 0 0 0),
   ("red", solid 255 0 0), ("green", solid 0 128 0), ("lime", solid 0 255 0),
   ("blue", solid 0 0 255), ("navy", solid 0 0 128), ("yellow", solid 255 255 0),
   ("cyan", solid 0 255 255), ("aqua", solid 0 255 255), ("magenta", solid 255 0 255),
   ("fuchsia", solid 255 0 255), ("gray", solid 128 128 128), ("grey", solid 128 128 128),
   ("silver", solid 192 192 192), ("maroon", solid 128 0 0), ("olive", solid 128 128 0),
   ("purple", solid 128 0 128), ("teal", solid 0 128 128), ("orange", solid 255 165 0),
   ("gold", solid 255 215 0), ("pink", solid 255 192 203), ("tomato", solid 255 99 71),
   ("coral", solid 255 127 80), ("crimson", solid 220 20 60), ("indigo", solid 75 0 130),
   ("violet", solid 238 130 238), ("turquoise", solid 64 224 208), ("salmon", solid 250 128 114),
   ("khaki", solid 240 230 140), ("chocolate", solid 210 105 30), ("steelblue", solid 70 130 180),
   ("skyblue", solid 135 206 235), ("rebeccapurple", solid 102 51 153)]

def named? (name : List Char) : Option Color :=
  named.lookup (String.ofList (name.map Char.toLower))

/-- The color of the digits behind a `#`: one or two to a channel, the opacity last if at all. -/
def ofHexDigits? : List Nat → Option Color
  | [r, g, b] => some (solid (17 * r) (17 * g) (17 * b))
  | [r, g, b, a] => some (ofBytes (17 * r) (17 * g) (17 * b) (17 * a))
  | [r, r', g, g', b, b'] => some (solid (16 * r + r') (16 * g + g') (16 * b + b'))
  | [r, r', g, g', b, b', a, a'] =>
      some (ofBytes (16 * r + r') (16 * g + g') (16 * b + b') (16 * a + a'))
  | _ => none

def isGap (c : Char) : Bool := c == ' ' || c == '\t' || c == '\r' || c == '\n'

def skipGaps (text : List Char) : List Char := text.dropWhile isGap

def scanName (word text : List Char) : Option (List Char) :=
  if Text.isWord word (text.take 3) then some (text.drop 3) else none

def scanChannel (text : List Char) : Option (Float × List Char) :=
  let (literal, rest) := Literal.scan text
  if literal.hasDigits then some (literal.toFloat, rest)
  else match scanName "nan".toList text with
    | some rest => some (0 / 0, rest)
    | none =>
        match scanName "inf".toList text with
        | some rest => some (Binary.ofRank false Binary.infinityRank, rest)
        | none => none

def scanChannels : Nat → List Char → Option (List Float × List Char)
  | 0, _ => none
  | limit + 1, text =>
      match scanChannel text with
      | none => none
      | some (channel, rest) =>
          match skipGaps rest with
          | ')' :: rest => some ([channel], rest)
          | ',' :: rest =>
              (scanChannels limit (skipGaps rest)).map fun (channels, rest) =>
                (channel :: channels, rest)
          | _ => none

def ofChannels? : List Float → Option Color
  | [r, g, b] => some ⟨r, g, b, 1⟩
  | [r, g, b, a] => some ⟨r, g, b, a⟩
  | _ => none

def ofFunction? (text : List Char) : Option Color :=
  let text := match text with
    | c :: rest => if c.toLower = 'a' then rest else text
    | [] => []
  match skipGaps text with
  | '(' :: rest =>
      match scanChannels 4 (skipGaps rest) with
      | some (channels, []) => ofChannels? channels
      | _ => none
  | _ => none

def ofCss? (text : String) : Option Color :=
  let text := Text.trim text.toList
  match text with
  | '#' :: digits => (digits.mapM Text.hexValue?).bind ofHexDigits?
  | _ =>
      match scanName "rgb".toList text with
      | some rest => ofFunction? rest
      | none => named? text

end Color

end Tracery
