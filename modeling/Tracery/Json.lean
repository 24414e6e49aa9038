import Tracery.Decimal
import Tracery.Text

namespace Tracery

/--
A JSON text as a tree. Numbers keep their digits. A string is `none` if its escapes leave half of a
surrogate pair alone, so that it spells no text.
-/
inductive Json where
  | null
  | bool (b : Bool)
  | number (literal : Literal)
  | string (content : Option String)
  | array (items : List Json)
  | object (fields : List (Option String × Json))
  deriving Repr, Inhabited

namespace Json

def text (content : String) : Json := .string (some content)

/-!
Texts are read and written as `serde_json` documents it: a text is one value with nothing but blanks
around it, numbers have no leading zeros or plus, controls are escaped, and no blanks are written.
-/

def isGap (c : Char) : Bool := c == ' ' || c == '\t' || c == '\n' || c == '\r'

def skipGaps (text : List Char) : List Char := text.dropWhile isGap

inductive StringPart where
  | char (c : Char)
  | unit (n : Nat)
  deriving Repr, DecidableEq

def escaped? : Char → Option Char
  | '"' => some '"'
  | '\\' => some '\\'
  | '/' => some '/'
  | 'b' => some '\x08'
  | 'f' => some '\x0c'
  | 'n' => some '\n'
  | 'r' => some '\r'
  | 't' => some '\t'
  | _ => none

def scanParts : List Char → Option (List StringPart × List Char)
  | [] => none
  | '"' :: rest => some ([], rest)
  | '\\' :: 'u' :: a :: b :: c :: d :: rest => do
      let n ← Text.hexNumber? [a, b, c, d]
      let (parts, rest) ← scanParts rest
      return (.unit n :: parts, rest)
  | '\\' :: c :: rest => do
      let c ← escaped? c
      let (parts, rest) ← scanParts rest
      return (.char c :: parts, rest)
  | c :: rest =>
      if c.toNat < 0x20 then none
      else do
        let (parts, rest) ← scanParts rest
        return (.char c :: parts, rest)

def isHighSurrogate (n : Nat) : Bool := 0xD800 ≤ n && n ≤ 0xDBFF

def isLowSurrogate (n : Nat) : Bool := 0xDC00 ≤ n && n ≤ 0xDFFF

/-- The characters of a string; two surrogates make one, and one alone makes none. -/
def joinParts : List StringPart → Option (List Char)
  | [] => some []
  | .char c :: rest => (joinParts rest).map (c :: ·)
  | .unit n :: .unit m :: rest =>
      if isHighSurrogate n then
        if isLowSurrogate m then
          (joinParts rest).map (Char.ofNat (0x10000 + (n - 0xD800) * 0x400 + (m - 0xDC00)) :: ·)
        else none
      else if isLowSurrogate n then none
      else (joinParts (.unit m :: rest)).map (Char.ofNat n :: ·)
  | .unit n :: rest =>
      if isHighSurrogate n || isLowSurrogate n then none
      else (joinParts rest).map (Char.ofNat n :: ·)

def scanString (text : List Char) : Option (Option String × List Char) :=
  (scanParts text).map fun (parts, rest) => ((joinParts parts).map String.ofList, rest)

/-- Whether a literal is a JSON number: no plus, no needless zeros in front, digits at a point. -/
def isNumber (l : Literal) : Bool :=
  l.sign != some .plus && !l.whole.isEmpty && (l.whole.length == 1 || l.whole.head? != some '0') &&
    l.fraction != some []

def scanWord : List Char → Option (Json × List Char)
  | 'n' :: 'u' :: 'l' :: 'l' :: rest => some (.null, rest)
  | 't' :: 'r' :: 'u' :: 'e' :: rest => some (.bool true, rest)
  | 'f' :: 'a' :: 'l' :: 's' :: 'e' :: rest => some (.bool false, rest)
  | text =>
      let (literal, rest) := Literal.scan text
      if isNumber literal then some (.number literal, rest) else none

mutual
def scanValue : Nat → List Char → Option (Json × List Char)
  | 0, _ => none
  | limit + 1, text =>
      match skipGaps text with
      | '"' :: rest => (scanString rest).map fun (content, rest) => (.string content, rest)
      | '[' :: rest =>
          match skipGaps rest with
          | ']' :: rest => some (.array [], rest)
          | rest => (scanItems limit rest).map fun (items, rest) => (.array items, rest)
      | '\x7b' :: rest =>
          match skipGaps rest with
          | '\x7d' :: rest => some (.object [], rest)
          | rest => (scanFields limit rest).map fun (fields, rest) => (.object fields, rest)
      | rest => scanWord rest
termination_by structural limit => limit

def scanItems : Nat → List Char → Option (List Json × List Char)
  | 0, _ => none
  | limit + 1, text => do
      let (item, rest) ← scanValue limit text
      match skipGaps rest with
      | ']' :: rest => return ([item], rest)
      | ',' :: rest =>
          let (items, rest) ← scanItems limit rest
          return (item :: items, rest)
      | _ => none
termination_by structural limit => limit

def scanFields : Nat → List Char → Option (List (Option String × Json) × List Char)
  | 0, _ => none
  | limit + 1, text =>
      match skipGaps text with
      | '"' :: rest => do
          let (key, rest) ← scanString rest
          match skipGaps rest with
          | ':' :: rest =>
              let (item, rest) ← scanValue limit rest
              match skipGaps rest with
              | '\x7d' :: rest => return ([(key, item)], rest)
              | ',' :: rest =>
                  let (fields, rest) ← scanFields limit rest
                  return ((key, item) :: fields, rest)
              | _ => none
          | _ => none
      | _ => none
termination_by structural limit => limit
end

def read? (text : String) : Option Json :=
  match scanValue (text.toList.length + 1) text.toList with
  | some (json, rest) => if (skipGaps rest).isEmpty then some json else none
  | none => none

def escape (c : Char) : List Char :=
  match c with
  | '"' => ['\\', '"']
  | '\\' => ['\\', '\\']
  | '\x08' => ['\\', 'b']
  | '\x0c' => ['\\', 'f']
  | '\n' => ['\\', 'n']
  | '\r' => ['\\', 'r']
  | '\t' => ['\\', 't']
  | c =>
      if c.toNat < 0x20 then
        ['\\', 'u', '0', '0', Text.hexDigit (c.toNat / 16), Text.hexDigit (c.toNat % 16)]
      else [c]

/-- A string in quotes. What spells no text is half of a surrogate pair. -/
def writeString (content : Option String) (rest : List Char) : List Char :=
  match content with
  | some content => '"' :: content.toList.flatMap escape ++ '"' :: rest
  | none => '"' :: '\\' :: 'u' :: 'd' :: '8' :: '0' :: '0' :: '"' :: rest

mutual
def write : Json → List Char → List Char
  | .null, rest => "null".toList ++ rest
  | .bool true, rest => "true".toList ++ rest
  | .bool false, rest => "false".toList ++ rest
  | .number literal, rest => literal.chars ++ rest
  | .string content, rest => writeString content rest
  | .array [], rest => '[' :: ']' :: rest
  | .array (item :: items), rest => '[' :: write item (writeItems items rest)
  | .object [], rest => '\x7b' :: '\x7d' :: rest
  | .object ((key, item) :: fields), rest =>
      '\x7b' :: writeString key (':' :: write item (writeFields fields rest))
termination_by structural json => json

def writeItems : List Json → List Char → List Char
  | [], rest => ']' :: rest
  | item :: items, rest => ',' :: write item (writeItems items rest)
termination_by structural items => items

def writeFields : List (Option String × Json) → List Char → List Char
  | [], rest => '\x7d' :: rest
  | (key, item) :: fields, rest =>
      ',' :: writeString key (':' :: write item (writeFields fields rest))
termination_by structural fields => fields
end

def written (json : Json) : String := String.ofList (json.write [])

variable (read : Literal → Float)

mutual
/--
Whether every string spells a text, every number reads as a finite double, and arrays and objects
are nested at most so many levels deep.
-/
def isSound (levels : Nat) : Json → Bool
  | .null | .bool _ => true
  | .number literal => Binary.isFinite (read literal)
  | .string content => content.isSome
  | .array items => decide (0 < levels) && allSound (levels - 1) items
  | .object fields => decide (0 < levels) && fieldsSound (levels - 1) fields
termination_by structural json => json

def allSound (levels : Nat) : List Json → Bool
  | [] => true
  | item :: rest => item.isSound levels && allSound levels rest
termination_by structural items => items

def fieldsSound (levels : Nat) : List (Option String × Json) → Bool
  | [] => true
  | (key, item) :: rest => key.isSome && item.isSound levels && fieldsSound levels rest
termination_by structural fields => fields
end

end Json

end Tracery
