import Tracery.Text

namespace Tracery.Toml

def isControl (c : Char) : Bool := (c.toNat < 0x20 && c != '\t' && c != '\n') || c.toNat == 0x7F

def escaped? : Char → Option Char
  | 'b' => some '\x08'
  | 't' => some '\t'
  | 'n' => some '\n'
  | 'f' => some '\x0c'
  | 'r' => some '\r'
  | '"' => some '"'
  | '\\' => some '\\'
  | _ => none

def scalar? (digits : List Char) : Option Char :=
  (Text.hexNumber? digits).bind fun n => if n.isValidChar then some (Char.ofNat n) else none

abbrev Scan := Option (List Char × List Char)

def Scan.cons (c : Char) (scan : Scan) : Scan :=
  scan.map fun (content, rest) => (c :: content, rest)

def scanBasic : List Char → Scan
  | '"' :: rest => some ([], rest)
  | '\\' :: 'u' :: a :: b :: c :: d :: rest =>
      (scalar? [a, b, c, d]).bind fun char => (scanBasic rest).cons char
  | '\\' :: 'U' :: a :: b :: c :: d :: e :: f :: g :: h :: rest =>
      (scalar? [a, b, c, d, e, f, g, h]).bind fun char => (scanBasic rest).cons char
  | '\\' :: c :: rest => (escaped? c).bind fun char => (scanBasic rest).cons char
  | c :: rest => if isControl c || c == '\n' then none else (scanBasic rest).cons c
  | [] => none

def scanLiteral : List Char → Scan
  | '\'' :: rest => some ([], rest)
  | c :: rest => if isControl c || c == '\n' then none else (scanLiteral rest).cons c
  | [] => none

def endsLine : List Char → Bool
  | ' ' :: rest => endsLine rest
  | '\t' :: rest => endsLine rest
  | '\n' :: _ => true
  | '\r' :: '\n' :: _ => true
  | _ => false

/--
A string over several lines behind its opening quotes. Up to two double quotes may stand before the
closing ones. A backslash at the end of a line joins it to the next text: blanks and ends of line
are `skipped` up to there.
-/
def scanLongBasic (skipped : Bool) : List Char → Scan
  | '"' :: '"' :: '"' :: '"' :: '"' :: rest => some (['"', '"'], rest)
  | '"' :: '"' :: '"' :: '"' :: rest => some (['"'], rest)
  | '"' :: '"' :: '"' :: rest => some ([], rest)
  | '\\' :: 'u' :: a :: b :: c :: d :: rest =>
      (scalar? [a, b, c, d]).bind fun char => (scanLongBasic false rest).cons char
  | '\\' :: 'U' :: a :: b :: c :: d :: e :: f :: g :: h :: rest =>
      (scalar? [a, b, c, d, e, f, g, h]).bind fun char => (scanLongBasic false rest).cons char
  | '\\' :: '\r' :: '\n' :: rest => scanLongBasic true rest
  | '\\' :: c :: rest =>
      if endsLine (c :: rest) then scanLongBasic true rest
      else (escaped? c).bind fun char => (scanLongBasic false rest).cons char
  | '\r' :: '\n' :: rest =>
      if skipped then scanLongBasic true rest else (scanLongBasic false rest).cons '\n'
  | c :: rest =>
      if skipped && (c == ' ' || c == '\t' || c == '\n') then scanLongBasic true rest
      else if isControl c then none
      else (scanLongBasic false rest).cons c
  | [] => none

def scanLongLiteral : List Char → Scan
  | '\'' :: '\'' :: '\'' :: '\'' :: '\'' :: rest => some (['\'', '\''], rest)
  | '\'' :: '\'' :: '\'' :: '\'' :: rest => some (['\''], rest)
  | '\'' :: '\'' :: '\'' :: rest => some ([], rest)
  | '\r' :: '\n' :: rest =>
      (scanLongLiteral rest).cons '\n'
  | c :: rest => if isControl c then none else (scanLongLiteral rest).cons c
  | [] => none

def skipLineEnd : List Char → List Char
  | '\n' :: rest => rest
  | '\r' :: '\n' :: rest => rest
  | text => text

def scanQuoted : List Char → Scan
  | '"' :: '"' :: '"' :: rest => scanLongBasic false (skipLineEnd rest)
  | '\'' :: '\'' :: '\'' :: rest => scanLongLiteral (skipLineEnd rest)
  | '"' :: rest => scanBasic rest
  | '\'' :: rest => scanLiteral rest
  | _ => none

def longestRun (c : Char) (run : Nat) : List Char → Nat
  | [] => run
  | d :: rest => if d = c then longestRun c (run + 1) rest else max run (longestRun c 0 rest)

def escapeCode (c : Char) : List Char :=
  match c with
  | '\x08' => ['\\', 'b']
  | '\t' => ['\\', 't']
  | '\n' => ['\\', 'n']
  | '\x0c' => ['\\', 'f']
  | '\r' => ['\\', 'r']
  | '"' => ['\\', '"']
  | '\\' => ['\\', '\\']
  | c =>
      ['\\', 'u', '0', '0', (Text.hexDigit (c.toNat / 16)).toUpper,
        (Text.hexDigit (c.toNat % 16)).toUpper]

/--
The characters between double quotes. So many quotes in a row stand for themselves, as does the
end of a line if the string is a long one; the run is that of the quotes in front.
-/
def escapeBasic (long : Bool) (run : Nat) : List Char → List Char
  | [] => []
  | c :: rest =>
      if c = '"' then
        if long && run < 2 then '"' :: escapeBasic long (run + 1) rest
        else '\\' :: '"' :: escapeBasic long 0 rest
      else if c = '\n' ∧ long then '\n' :: escapeBasic long 0 rest
      else if isControl c || c == '\n' || c == '\t' || c == '\\' then
        escapeCode c ++ escapeBasic long 0 rest
      else c :: escapeBasic long 0 rest

def basicQuote (long : Bool) : List Char := if long then ['"', '"', '"'] else ['"']

def literalQuote (long : Bool) : List Char := if long then ['\'', '\'', '\''] else ['\'']

def leadingLineEnd (long : Bool) (content : List Char) : List Char :=
  if long && content.contains '\n' then ['\n'] else []

def quoteBasic (long : Bool) (content : List Char) : List Char :=
  basicQuote long ++ leadingLineEnd long content ++ escapeBasic long 0 content ++ basicQuote long

def quoteLiteral (long : Bool) (content : List Char) : List Char :=
  literalQuote long ++ leadingLineEnd long content ++ content ++ literalQuote long

/--
A string in the style that `toml` 0.8 prefers for it: the first one that spares it escapes, short
with double or single quotes, then long with either. A string that none of them spares is written
with double quotes.
-/
def quote (content : List Char) : List Char :=
  let plain := !content.any isControl
  let short := !content.contains '\n'
  let bare := !content.contains '\\'
  if plain && short && bare && !content.contains '"' then quoteBasic false content
  else if plain && short && !content.contains '\'' then quoteLiteral false content
  else if plain && bare && longestRun '"' 0 content ≤ 2 then quoteBasic true content
  else if plain && longestRun '\'' 0 content ≤ 2 then quoteLiteral true content
  else quoteBasic (!short) content

end Tracery.Toml
