import Tracery.Toml
import Tracery.Toml.Quoted

namespace Tracery.Toml

def isGap (c : Char) : Bool := c == ' ' || c == '\t'

def skipGaps (text : List Char) : List Char := text.dropWhile isGap

def skipComment (text : List Char) : List Char :=
  text.dropWhile fun c => !isControl c && c != '\n'

def lineEnd? : List Char → Option (List Char)
  | [] => some []
  | '\n' :: rest => some rest
  | '\r' :: '\n' :: rest => some rest
  | _ => none

def restOfLine? (text : List Char) : Option (List Char) :=
  match skipGaps text with
  | '#' :: rest => lineEnd? (skipComment rest)
  | rest => lineEnd? rest

def skipFiller (inComment : Bool) : List Char → List Char
  | '\n' :: rest => skipFiller false rest
  | '\r' :: '\n' :: rest => skipFiller false rest
  | c :: rest =>
      if inComment then if isControl c then c :: rest else skipFiller true rest
      else if isGap c then skipFiller false rest
      else if c = '#' then skipFiller true rest
      else c :: rest
  | [] => []

def isBareKeyChar (c : Char) : Bool := c.isAlphanum || c == '_' || c == '-'

def scanName : List Char → Option (String × List Char)
  | '"' :: rest => (scanBasic rest).map fun (name, rest) => (String.ofList name, rest)
  | '\'' :: rest => (scanLiteral rest).map fun (name, rest) => (String.ofList name, rest)
  | text =>
      match text.span isBareKeyChar with
      | ([], _) => none
      | (name, rest) => some (String.ofList name, rest)

/-- The most names in a key, and the most arrays and inline tables that nest, in `toml` 0.8. -/
def nestingLimit : Nat := 79

def scanKey : Nat → List Char → Option (List String × List Char)
  | 0, _ => none
  | limit + 1, text => do
      let (name, rest) ← scanName (skipGaps text)
      match skipGaps rest with
      | '.' :: rest =>
          let (names, rest) ← scanKey limit rest
          return (name :: names, rest)
      | rest => return ([name], rest)

def isTokenChar (c : Char) : Bool :=
  c.isAlphanum || c == '+' || c == '-' || c == '_' || c == '.' || c == ':'

def ofToken? (token : List Char) : Option Toml :=
  if token = "true".toList then some (.boolean true)
  else if token = "false".toList then some (.boolean false)
  else if isMoment token then some (.moment (String.ofList token))
  else number? token

def scanToken (text : List Char) : Option (Toml × List Char) :=
  let (token, rest) := text.span isTokenChar
  let (time, afterTime) := (rest.drop 1).span isTokenChar
  if isDate token && rest.head? == some ' ' && isZonedTime time then
    some (.moment (String.ofList (token ++ ' ' :: time)), afterTime)
  else (ofToken? token).map fun value => (value, rest)

mutual
def scanValue (levels : Nat) : Nat → List Char → Option (Toml × List Char)
  | 0, _ => none
  | limit + 1, text =>
      match text with
      | '"' :: _ | '\'' :: _ =>
          (scanQuoted text).map fun (content, rest) => (.string (String.ofList content), rest)
      | '[' :: rest =>
          if 0 < levels then
            (scanItems (levels - 1) limit rest).map fun (items, rest) => (.array items, rest)
          else none
      | '\x7b' :: rest =>
          if 0 < levels then
            match skipGaps rest with
            | '\x7d' :: rest => some (.inline [], rest)
            | rest => do
                let (pairs, rest) ← scanPairs (levels - 1) limit rest
                return (.inline (← ofPairs? pairs), rest)
          else none
      | _ => scanToken text
termination_by structural limit => limit

def scanItems (levels : Nat) : Nat → List Char → Option (List Toml × List Char)
  | 0, _ => none
  | limit + 1, text =>
      match skipFiller false text with
      | ']' :: rest => some ([], rest)
      | text => do
          let (item, rest) ← scanValue levels limit text
          match skipFiller false rest with
          | ']' :: rest => return ([item], rest)
          | ',' :: rest =>
              let (items, rest) ← scanItems levels limit rest
              return (item :: items, rest)
          | _ => none
termination_by structural limit => limit

def scanPairs (levels : Nat) : Nat → List Char → Option (List (List String × Toml) × List Char)
  | 0, _ => none
  | limit + 1, text => do
      let (keys, rest) ← scanKey nestingLimit text
      match rest with
      | '=' :: rest =>
          let (value, rest) ← scanValue levels limit (skipGaps rest)
          match skipGaps rest with
          | '\x7d' :: rest => return ([(keys, value)], rest)
          | ',' :: rest =>
              let (pairs, rest) ← scanPairs levels limit rest
              return ((keys, value) :: pairs, rest)
          | _ => none
      | _ => none
termination_by structural limit => limit
end

def scanStatement (text : List Char) : Option (Statement × List Char) :=
  match text with
  | '[' :: '[' :: rest => do
      let (keys, rest) ← scanKey nestingLimit rest
      match rest with
      | ']' :: ']' :: rest => return (.rowHeader keys, ← restOfLine? rest)
      | _ => none
  | '[' :: rest => do
      let (keys, rest) ← scanKey nestingLimit rest
      match rest with
      | ']' :: rest => return (.header keys, ← restOfLine? rest)
      | _ => none
  | _ => do
      let (keys, rest) ← scanKey nestingLimit text
      match rest with
      | '=' :: rest =>
          let (value, rest) ← scanValue nestingLimit (text.length + 1) (skipGaps rest)
          return (.pair keys value, ← restOfLine? rest)
      | _ => none

def scanStatements : Nat → List Char → Option (List Statement)
  | 0, _ => none
  | limit + 1, text =>
      match skipGaps text with
      | [] => some []
      | '#' :: rest => do scanStatements limit (← lineEnd? (skipComment rest))
      | '\n' :: rest => scanStatements limit rest
      | '\r' :: '\n' :: rest => scanStatements limit rest
      | text => do
          let (statement, rest) ← scanStatement text
          return statement :: (← scanStatements limit rest)

def read? (text : String) : Option Entries :=
  let text := match text.toList with
    | '\ufeff' :: rest => rest
    | text => text
  (scanStatements (text.length + 1) text).bind ofStatements?

end Tracery.Toml
