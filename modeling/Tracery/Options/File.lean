import Tracery.Shape.Kind
import Tracery.Options
import Tracery.Toml.Reader

namespace Tracery

namespace Toml

def boolean? : Toml → Option Bool
  | .boolean b => some b
  | _ => none

def string? : Toml → Option String
  | .string content => some content
  | _ => none

def strings? : Toml → Option (List String)
  | .array items => items.mapM string?
  | _ => none

def stringsText : List String → List Char
  | [] => ['[', ']']
  | [item] => '[' :: quote item.toList ++ [']']
  | items => '[' :: items.flatMap (fun item => "\n    ".toList ++ quote item.toList ++ [',']) ++
      ['\n', ']']

def booleanText (b : Bool) : List Char := if b then "true".toList else "false".toList

end Toml

namespace Options

def field? {α : Type} (entries : Toml.Entries) (key : String) (read : Toml → Option α)
    (default : α) : Option α :=
  match entries.lookup key with
  | some value => read value
  | none => some default

/-- The options of a file. Fields that are not known do not count. -/
def read? (text : String) : Option Options := do
  let entries ← Toml.read? text
  return {
    strict := ← field? entries "strict" Toml.boolean? false
    roundAlpha := ← field? entries "round_alpha" Toml.boolean? true
    extraAttributes := ← field? entries "extra_attributes" Toml.strings? []
  }

def ofText (text : String) : Except Error Options :=
  match read? text with
  | some options => .ok options
  | none => .error .malformedOptions

def chars (options : Options) : List Char :=
  "strict = ".toList ++ Toml.booleanText options.strict ++
    "\nround_alpha = ".toList ++ Toml.booleanText options.roundAlpha ++
    "\nextra_attributes = ".toList ++ Toml.stringsText options.extraAttributes ++ ['\n']

/--
The text of a file with these options, in the pretty form of `toml` 0.8: a field to a line in the
order of the structure, and a list of two or more strings with each on a line before a comma.
-/
def text (options : Options) : String := String.ofList options.chars

inductive Entry where
  | absent
  | file (content : String)
  | directory (files : List (String × String))

def fileName : String := "mandala.toml"

def load (path : String) : Entry → Except Error Options
  | .absent => .error (.noSuchFile path)
  | .file content => ofText content
  | .directory files =>
      match files.lookup fileName with
      | some content => ofText content
      | none => .error (.noSuchFile (path ++ "/" ++ fileName))

end Options
end Tracery
