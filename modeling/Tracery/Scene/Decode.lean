import Tracery.Decimal
import Tracery.Json
import Tracery.Scene

/-!
Scenes and values from JSON. Arrays and objects nest at most 127 levels deep, the limit of
`serde_json`. How a literal becomes a double is left open up to the end, where scene files read
their numbers by scaling, as that library does by default.
-/

namespace Tracery

def Json.nestingLimit : Nat := 127

variable (read : Literal → Float)

def Json.float? : Json → Option Float
  | .number literal => some (read literal)
  | _ => none

namespace Color

def isRgbSpace : Json → Bool
  | .string content => content == some "rgb"
  | .object [(some key, .null)] => key == "rgb"
  | _ => false

def ofJsonItems? : List Json → Option Color
  | [space, r, g, b] =>
      if isRgbSpace space then do
        return ⟨← r.float? read, ← g.float? read, ← b.float? read, 1⟩
      else none
  | [space, r, g, b, a] =>
      if isRgbSpace space then do
        return ⟨← r.float? read, ← g.float? read, ← b.float? read, ← a.float? read⟩
      else none
  | _ => none

def ofJsonFields? (fields : List (Option String × Json)) : Option Color :=
  let keys := fields.map Prod.fst
  let part (key : String) := fields.lookup (some key)
  if keys.all [some "space", some "r", some "g", some "b", some "a"].contains && keys.Nodup then do
    let space ← part "space"
    let alpha ← match part "a" with
      | some a => a.float? read
      | none => some 1
    if isRgbSpace space then
      return ⟨← (← part "r").float? read, ← (← part "g").float? read, ← (← part "b").float? read,
        alpha⟩
    else none
  else none

end Color

namespace Value

mutual
/--
The value of sound JSON: two numbers in an array are a vector, and an array that is no color is a
list. There are no values for booleans and for objects other than colors.
-/
def ofJson? : Json → Option Value
  | .null => some .null
  | .bool _ => none
  | .number literal => some (.number (read literal))
  | .string content => content.map .text
  | .array [.number x, .number y] => some (.vector ⟨read x, read y⟩)
  | .array items =>
      match Color.ofJsonItems? read items with
      | some c => some (.color c)
      | none => (ofJsonAll? items).map .list
  | .object fields => (Color.ofJsonFields? read fields).map .color
termination_by structural json => json

def ofJsonAll? : List Json → Option (List Value)
  | [] => some []
  | item :: rest => do
      let first ← ofJson? item
      return first :: (← ofJsonAll? rest)
termination_by structural items => items
end

def ofSoundJson? (levels : Nat) (json : Json) : Option Value :=
  if json.isSound read levels then ofJson? read json else none

end Value

def Attrs.entryOfJson? (levels : Nat) : Option String × Json → Option (String × Value)
  | (some key, json) => (Value.ofSoundJson? read levels json).map fun value => (key, value)
  | (none, _) => none

def Attrs.ofJson? (levels : Nat) : Json → Option Attrs
  | .object fields =>
      if 0 < levels then
        (fields.mapM (entryOfJson? read (levels - 1))).map OrderedMap.ofList
      else none
  | _ => none

namespace Scene

structure Draft where
  kind : Option String := none
  attributes : Option Attrs := none
  children : Option (List Scene) := none
  text : Option (Option String) := none

def ofDraft? (draft : Draft) : Option Scene := do
  return ⟨← draft.kind, draft.attributes.getD .empty, draft.children.getD [],
    draft.text.getD none⟩

def textOfJson? : Json → Option (Option String)
  | .null => some none
  | .string (some content) => some (some content)
  | _ => none

def kindOfJson? : Json → Option String
  | .string content => content
  | _ => none

mutual
/--
A scene by named parts, or by a list of parts of which the last ones may be missing. A part that
is given twice is refused, and fields that are no parts are not looked into.
-/
def ofJson? (levels : Nat) : Json → Option Scene
  | .object fields =>
      if 0 < levels then (draftOfFields? (levels - 1) fields).bind ofDraft? else none
  | .array [kind] =>
      if 0 < levels then do return ⟨← kindOfJson? kind, .empty, [], none⟩ else none
  | .array [kind, attributes] =>
      if 0 < levels then do
        return ⟨← kindOfJson? kind, ← Attrs.ofJson? read (levels - 1) attributes, [], none⟩
      else none
  | .array [kind, attributes, .array children] =>
      if 1 < levels then do
        return ⟨← kindOfJson? kind, ← Attrs.ofJson? read (levels - 1) attributes,
          ← ofJsonAll? (levels - 2) children, none⟩
      else none
  | .array [kind, attributes, .array children, text] =>
      if 1 < levels then do
        return ⟨← kindOfJson? kind, ← Attrs.ofJson? read (levels - 1) attributes,
          ← ofJsonAll? (levels - 2) children, ← textOfJson? text⟩
      else none
  | _ => none
termination_by structural json => json

def ofJsonAll? (levels : Nat) : List Json → Option (List Scene)
  | [] => some []
  | item :: rest => do
      let first ← ofJson? levels item
      return first :: (← ofJsonAll? levels rest)
termination_by structural items => items

def draftOfFields? (levels : Nat) : List (Option String × Json) → Option Draft
  | [] => some {}
  | (none, _) :: _ => none
  | (some "children", .array items) :: rest => do
      let draft ← draftOfFields? levels rest
      if draft.children.isSome || levels = 0 then none
      else return { draft with children := some (← ofJsonAll? (levels - 1) items) }
  | (some "kind", json) :: rest => do
      let draft ← draftOfFields? levels rest
      if draft.kind.isSome then none else return { draft with kind := some (← kindOfJson? json) }
  | (some "attributes", json) :: rest => do
      let draft ← draftOfFields? levels rest
      if draft.attributes.isSome then none
      else return { draft with attributes := some (← Attrs.ofJson? read levels json) }
  | (some "text", json) :: rest => do
      let draft ← draftOfFields? levels rest
      if draft.text.isSome then none else return { draft with text := some (← textOfJson? json) }
  | (some key, _) :: rest => if key = "children" then none else draftOfFields? levels rest
termination_by structural fields => fields
end

def ofJsonText? (text : String) : Option Scene :=
  (Json.read? text).bind (ofJson? read Json.nestingLimit)

end Scene

def Value.ofJsonText? (text : String) : Option Value :=
  (Json.read? text).bind (ofSoundJson? read Json.nestingLimit)

/-- The shape of a JSON text. All of the text is read before any kind is looked up. -/
def Shape.ofJsonText (text : String) : Except Error Shape :=
  match Scene.ofJsonText? read text with
  | some scene => scene.shape
  | none => .error .malformedScene

def Value.ofSceneText? (text : String) : Option Value := Value.ofJsonText? Literal.scaledFloat text

def Shape.ofSceneText (text : String) : Except Error Shape :=
  Shape.ofJsonText Literal.scaledFloat text

end Tracery
