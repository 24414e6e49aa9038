import Tracery.Json
import Tracery.Scene

namespace Tracery

/--
Numbers in scene files as `serde_json` writes them: the shortest digits that read back, `10.0` for a
whole number, zeros with their sign, and an exponent below `1e-5` and from `1e+16` up.
-/
def Layout.scene : Layout where
  plainFrom := Decimal.rank ⟨1, -5⟩
  plainBelow := Decimal.rank ⟨1, 16⟩
  wholeFraction := some ['0']
  signedZero := true
  tie := .even

/-- A coordinate or a channel; what is not finite is lost. -/
def Json.ofFloat (x : Float) : Json :=
  if Binary.isFinite x then .number (Layout.scene.literal x) else .null

def Color.json (c : Color) : Json :=
  .object [(some "space", .text "rgb"), (some "r", .ofFloat c.r), (some "g", .ofFloat c.g),
    (some "b", .ofFloat c.b), (some "a", .ofFloat c.a)]

namespace Value

mutual
def json : Value → Json
  | .null => .null
  | .number x => if Binary.isFinite x then .ofFloat x else .text (numberText x)
  | .text content => .text content
  | .vector v => .array [.ofFloat v.x, .ofFloat v.y]
  | .color c => c.json
  | .list items => .array (jsonAll items)
termination_by structural value => value

def jsonAll : List Value → List Json
  | [] => []
  | item :: rest => item.json :: jsonAll rest
termination_by structural items => items
end

end Value

namespace Scene

mutual
def json : Scene → Json
  | ⟨kind, attributes, children, text⟩ =>
      .object ((some "kind", .text kind) ::
        (if attributes.entries.isEmpty then []
          else [(some "attributes",
            .object (attributes.entries.map fun (key, value) => (some key, value.json)))]) ++
        (if children.isEmpty then [] else [(some "children", .array (jsonAll children))]) ++
        (text.map fun content => (some "text", Json.text content)).toList)
termination_by structural scene => scene

def jsonAll : List Scene → List Json
  | [] => []
  | scene :: rest => scene.json :: jsonAll rest
termination_by structural scenes => scenes
end

end Scene

def Shape.sceneText (s : Shape) : String := (Scene.ofShape s).json.written

end Tracery
