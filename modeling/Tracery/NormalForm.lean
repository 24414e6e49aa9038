import Tracery.Options
import Tracery.Path.RoundedPolygon
import Tracery.Shape.Basic
import Tracery.Shape.Kind

namespace Tracery

namespace OrderedMap

def rename (attrs : Attrs) (key newKey : String) : Attrs :=
  match attrs.get? key with
  | some value => (attrs.erase key).insert newKey value
  | none => attrs

/--
Puts the low edge of an interval that is given by its center, unless the edge is given. The edge is
not a number where the center or the length is none.
-/
def placeEdge (attrs : Attrs) (edge length : String) (center : Option Value) : Attrs :=
  match center with
  | none => attrs
  | some center =>
      if (attrs.get? edge).any (!·.isNull) then attrs
      else
        attrs.insert edge
          (.number (center.number?.getD (0 / 0) - attrs.numberOr length (0 / 0) / 2))

def cornered (attrs : Attrs) : Attrs :=
  let sized := (attrs.rename "w" "width").rename "h" "height"
  let bare := sized.eraseAll ["cx", "cy"]
  (bare.placeEdge "x" "width" (sized.get? "cx")).placeEdge "y" "height" (sized.get? "cy")

def withEnds (attrs : Attrs) : Attrs :=
  let bare := attrs.eraseAll ["start", "end"]
  match (attrs.get? "start").bind Value.vector?, (attrs.get? "end").bind Value.vector? with
  | some first, some last =>
      bare.insertAll [("x1", .number first.x), ("y1", .number first.y), ("x2", .number last.x),
        ("y2", .number last.y)]
  | _, _ => bare

def withPointText (attrs : Attrs) : Attrs :=
  match attrs.get? "points" with
  | some (.list points) =>
      attrs.insert "points" (.text (" ".intercalate (points.map Value.display)))
  | _ => attrs

def roundedPolygonData (attrs : Attrs) : String :=
  let center := Vec.mk (attrs.numberOr "x" 0) (attrs.numberOr "y" 0)
  pathData (roundedPolygon center (attrs.numberOr "width" (0 / 0))
    (sideCount (attrs.numberOr "sides" 3)) (attrs.numberOr "r" (0 / 0)))

/-- Path data in front of the attributes; attributes that have their own keep it. -/
def withPathData (attrs : Attrs) : Attrs :=
  (ofList [("d", .text attrs.roundedPolygonData)]).merge attrs

end OrderedMap

def Shape.outlined (s : Shape) : Shape :=
  match s.kind with
  | .rect => s.withAttrs s.attrs.cornered
  | .line => s.withAttrs s.attrs.withEnds
  | .polygon | .polyline => s.withAttrs s.attrs.withPointText
  | .roundedPolygon => (s.withKind .path).withAttrs s.attrs.withPathData
  | .circle | .ellipse | .path | .group | .clipPath | .mask | .text => s

def transformKeys : List String := ["translate", "rotate", "scale", "translateX", "translateY"]

def transformStep? (name : String) (value : Value) : Option String :=
  let arguments := value.components
  if arguments.isEmpty || arguments.any Value.isNull then none
  else some (name ++ "(" ++ ",".intercalate (arguments.map Value.display) ++ ")")

namespace OrderedMap

def present? (attrs : Attrs) (key : String) : Option Value :=
  (attrs.get? key).filter (!·.isNull)

/-- The move of a shape: by axes if one of them is given, a missing axis being zero. -/
def translation? (attrs : Attrs) : Option Value :=
  match attrs.present? "translateX", attrs.present? "translateY" with
  | none, none => attrs.get? "translate"
  | x, y => some (.list [x.getD (.number 0), y.getD (.number 0)])

def transformSteps (attrs : Attrs) : List String :=
  [("translate", attrs.translation?), ("rotate", attrs.get? "rotate"),
    ("scale", attrs.get? "scale")].filterMap fun (name, value) => value.bind (transformStep? name)

def withTransform (attrs : Attrs) : Attrs :=
  let bare := attrs.eraseAll transformKeys
  match attrs.transformSteps with
  | [] => bare
  | steps => bare.insert "transform" (.text (" ".intercalate steps))

end OrderedMap

/-- The attributes that a kind cannot be drawn without, each with the names it goes by. -/
def Kind.requiredAttributes : Kind → List (List String)
  | .circle => [["r"]]
  | .ellipse => [["rx"], ["ry"]]
  | .rect => [["width", "w"], ["height", "h"]]
  | .roundedPolygon => [["width"], ["r"]]
  | .polygon | .polyline => [["points"]]
  | .path => [["d"]]
  | .line | .group | .clipPath | .mask | .text => []

namespace Shape

def hasAttr (s : Shape) (key : String) : Bool := (s.attr? key).any (!·.isNull)

def missingAttribute? (s : Shape) : Option String :=
  (s.kind.requiredAttributes.find? fun names => !names.any s.hasAttr).map (·.headD "")

def infiniteAttribute? (s : Shape) : Option String :=
  (s.attrs.entries.find? fun entry => entry.2.number?.any (!Binary.isFinite ·)).map (·.1)

def flaw? (s : Shape) : Option Error :=
  match s.missingAttribute?, s.infiniteAttribute? with
  | some key, _ => some (.invalidAttribute s.kind key .missing)
  | none, some key => some (.invalidAttribute s.kind key .notFinite)
  | none, none => none

end Shape

def Value.painted (roundAlpha : Bool) : Value → Value
  | .color c => .text (c.paint roundAlpha)
  | value => value

/-- The form in which a shape is drawn. Its children are left as they are. -/
def Shape.normalForm (s : Shape) (roundAlpha : Bool) : Shape :=
  let outlined := s.outlined
  outlined.withAttrs (outlined.attrs.withTransform.mapValues (Value.painted roundAlpha))

def normalize (options : Options) (s : Shape) : Except Error Shape :=
  match if options.strict then s.flaw? else none with
  | some error => .error error
  | none => .ok (s.normalForm options.roundAlpha)

end Tracery
