namespace Tracery

inductive Kind where
  | circle
  | ellipse
  | rect
  | line
  | polygon
  | roundedPolygon
  | polyline
  | path
  | group
  | clipPath
  | mask
  | text
  deriving Repr, DecidableEq

namespace Kind

def all : List Kind :=
  [.circle, .ellipse, .rect, .line, .polygon, .roundedPolygon, .polyline, .path, .group, .clipPath,
    .mask, .text]

theorem mem_all (kind : Kind) : kind ∈ all := by cases kind <;> decide

def name : Kind → String
  | .circle => "circle"
  | .ellipse => "ellipse"
  | .rect => "rect"
  | .line => "line"
  | .polygon => "polygon"
  | .roundedPolygon => "roundedPolygon"
  | .polyline => "polyline"
  | .path => "path"
  | .group => "group"
  | .clipPath => "clipPath"
  | .mask => "mask"
  | .text => "text"

def tag : Kind → String
  | .group => "g"
  | .roundedPolygon => "path"
  | kind => kind.name

def isComposite : Kind → Bool
  | .group | .clipPath | .mask => true
  | _ => false

def ofName? (name : String) : Option Kind :=
  if name = "g" then some .group else all.find? (·.name == name)

@[simp] theorem ofName?_name (kind : Kind) : ofName? kind.name = some kind := by
  cases kind <;> decide

end Kind

inductive Problem where
  | missing
  | notFinite
  deriving Repr, DecidableEq

def Problem.message : Problem → String
  | .missing => "required attribute is missing"
  | .notFinite => "must be a finite number"

inductive Error where
  | unknownKind (name : String)
  | unresolvedColor (text : String)
  | invalidAttribute (kind : Kind) (key : String) (problem : Problem)
  | malformedScene
  | malformedOptions
  | noSuchFile (path : String)
  deriving Repr, DecidableEq

def Error.message : Error → String
  | .unknownKind name => "Parse Error: Unknown Shape `" ++ name ++ "`"
  | .unresolvedColor text => "no color found for `" ++ text ++ "`"
  | .invalidAttribute kind key problem =>
      "invalid `" ++ key ++ "` on " ++ kind.name ++ ": " ++ problem.message
  | .malformedScene => "scene decoding failed"
  | .malformedOptions => "config parsing failed"
  | .noSuchFile path => "failed to read " ++ path ++ ": No such file or directory (os error 2)"

end Tracery
