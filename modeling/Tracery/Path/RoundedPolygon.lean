import Tracery.Geometry

namespace Tracery

inductive PathCommand where
  | moveTo (point : Vec)
  | lineTo (point : Vec)
  | quadTo (control finish : Vec)
  | close
  deriving Repr, DecidableEq

def PathCommand.text : PathCommand → String
  | .moveTo point => "M " ++ point.text
  | .lineTo point => "L " ++ point.text
  | .quadTo control finish => "Q " ++ control.text ++ " " ++ finish.text
  | .close => "Z"

def pathData (commands : List PathCommand) : String :=
  " ".intercalate (commands.map PathCommand.text)

/-- An edge of a polygon: where it starts, and what is left of it between the cut corners. -/
structure Corner where
  vertex : Vec
  leave : Vec
  arrive : Vec
  deriving Repr, DecidableEq

def Corner.between (radius : Float) (v w : Vec) : Corner :=
  let inset := (w - v).unit * radius
  ⟨v, v + inset, w - inset⟩

def cornerCuts (radius : Float) (vertices : List Vec) : List Corner :=
  List.zipWith (Corner.between radius) vertices (vertices.drop 1 ++ vertices.take 1)

def Corner.commands (corner : Corner) : List PathCommand :=
  [.quadTo corner.vertex corner.leave, .lineTo corner.arrive]

/--
A regular polygon with cut corners, inscribed in the circle of radius `width / √3` and starting at
90 degrees. The path starts where the last edge arrives and comes back to that point.
-/
def roundedPolygon (center : Vec) (width : Float) (sides : Nat) (radius : Float) :
    List PathCommand :=
  let corners := cornerCuts radius (ringPoints (width / Float.sqrt 3) sides center 90)
  match corners.getLast? with
  | none => []
  | some last => .moveTo last.arrive :: corners.flatMap Corner.commands ++ [.close]

end Tracery
