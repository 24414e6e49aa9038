import Tracery.Sequence.Steps
import Tracery.Shape.Basic

namespace Tracery.Shape

/--
The children, each changed by a value: by the same one, or by the value in its place, as far as
there are both. A shape without a child list stays as it is.
-/
def mapChildren (f : Shape → Value → Shape) (s : Shape) (param : Param) : Shape :=
  if s.isComposite then
    match param with
    | .one value => s.withChildren (s.children.map (f · value))
    | .many values => s.withChildren (List.zipWith f s.children values)
  else s

def replicate (s : Shape) (count : Nat) : Shape := group (List.replicate count s) .empty

def generate (make : Nat → Shape) (count : Nat) : Shape :=
  group ((List.range count).map make) .empty

/--
Sets an attribute. Several values make a group of copies, one for each; a single value goes to the
children of a group, and to the shape itself otherwise.
-/
def parametrizeOn (s : Shape) (key : String) (param : Param) : Shape :=
  match param with
  | .many values =>
      (s.replicate values.length).mapChildren (fun child => child.set key) (.many values)
  | .one value =>
      if s.kind = .group then s.mapChildren (fun child => child.set key) (.one value)
      else s.set key value

/--
Sets an attribute of the children that are there. Values that are made to measure come one for each
child, and are then given to copies of the shape.
-/
def parametrizeIn (s : Shape) (key : String) (sampler : Sampler) : Shape :=
  match sampler with
  | .generator make => s.parametrizeOn key (.many (make s.children.length))
  | .values param => s.mapChildren (fun child => child.set key) param

def sample (s : Shape) (key : String) (sampler : Sampler) : Shape :=
  let param := match sampler with
    | .generator make => .many (make s.children.length)
    | .values param => param
  s.mapChildren (fun child => child.set key) param

def randomParam (low high : Float) (draw : Draw) : Param :=
  match random low high draw with
  | [x] => .one (.number x)
  | values => .many (values.map .number)

def randomizeOn (s : Shape) (key : String) (low high : Float) (draw : Draw) : Shape :=
  s.parametrizeOn key (randomParam low high draw)

def randomizeIn (s : Shape) (key : String) (low high : Float) (draw : Draw) : Shape :=
  s.parametrizeIn key (.values (randomParam low high draw))

def row (s : Shape) (distances : Param) : Shape := s.parametrizeOn "translateX" distances

def column (s : Shape) (distances : Param) : Shape := s.parametrizeOn "translateY" distances

def grid (s : Shape) (rows : Param) (columns : Option Param) : Shape :=
  (s.column (columns.getD rows)).row rows

def ring (s : Shape) (radius : Float) (count : Nat) (center : Vec) : Shape :=
  s.parametrizeOn "translate" (.many ((ringPoints radius count center 0).map .vector))

end Tracery.Shape
