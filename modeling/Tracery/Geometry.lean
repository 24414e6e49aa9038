import Tracery.Text

namespace Tracery

structure Vec where
  x : Float
  y : Float
  deriving Repr, DecidableEq

namespace Vec

def zero : Vec := ⟨0, 0⟩

instance : Add Vec := ⟨fun a b => ⟨a.x + b.x, a.y + b.y⟩⟩
instance : Sub Vec := ⟨fun a b => ⟨a.x - b.x, a.y - b.y⟩⟩
instance : Neg Vec := ⟨fun a => ⟨-a.x, -a.y⟩⟩
instance : HMul Vec Float Vec := ⟨fun a k => ⟨a.x * k, a.y * k⟩⟩
instance : HDiv Vec Float Vec := ⟨fun a k => ⟨a.x / k, a.y / k⟩⟩

instance : BEq Vec := ⟨fun a b => a.x == b.x && a.y == b.y⟩

def length (a : Vec) : Float := (a.x * a.x + a.y * a.y).sqrt

def unit (a : Vec) : Vec := if a.length == 0 then zero else a / a.length

def distance (a b : Vec) : Float := (b - a).length

def text (a : Vec) : String := numberText a.x ++ "," ++ numberText a.y

end Vec

def pi : Float := 3.141592653589793

def radians (degrees : Float) : Float := degrees * pi / 180

def degrees (radians : Float) : Float := 180 / pi * radians

def circlePoint (angle radius : Float) (center : Vec) : Vec :=
  center + (Vec.mk angle.cos angle.sin) * radius

/--
Evenly spaced points on a circle; the first one stands at `offset` degrees from the x axis towards
the y axis.
-/
def ringPoints (radius : Float) (count : Nat) (center : Vec) (offset : Float) : List Vec :=
  let step := pi * 2 / Binary.ofNat count
  (List.range count).map fun i =>
    circlePoint (step * Binary.ofNat i + radians offset) radius center

@[simp] theorem length_ringPoints (radius : Float) (count : Nat) (center : Vec) (offset : Float) :
    (ringPoints radius count center offset).length = count := by
  simp [ringPoints]

end Tracery
