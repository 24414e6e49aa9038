import Tracery.Decimal
import Tracery.Paint
import Tracery.Shape.Kind

namespace Tracery

/--
Values from `first` to `last` in `count` equal steps, both ends included; a single value, `first`,
where fewer than two are asked for.
-/
def steps (first last : Float) (count : Nat) : List Float :=
  if count ≤ 1 then [first]
  else
    let distance := (last - first).abs
    let direction := if first < last then 1 else -1
    (List.range count).map fun i =>
      if i = count - 1 then last
      else first + distance * (Binary.ofNat i / Binary.ofNat (count - 1)) * direction

abbrev Resolver := String → Except Error Color

def cssColors : Resolver := fun text =>
  match Color.ofCss? text with
  | some color => .ok color
  | none => .error (.unresolvedColor text)

def colorSteps (resolve : Resolver) (first last : String) (count : Nat) :
    Except Error (List Color) := do
  let first ← resolve first
  let last ← resolve last
  let channel (f : Color → Float) := steps (f first) (f last) count
  return (((channel Color.r).zip (channel Color.g)).zip
    ((channel Color.b).zip (channel Color.a))).map
      fun ((r, g), (b, a)) => ⟨r, g, b, a⟩

/--
The values `first`, `first + step`, … up to `last`; a step that is not positive and finite is taken
as 1. Bounds that are not finite give no values.
-/
def range (first last step : Float) : List Float :=
  if Binary.isFinite first && Binary.isFinite last then
    let step := if 0 < step ∧ Binary.isFinite step then step else 1
    upTo first last step UInt64.size 0
  else []
where
  upTo (first last step : Float) : Nat → Nat → List Float
    | 0, _ => []
    | limit + 1, i =>
        let value := if i = 0 then first else first + step * Binary.ofNat i
        if value ≤ last then value :: upTo first last step limit (i + 1) else []

structure Draw where
  seed : UInt64
  count : Nat := 1
  whole : Bool := false
  deriving Repr, DecidableEq

def nextState (state : UInt64) : UInt64 := (state * 8193 + 1987) % 4294967296

def states (seed : UInt64) : Nat → List UInt64
  | 0 => []
  | count + 1 => nextState seed :: states (nextState seed) count

def random (low high : Float) (draw : Draw) : List Float :=
  (states draw.seed draw.count).map fun state =>
    let value := low + Binary.ofNat state.toNat / 4294967296 * (high - low)
    if draw.whole then Binary.roundHalfUp value else value

@[simp] theorem length_states (seed : UInt64) (count : Nat) :
    (states seed count).length = count := by
  induction count generalizing seed with
  | zero => rfl
  | succ count ih => simp [states, ih]

end Tracery
