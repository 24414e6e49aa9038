import Tracery.Geometry
import Tracery.Paint

namespace Tracery

/-- What an attribute holds. `null` stands for a value that is explicitly absent. -/
inductive Value where
  | null
  | number (x : Float)
  | text (content : String)
  | vector (v : Vec)
  | color (c : Color)
  | list (items : List Value)
  deriving Repr, Inhabited

namespace Value

mutual
def display : Value → String
  | .null => ""
  | .number x => numberText x
  | .text content => content
  | .vector v => v.text
  | .color c => c.paint true
  | .list items => ",".intercalate (displayAll items)
termination_by structural value => value

def displayAll : List Value → List String
  | [] => []
  | item :: rest => item.display :: displayAll rest
termination_by structural items => items
end

mutual
@[elab_as_elim] theorem induction_items {motive : Value → Prop} (null : motive .null)
    (number : ∀ x, motive (.number x)) (text : ∀ content, motive (.text content))
    (vector : ∀ v, motive (.vector v)) (color : ∀ c, motive (.color c))
    (list : ∀ items, (∀ item ∈ items, motive item) → motive (.list items)) :
    ∀ value, motive value
  | .null => null
  | .number x => number x
  | .text content => text content
  | .vector v => vector v
  | .color c => color c
  | .list items => list items (induction_all null number text vector color list items)
termination_by structural value => value

theorem induction_all {motive : Value → Prop} (null : motive .null)
    (number : ∀ x, motive (.number x)) (text : ∀ content, motive (.text content))
    (vector : ∀ v, motive (.vector v)) (color : ∀ c, motive (.color c))
    (list : ∀ items, (∀ item ∈ items, motive item) → motive (.list items)) :
    ∀ items : List Value, ∀ item ∈ items, motive item
  | [] => fun _ h => nomatch h
  | first :: rest => fun item h => by
      rcases List.mem_cons.1 h with same | h
      · exact same ▸ induction_items null number text vector color list first
      · exact induction_all null number text vector color list rest item h
termination_by structural items => items
end

@[simp] theorem displayAll_eq_map (items : List Value) :
    displayAll items = items.map display := by
  induction items with
  | nil => rfl
  | cons item rest ih => simp only [displayAll, List.map_cons, ih]

mutual
def sameAs : Value → Value → Bool
  | .null, .null => true
  | .number x, .number y => x == y
  | .text s, .text t => s == t
  | .vector v, .vector w => v == w
  | .color c, .color d => c == d
  | .list items, .list others => allSame items others
  | _, _ => false
termination_by structural value => value

def allSame : List Value → List Value → Bool
  | [], [] => true
  | item :: rest, other :: others => item.sameAs other && allSame rest others
  | _, _ => false
termination_by structural items => items
end

instance : BEq Value := ⟨sameAs⟩

def isNull : Value → Bool
  | .null => true
  | _ => false

def number? : Value → Option Float
  | .number x => some x
  | .text content => readNumber? content
  | _ => none

def vector? : Value → Option Vec
  | .vector v => some v
  | .list [x, y] => do return ⟨← x.number?, ← y.number?⟩
  | _ => none

def color? : Value → Option Color
  | .color c => some c
  | _ => none

def components : Value → List Value
  | .list items => items
  | .vector v => [.number v.x, .number v.y]
  | value => [value]

end Value

inductive Param where
  | one (value : Value)
  | many (values : List Value)

inductive Sampler where
  | values (param : Param)
  | generator (make : Nat → List Value)

end Tracery
