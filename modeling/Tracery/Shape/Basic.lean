import Tracery.Geometry
import Tracery.OrderedMap
import Tracery.Shape.Kind
import Tracery.Value

namespace Tracery

abbrev Attrs := OrderedMap Value

/--
What a shape holds besides its attributes, as it was built whatever the kind: a circle may be given
children, and a group a text.
-/
inductive Body (α : Type) where
  | empty
  | children (shapes : List α)
  | text (content : String)

structure Shape where
  kind : Kind
  attrs : Attrs
  body : Body Shape

namespace Shape

instance : Inhabited Shape := ⟨⟨.group, .empty, .empty⟩⟩

def new (kind : Kind) (attrs : Attrs) : Shape :=
  ⟨kind, attrs, if kind.isComposite then .children [] else .empty⟩

def composite (kind : Kind) (children : List Shape) (attrs : Attrs) : Shape :=
  ⟨kind, attrs, .children children⟩

def label (content : String) (attrs : Attrs) : Shape := ⟨.text, attrs, .text content⟩

def group (children : List Shape) (attrs : Attrs) : Shape := composite .group children attrs

def children (s : Shape) : List Shape :=
  match s.body with
  | .children shapes => shapes
  | _ => []

def text? (s : Shape) : Option String :=
  match s.body with
  | .text content => some content
  | _ => none

def isComposite (s : Shape) : Bool :=
  match s.body with
  | .children _ => true
  | _ => false

def attr? (s : Shape) (key : String) : Option Value := s.attrs.get? key

def number? (s : Shape) (key : String) : Option Float := (s.attr? key).bind Value.number?

def withKind (s : Shape) (kind : Kind) : Shape := { s with kind }

def withAttrs (s : Shape) (attrs : Attrs) : Shape := { s with attrs }

def withChildren (s : Shape) (children : List Shape) : Shape :=
  { s with body := .children children }

def set (s : Shape) (key : String) (value : Value) : Shape :=
  s.withAttrs (s.attrs.insert key value)

def merge (s : Shape) (extra : Attrs) : Shape := s.withAttrs (s.attrs.merge extra)

def without (s : Shape) (keys : List String) : Shape := s.withAttrs (s.attrs.eraseAll keys)

@[simp] theorem kind_withAttrs (s : Shape) (attrs : Attrs) :
    (s.withAttrs attrs).kind = s.kind := rfl

@[simp] theorem attrs_withAttrs (s : Shape) (attrs : Attrs) :
    (s.withAttrs attrs).attrs = attrs := rfl

@[simp] theorem body_withAttrs (s : Shape) (attrs : Attrs) :
    (s.withAttrs attrs).body = s.body := rfl

mutual
/-- Equality of kinds, bodies and attributes, the order of the attributes aside. -/
def sameAs : Shape → Shape → Bool
  | ⟨kind, attrs, .children shapes⟩, ⟨kind', attrs', .children shapes'⟩ =>
      kind == kind' && attrs.sameAs attrs' && allSame shapes shapes'
  | ⟨kind, attrs, .text content⟩, ⟨kind', attrs', .text content'⟩ =>
      kind == kind' && attrs.sameAs attrs' && content == content'
  | ⟨kind, attrs, .empty⟩, ⟨kind', attrs', .empty⟩ => kind == kind' && attrs.sameAs attrs'
  | _, _ => false
termination_by structural shape => shape

def allSame : List Shape → List Shape → Bool
  | [], [] => true
  | shape :: rest, other :: others => shape.sameAs other && allSame rest others
  | _, _ => false
termination_by structural shapes => shapes
end

instance : BEq Shape := ⟨sameAs⟩

mutual
def size : Shape → Nat
  | ⟨_, _, .children shapes⟩ => sizeAll shapes + 1
  | ⟨_, _, _⟩ => 1
termination_by structural shape => shape

def sizeAll : List Shape → Nat
  | [] => 0
  | shape :: rest => shape.size + sizeAll rest
termination_by structural shapes => shapes
end

theorem size_eq (s : Shape) : s.size = sizeAll s.children + 1 := by
  obtain ⟨_, _, _ | _ | _⟩ := s <;> simp [size, sizeAll, children]

theorem size_le_sizeAll {s : Shape} {shapes : List Shape} (h : s ∈ shapes) :
    s.size ≤ sizeAll shapes := by
  induction shapes with
  | nil => cases h
  | cons first rest ih =>
      rcases List.mem_cons.1 h with rfl | h
      · exact Nat.le_add_right _ _
      · exact Nat.le_trans (ih h) (Nat.le_add_left _ _)

theorem size_lt_of_mem_children {s child : Shape} (h : child ∈ s.children) :
    child.size < s.size := by
  rw [size_eq s]
  exact Nat.lt_succ_of_le (size_le_sizeAll h)

@[elab_as_elim] theorem induction_children {motive : Shape → Prop}
    (step : ∀ s : Shape, (∀ child ∈ s.children, motive child) → motive s) (s : Shape) :
    motive s :=
  step s fun child _ => induction_children step child
termination_by s.size
decreasing_by exact size_lt_of_mem_children ‹_›

end Shape

def OrderedMap.numberOr (attrs : Attrs) (key : String) (default : Float) : Float :=
  ((attrs.get? key).bind Value.number?).getD default

/--
The sides that a number asks for: its whole part, or none if it is not positive and finite. Counts
beyond memory are idealised: the whole part is taken as it is, and not cut to a machine word.
-/
def sideCount (x : Float) : Nat :=
  if Binary.isFinite x ∧ 0 < x then Binary.truncate x else 0

namespace Shape

def capsule (attrs : Attrs) : Shape :=
  let side (key : String) := (attrs.get? key).bind Value.number?
  let radius := match side "width", side "height" with
    | some w, some h =>
        if Binary.isNaN w ∨ Binary.isNaN h then 0 else (if w < h then w else h) / 2
    | _, _ => 0
  new .rect (attrs.insert "rx" (.number radius))

/--
A regular polygon around `x` and `y`, its `sides` on a circle of radius `width`. With a corner
radius `r` other than zero it is left to be drawn as a rounded polygon.
-/
def regularPolygon (attrs : Attrs) : Shape :=
  if attrs.numberOr "r" 0 != 0 then new .roundedPolygon attrs
  else
    let center := Vec.mk (attrs.numberOr "x" 0) (attrs.numberOr "y" 0)
    let points := ringPoints (attrs.numberOr "width" 10) (sideCount (attrs.numberOr "sides" 3))
      center 0
    let rest := attrs.eraseAll ["x", "y", "width", "sides", "r"]
    new .polygon (rest.insert "points" (.list (points.map .vector)))

def translate (s : Shape) (offset : Value) : Shape := s.set "translate" offset

def rotate (s : Shape) (angle : Value) : Shape := s.set "rotate" angle

def scale (s : Shape) (factor : Value) : Shape := s.set "scale" factor

end Shape

inductive Axis where
  | x
  | y
  deriving Repr, DecidableEq

def Axis.flip : Axis → Vec
  | .x => ⟨-1, 1⟩
  | .y => ⟨1, -1⟩

namespace Shape

def reflect (s : Shape) (axis : Axis) : Shape := s.scale (.vector axis.flip)

def mirror (s : Shape) (axis : Axis) : Shape := group [s, s.reflect axis] .empty

end Shape

end Tracery
