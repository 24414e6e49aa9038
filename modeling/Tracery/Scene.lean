import Tracery.Shape.Kind
import Tracery.Shape.Basic

namespace Tracery

structure Scene where
  kind : String
  attributes : Attrs
  children : List Scene
  text : Option String

namespace Scene

instance : Inhabited Scene := ⟨⟨"", .empty, [], none⟩⟩

mutual
/--
The shape of a scene. Only composite kinds keep their children and only a text its text; what a
kind does not keep may be of any kind, known or not.
-/
def shape : Scene → Except Error Shape
  | ⟨name, attributes, children, text⟩ =>
      match Kind.ofName? name with
      | none => .error (.unknownKind name)
      | some kind =>
          if kind.isComposite then do return .composite kind (← shapes children) attributes
          else if kind = .text then .ok (.label (text.getD "") attributes)
          else .ok (.new kind attributes)
termination_by structural scene => scene

def shapes : List Scene → Except Error (List Shape)
  | [] => .ok []
  | scene :: rest => do
      let first ← scene.shape
      return first :: (← shapes rest)
termination_by structural scenes => scenes
end

mutual
def ofShape : Shape → Scene
  | ⟨kind, attrs, .children children⟩ => ⟨kind.name, attrs, ofShapes children, none⟩
  | ⟨kind, attrs, .text content⟩ => ⟨kind.name, attrs, [], some content⟩
  | ⟨kind, attrs, .empty⟩ => ⟨kind.name, attrs, [], none⟩
termination_by structural shape => shape

def ofShapes : List Shape → List Scene
  | [] => []
  | shape :: rest => ofShape shape :: ofShapes rest
termination_by structural shapes => shapes
end

end Scene
end Tracery
