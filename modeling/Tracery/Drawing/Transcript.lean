import Tracery.Shape.Kind

namespace Tracery

/--
What shapes are drawn into. Every operation gives the changed drawing; `create` also gives the new
node, by which the other operations name it.
-/
class Backend (σ : Type) (Node : outParam Type) where
  create : σ → Kind → Node × σ
  setAttribute : σ → Node → (name value : String) → σ
  append : σ → (parent child : Node) → σ
  setText : σ → Node → String → σ
  setStyle : σ → Node → (property value : String) → σ

inductive Call where
  | create (node : Nat) (kind : Kind)
  | setAttribute (node : Nat) (name value : String)
  | append (parent child : Nat)
  | setText (node : Nat) (content : String)
  | setStyle (node : Nat) (property value : String)
  deriving Repr, DecidableEq

structure Transcript where
  calls : Array Call := #[]
  nextNode : Nat := 0
  deriving Repr, DecidableEq

namespace Transcript

def write (t : Transcript) (call : Call) : Transcript := { t with calls := t.calls.push call }

def takeCalls (t : Transcript) : Array Call × Transcript := (t.calls, { t with calls := #[] })

instance : Backend Transcript Nat where
  create t kind :=
    (t.nextNode, { t.write (.create t.nextNode kind) with nextNode := t.nextNode + 1 })
  setAttribute t node name value := t.write (.setAttribute node name value)
  append t parent child := t.write (.append parent child)
  setText t node content := t.write (.setText node content)
  setStyle t node property value := t.write (.setStyle node property value)

def kindOf? (t : Transcript) (node : Nat) : Option Kind :=
  t.calls.toList.findSome? fun
    | .create n kind => if n = node then some kind else none
    | _ => none

def attributesOf (t : Transcript) (node : Nat) : List (String × String) :=
  t.calls.toList.filterMap fun
    | .setAttribute n name value => if n = node then some (name, value) else none
    | _ => none

def childrenOf (t : Transcript) (node : Nat) : List Nat :=
  t.calls.toList.filterMap fun
    | .append parent child => if parent = node then some child else none
    | _ => none

end Transcript

end Tracery
