import Tracery.Drawing.Transcript
import Tracery.Options
import Tracery.NormalForm

/-!
Shape trees drawn into a backend. Every shape becomes a node when it is met, and is attached to
its parent when all that is below it is attached. The tasks that are left wait on a list.
-/

namespace Tracery

def Options.drawnAttributes (options : Options) (attrs : Attrs) : List (String × String) :=
  attrs.entries.filterMap fun (key, value) =>
    let name := drawnName key
    if !value.isNull && options.allows name then some (name, value.display) else none

def Shape.origin? (s : Shape) : Option String := (s.attr? "origin").map Value.display

inductive Task (Node : Type) where
  | build (s : Shape) (parent : Node)
  | finish (node : Node) (origin : Option String) (parent : Node)

def Task.weight {Node : Type} : Task Node → Nat
  | .build s _ => 2 * s.size
  | .finish .. => 1

def Task.weightAll {Node : Type} : List (Task Node) → Nat
  | [] => 0
  | task :: rest => task.weight + weightAll rest

theorem Task.weightAll_build {Node : Type} (shapes : List Shape) (node : Node) :
    weightAll (shapes.map (build · node)) = 2 * Shape.sizeAll shapes := by
  induction shapes with
  | nil => rfl
  | cons s rest ih =>
      simp only [List.map_cons, weightAll, weight, Shape.sizeAll, ih]
      omega

theorem Task.weightAll_append {Node : Type} (tasks others : List (Task Node)) :
    weightAll (tasks ++ others) = weightAll tasks + weightAll others := by
  induction tasks with
  | nil => simp [weightAll]
  | cons task rest ih => simp [weightAll, ih, Nat.add_assoc]

namespace Backend

variable {σ Node : Type} [Backend σ Node]

def build (options : Options) (s : Shape) (drawing : σ) : Except Error (Node × σ) := do
  let s ← normalize options s
  let (node, drawing) := create drawing s.kind
  let drawing := (options.drawnAttributes s.attrs).foldl
    (fun drawing (name, value) => setAttribute drawing node name value) drawing
  match s.text? with
  | some content => return (node, setText drawing node content)
  | none => return (node, drawing)

def placeOrigin (drawing : σ) (node : Node) : Option String → σ
  | some origin =>
      setStyle (setStyle drawing node "transform-box" "fill-box") node "transform-origin" origin
  | none => drawing

def run (options : Options) : List (Task Node) → σ → Option Error × σ
  | [], drawing => (none, drawing)
  | .build s parent :: tasks, drawing =>
      match build options s drawing with
      | .error error => (some error, drawing)
      | .ok (node, drawing) =>
          run options (s.children.map (.build · node) ++ .finish node s.origin? parent :: tasks)
            drawing
  | .finish node origin parent :: tasks, drawing =>
      run options tasks (append (placeOrigin drawing node origin) parent node)
termination_by tasks => Task.weightAll tasks
decreasing_by
  · rw [Task.weightAll_append, Task.weightAll_build]
    simp only [Task.weightAll, Task.weight, Shape.size_eq]
    omega
  · simp only [Task.weightAll, Task.weight]
    omega

/--
Draws a shape tree and gives its root. What has been drawn before an error stays, and the drawing
is given with the error.
-/
def compile (options : Options) (s : Shape) (drawing : σ) : Except Error Node × σ :=
  match build options s drawing with
  | .error error => (.error error, drawing)
  | .ok (root, drawing) =>
      match run options (s.children.map (.build · root)) drawing with
      | (some error, drawing) => (.error error, drawing)
      | (none, drawing) => (.ok root, placeOrigin drawing root s.origin?)

end Backend
end Tracery
