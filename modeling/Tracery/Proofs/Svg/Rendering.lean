import Tracery.Proofs.Svg.Drawing
import Tracery.Proofs.Svg.Forest

/-! The markup of a shape tree that was drawn into a document, as a recursion
over the shape tree. -/

namespace Tracery

namespace Shape

def treeOf (options : Options) (s : Shape) (children : List Svg.Tree) :
    Svg.Tree :=
  let normal := s.normalForm options.roundAlpha
  let drawn := normal.attrs.entries.filter fun (key, value) =>
    !value.isNull && options.allows (drawnName key)
  { tag := normal.kind.tag
    attrs := OrderedMap.settled
      (drawn.map fun (key, value) => (drawnName key, value.display))
    style := (s.attr? "origin").map fun origin =>
      "transform-box: fill-box; transform-origin: " ++ origin.display
    text := s.text?
    children }

mutual
def tree (options : Options) : Shape → Svg.Tree
  | ⟨kind, attrs, .children shapes⟩ =>
      treeOf options ⟨kind, attrs, .children shapes⟩ (trees options shapes)
  | ⟨kind, attrs, body⟩ => treeOf options ⟨kind, attrs, body⟩ []
termination_by structural shape => shape

def trees (options : Options) : List Shape → List Svg.Tree
  | [] => []
  | shape :: rest => shape.tree options :: trees options rest
termination_by structural shapes => shapes
end

theorem tree_eq (options : Options) (s : Shape) :
    s.tree options = s.treeOf options (trees options s.children) := by
  obtain ⟨_, _, _ | _ | _⟩ := s <;> simp [tree, trees, children]

@[simp] theorem trees_nil (options : Options) : trees options [] = [] := by
  simp [trees]

@[simp] theorem trees_cons (options : Options) (s : Shape) (rest : List Shape) :
    trees options (s :: rest) = s.tree options :: trees options rest := by
  simp [trees]

private theorem tree_sizes (options : Options) :
    (∀ s : Shape, (s.tree options).size = s.size) ∧
      ∀ shapes, Svg.Tree.sizeAll (trees options shapes) = sizeAll shapes := by
  apply induction_both
  case shape =>
    intro s below
    rw [tree_eq, s.size_eq, treeOf, Svg.Tree.size, below]
  case nil => simp [Svg.Tree.sizeAll]
  case cons =>
    intro s rest first others
    simp [Svg.Tree.sizeAll, first, others]

theorem size_tree (options : Options) (s : Shape) :
    (s.tree options).size = s.size :=
  (tree_sizes options).1 s

theorem styleText?_element (options : Options) (s : Shape)
    (children : List Nat) (parent : Option Nat) :
    (s.element options children parent).styleText? =
      (s.attr? "origin").map fun origin =>
        "transform-box: fill-box; transform-origin: " ++ origin.display := by
  unfold element Svg.Element.styleText? originStyle origin?
  cases s.attr? "origin" with
  | none => rfl
  | some origin =>
      apply congrArg some
      apply String.toList_inj.mp
      simp [OrderedMap.ofList, OrderedMap.put, OrderedMap.empty]

theorem treeOf_eq (options : Options) (s : Shape) (children : List Svg.Tree)
    (numbers : List Nat) (parent : Option Nat) :
    s.treeOf options children =
      let e := s.element options numbers parent
      ⟨e.tag, e.attrs.entries, e.styleText?, e.text, children⟩ := by
  have attrs : (s.element options numbers parent).attrs.entries =
      (s.treeOf options children).attrs := by
    simp only [element, bareElement, OrderedMap.entries_ofList,
      Options.drawnAttributes_eq]
    rfl
  simp only [styleText?_element, attrs]
  rfl

end Shape

namespace Svg.Document

def Holds (d : Document) (start : Nat) (elements : List Element) : Prop :=
  ∀ (index : Nat) (e : Element), elements[index]? = some e →
    d.get? (start + index) = some e

theorem Holds.head {d : Document} {start : Nat} {e : Element}
    {rest : List Element} (holds : d.Holds start (e :: rest)) :
    d.get? start = some e :=
  holds 0 e rfl

theorem Holds.tail {d : Document} {start : Nat} {e : Element}
    {rest : List Element} (holds : d.Holds start (e :: rest)) :
    d.Holds (start + 1) rest := by
  intro index e found
  rw [Nat.add_right_comm]
  exact holds (index + 1) e found

theorem Holds.left {d : Document} {start : Nat} {before after : List Element}
    (holds : d.Holds start (before ++ after)) : d.Holds start before := by
  intro index e found
  apply holds
  rw [List.getElem?_append_left]
  · exact found
  · exact (List.getElem?_eq_some_iff.mp found).1

theorem Holds.right {d : Document} {start : Nat} {before after : List Element}
    (holds : d.Holds start (before ++ after)) :
    d.Holds (start + before.length) after := by
  intro index e found
  rw [Nat.add_assoc]
  apply holds
  rw [List.getElem?_append_right (Nat.le_add_right _ _), Nat.add_sub_cancel_left]
  exact found

theorem holds_extend (d : Document) (elements : List Element) :
    (d.extend elements).Holds d.elements.size elements := by
  intro index e found
  rw [get?, extend, Array.getElem?_append_right (Nat.le_add_right _ _),
    Nat.add_sub_cancel_left]
  simpa using found

private theorem shows_trees (options : Options) (d : Document) :
    (∀ (s : Shape) (parent : Option Nat) (node : Nat),
      d.Holds node (s.elements options parent node) →
        d.Shows node (s.tree options)) ∧
    ∀ (shapes : List Shape) (parent next : Nat),
      d.Holds next (Shape.elementsBelow options shapes parent next) →
        d.ShowsAll (Shape.numbers shapes next) (Shape.trees options shapes) := by
  apply Shape.induction_both
  case shape =>
    intro s below parent node holds
    rw [Shape.elements_eq] at holds
    rw [Shape.tree_eq, Shape.treeOf_eq _ _ _
      (Shape.numbers s.children (node + 1)) parent]
    apply Shows.element holds.head
    exact below node (node + 1) holds.tail
  case nil =>
    intro parent next _
    rw [Shape.trees_nil]
    exact .nil
  case cons =>
    intro s rest first others parent next holds
    rw [Shape.elementsBelow_cons] at holds
    have later := holds.right
    rw [Shape.length_elements] at later
    rw [Shape.trees_cons]
    apply ShowsAll.cons
    · exact first (some parent) next holds.left
    · exact others parent (next + s.size) later

theorem shows_tree (options : Options) (s : Shape) (d : Document)
    (parent : Option Nat) (node : Nat)
    (holds : d.Holds node (s.elements options parent node)) :
    d.Shows node (s.tree options) :=
  (shows_trees options d).1 s parent node holds

/-- A shape tree is drawn if and only if no shape of it is refused. The markup
of the root is then that of the tree, whatever the document held before. -/
theorem markup_compile (options : Options) (s : Shape) (d : Document) :
    ((∃ root, (Backend.compile options s d).1 = .ok root) ↔
      ∀ part ∈ s.preorder, options.refusal? part = none) ∧
    ∀ root after, Backend.compile options s d = (.ok root, after) →
      after.markup root = String.ofList (s.tree options).markup := by
  have succeeds := Backend.compile_isOk_iff options s d
  refine ⟨succeeds, ?_⟩
  intro root after compiled
  have accepted := succeeds.mp ⟨root, by rw [compiled]⟩
  rw [Backend.compile_document options s accepted d] at compiled
  cases compiled
  apply Shows.markup_eq
  · exact shows_tree options s _ none _ (d.holds_extend _)
  · simp [Shape.size_tree]

theorem markup_compile_group :
    ∃ root after,
      Backend.compile {}
        (.group
          [.composite .path [] (.ofList [("strokeWidth", .text "1"),
              ("d", .text "M0 0"), ("stroke-width", .text "2"),
              ("role", .text "a")]),
            .label "a < b" .empty]
          (.ofList [("origin", .text "center")]))
        (edited [.createElement "svg"]) = (.ok root, after) ∧
      after.markup root =
        "<g style=\"transform-box: fill-box; transform-origin: center\">" ++
          "<path stroke-width=\"2\" d=\"M0 0\"/><text>a &lt; b</text></g>" := by
  have accepted : ∀ s : Shape, ∀ part ∈ s.preorder,
      ({} : Options).refusal? part = none :=
    fun _ part _ => Options.refusal?_permissive rfl part
  refine ⟨_, _, Backend.compile_document {} _ (accepted _) _, ?_⟩
  rw [(markup_compile {} _ _).2 _ _
    (Backend.compile_document {} _ (accepted _) _)]
  decide +kernel

end Svg.Document
end Tracery
