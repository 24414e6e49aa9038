import Tracery.Proofs.Drawing.Calls
import Tracery.Proofs.OrderedMap
import Tracery.Proofs.Svg.Tree

/-! Shapes drawn into documents. What a document holds stays as it is, and the
elements of a shape tree come after it in preorder, linked among themselves. -/

namespace Tracery

namespace Svg.Document

def extend (d : Document) (elements : List Element) : Document :=
  ⟨d.elements ++ elements.toArray⟩

@[simp] theorem size_extend (d : Document) (elements : List Element) :
    (d.extend elements).elements.size = d.elements.size + elements.length := by
  simp [extend]

theorem extend_extend (d : Document) (elements others : List Element) :
    (d.extend elements).extend others = d.extend (elements ++ others) := by
  simp [extend]

theorem get?_extend (d : Document) (before after : List Element) (e : Element) :
    (d.extend (before ++ e :: after)).get? (d.elements.size + before.length) =
      some e := by
  simp [get?, extend]

theorem get?_extend_first (d : Document) (after : List Element) (e : Element) :
    (d.extend (e :: after)).get? d.elements.size = some e :=
  d.get?_extend [] after e

private theorem modify_length_append {α : Type} (before after : List α) (x : α)
    (change : α → α) :
    (before ++ x :: after).modify before.length change =
      before ++ change x :: after := by
  induction before with
  | nil => rfl
  | cons first rest ih => exact congrArg (first :: ·) ih

theorem update_extend (d : Document) (before after : List Element) (e : Element)
    (change : Element → Element) :
    (d.extend (before ++ e :: after)).update (d.elements.size + before.length)
      change = d.extend (before ++ change e :: after) := by
  have place := modify_length_append (d.elements.toList ++ before) after e change
  rw [List.length_append, Array.length_toList, List.append_assoc,
    List.append_assoc] at place
  apply congrArg Document.mk
  apply Array.toList_inj.mp
  simpa [extend] using place

theorem update_extend_first (d : Document) (after : List Element) (e : Element)
    (change : Element → Element) :
    (d.extend (e :: after)).update d.elements.size change =
      d.extend (change e :: after) :=
  d.update_extend [] after e change

theorem isAncestor_of_parent?_eq_none {d : Document} {ancestor id : Nat}
    (top : d.parent? id = none) (different : ancestor ≠ id) :
    d.isAncestor ancestor id = false := by
  simp [isAncestor, lineage, top, different]

theorem append_extend (d : Document) (e child : Element)
    (between after : List Element) (top : e.parent = none)
    (loose : child.parent = none) :
    (d.extend (e :: between ++ child :: after)).append d.elements.size
        (d.elements.size + (between.length + 1)) =
      d.extend ({ e with
          children := e.children ++ [d.elements.size + (between.length + 1)] } ::
        between ++ { child with parent := some d.elements.size } :: after) := by
  have above : (d.extend (e :: between ++ child :: after)).get? d.elements.size =
      some e := d.get?_extend_first (between ++ child :: after) e
  have below : (d.extend (e :: between ++ child :: after)).get?
      (d.elements.size + (between.length + 1)) = some child :=
    d.get?_extend (e :: between) after child
  have apart : (d.extend (e :: between ++ child :: after)).isAncestor
      (d.elements.size + (between.length + 1)) d.elements.size = false := by
    apply isAncestor_of_parent?_eq_none
    · rw [parent?, above]
      exact top
    · omega
  have linked := d.update_extend (e :: between) after child
    fun e => { e with parent := some d.elements.size }
  unfold append
  rw [above, below, apart]
  simp only [loose, Bool.false_eq_true, if_false]
  rw [List.length_cons] at linked
  rw [linked, List.cons_append, update_extend_first]
  rfl

theorem setAttributes_extend (d : Document) (e : Element)
    (attributes : List (String × String)) :
    Backend.setAttributes (d.extend [e]) d.elements.size attributes =
      d.extend [{ e with attrs := e.attrs.insertAll attributes }] := by
  induction attributes generalizing e with
  | nil => rfl
  | cons entry rest ih =>
      rw [Backend.setAttributes_cons]
      have first := d.update_extend_first [] e
        fun e => { e with attrs := e.attrs.insert entry.1 entry.2 }
      exact (congrArg
        (Backend.setAttributes · d.elements.size rest) first).trans (ih _)

end Svg.Document

namespace Shape

def originStyle (s : Shape) : OrderedMap String :=
  match s.origin? with
  | some origin =>
      .ofList [("transform-box", "fill-box"), ("transform-origin", origin)]
  | none => .empty

def bareElement (options : Options) (s : Shape) : Svg.Element :=
  let normal := s.normalForm options.roundAlpha
  { tag := normal.kind.tag
    attrs := .ofList (options.drawnAttributes normal.attrs)
    text := s.text? }

def element (options : Options) (s : Shape) (children : List Nat)
    (parent : Option Nat) : Svg.Element :=
  { s.bareElement options with style := s.originStyle, children, parent }

def numbers : List Shape → Nat → List Nat
  | [], _ => []
  | s :: rest, next => next :: numbers rest (next + s.size)

mutual
/-- The elements of a shape tree whose root has a number. -/
def elements (options : Options) : Shape → Option Nat → Nat → List Svg.Element
  | ⟨kind, attrs, .children shapes⟩, parent, node =>
      element options ⟨kind, attrs, .children shapes⟩ (numbers shapes (node + 1))
          parent ::
        elementsBelow options shapes node (node + 1)
  | ⟨kind, attrs, body⟩, parent, _ =>
      [element options ⟨kind, attrs, body⟩ [] parent]
termination_by structural shape => shape

def elementsBelow (options : Options) :
    List Shape → Nat → Nat → List Svg.Element
  | [], _, _ => []
  | shape :: rest, parent, next =>
      shape.elements options (some parent) next ++
        elementsBelow options rest parent (next + shape.size)
termination_by structural shapes => shapes
end

theorem elements_eq (options : Options) (s : Shape) (parent : Option Nat)
    (node : Nat) :
    s.elements options parent node =
      s.element options (numbers s.children (node + 1)) parent ::
        elementsBelow options s.children node (node + 1) := by
  obtain ⟨_, _, _ | _ | _⟩ := s <;>
    simp [elements, elementsBelow, numbers, children]

@[simp] theorem elementsBelow_nil (options : Options) (parent next : Nat) :
    elementsBelow options [] parent next = [] := by
  simp [elementsBelow]

theorem elementsBelow_cons (options : Options) (s : Shape) (rest : List Shape)
    (parent next : Nat) :
    elementsBelow options (s :: rest) parent next =
      s.elements options (some parent) next ++
        elementsBelow options rest parent (next + s.size) := by
  simp [elementsBelow]

private theorem elements_lengths (options : Options) :
    (∀ (s : Shape) (parent : Option Nat) (node : Nat),
      (s.elements options parent node).length = s.size) ∧
    ∀ (shapes : List Shape) (parent next : Nat),
      (elementsBelow options shapes parent next).length = sizeAll shapes := by
  apply induction_both
  case shape =>
    intro s below parent node
    rw [elements_eq, s.size_eq, List.length_cons, below]
  case nil => simp
  case cons =>
    intro s rest first others parent next
    simp [elementsBelow_cons, first, others]

@[simp] theorem length_elements (options : Options) (s : Shape)
    (parent : Option Nat) (node : Nat) :
    (s.elements options parent node).length = s.size :=
  (elements_lengths options).1 s parent node

end Shape

namespace Backend

open Svg (Document Element)

theorem place_document (options : Options) (s : Shape) (d : Document) :
    place options s d =
      (d.elements.size, d.extend [s.bareElement options]) := by
  have text : (s.normalForm options.roundAlpha).text? = s.text? := by
    simp [Shape.text?]
  have created : create d (s.normalForm options.roundAlpha).kind =
      (d.elements.size,
        d.extend [{ tag := (s.normalForm options.roundAlpha).kind.tag }]) := by
    simp [create, Document.createElement, Document.extend]
  simp only [place, created, text, Document.setAttributes_extend]
  cases content : s.text? with
  | none => simp [placeText, Shape.bareElement, content, OrderedMap.ofList]
  | some shown =>
      simp only [placeText, setText, Document.setText]
      rw [Document.update_extend_first]
      simp [Shape.bareElement, content, OrderedMap.ofList]

theorem placeOrigin_extend (d : Document) (s : Shape) (e : Element)
    (after : List Element) (plain : e.style = .empty) :
    placeOrigin (d.extend (e :: after)) d.elements.size s.origin? =
      d.extend ({ e with style := s.originStyle } :: after) := by
  unfold Shape.originStyle
  cases s.origin? with
  | none => simp [placeOrigin, ← plain]
  | some origin =>
      simp only [placeOrigin, setStyle, Document.setStyle]
      rw [Document.update_extend_first, Document.update_extend_first, plain]
      rfl

private theorem append_elements (options : Options) (s : Shape) (d : Document)
    (e : Element) (after : List Element) (top : e.parent = none) :
    ((d.extend (e :: after)).extend (s.elements options none
        (d.elements.size + (after.length + 1)))).append d.elements.size
        (d.elements.size + (after.length + 1)) =
      d.extend ({ e with
          children := e.children ++ [d.elements.size + (after.length + 1)] } ::
        (after ++ s.elements options (some d.elements.size)
          (d.elements.size + (after.length + 1)))) := by
  rw [Document.extend_extend, s.elements_eq, s.elements_eq,
    Document.append_extend _ _ _ _ _ top rfl]
  rfl

private theorem document_draws (options : Options) :
    (∀ s : Shape, (∀ part ∈ s.preorder, options.refusal? part = none) →
      ∀ d : Document, compile options s d =
        (.ok d.elements.size,
          d.extend (s.elements options none d.elements.size))) ∧
    ∀ shapes : List Shape,
      (∀ part ∈ Shape.preorderAll shapes, options.refusal? part = none) →
      ∀ (d : Document) (e : Element) (after : List Element), e.parent = none →
        drawAll options shapes d.elements.size (d.extend (e :: after)) =
          (none, d.extend ({ e with
              children := e.children ++
                Shape.numbers shapes (d.elements.size + (after.length + 1)) } ::
            (after ++ Shape.elementsBelow options shapes d.elements.size
              (d.elements.size + (after.length + 1))))) := by
  apply Shape.induction_both
  case shape =>
    intro s below accepted d
    rw [s.preorder_eq, List.forall_mem_cons] at accepted
    have drawn := below accepted.2 d (s.bareElement options) [] rfl
    rw [compile_eq, accepted.1, place_document]
    simp only [drawn]
    rw [placeOrigin_extend, s.elements_eq]
    · rfl
    · rfl
  case nil => simp [Shape.numbers]
  case cons =>
    intro s rest first others accepted d e after top
    rw [Shape.preorderAll_cons, List.forall_mem_append] at accepted
    -- The parent is attached only when it is complete: until then it has no
    -- parent itself, and no append below it can close a circle.
    have drawn := first accepted.1 (d.extend (e :: after))
    rw [Document.size_extend, List.length_cons] at drawn
    have attached := append_elements options s d e after top
    have later := others accepted.2 d
      { e with children := e.children ++ [d.elements.size + (after.length + 1)] }
      (after ++ s.elements options (some d.elements.size)
        (d.elements.size + (after.length + 1))) top
    have next : d.elements.size + (after.length + s.size + 1) =
        d.elements.size + (after.length + 1) + s.size := by omega
    rw [List.length_append, Shape.length_elements, next] at later
    rw [drawAll_cons, drawn]
    simp only [append, attached, later]
    simp [Shape.numbers, Shape.elementsBelow_cons]

/-- A shape tree of which nothing is refused is drawn by adding its elements. -/
theorem compile_document (options : Options) (s : Shape)
    (accepted : ∀ part ∈ s.preorder, options.refusal? part = none)
    (d : Document) :
    compile options s d =
      (.ok d.elements.size,
        d.extend (s.elements options none d.elements.size)) :=
  (document_draws options).1 s accepted d

end Backend
end Tracery
