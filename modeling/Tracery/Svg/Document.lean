import Tracery.Drawing.Transcript
import Tracery.OrderedMap

namespace Tracery.Svg

def escapeChar (c : Char) : List Char :=
  match c with
  | '&' => "&amp;".toList
  | '<' => "&lt;".toList
  | '>' => "&gt;".toList
  | '"' => "&quot;".toList
  | '\'' => "&apos;".toList
  | c => [c]

def escapeChars (text : List Char) : List Char := text.flatMap escapeChar

def escape (text : String) : String := String.ofList (escapeChars text.toList)

structure Element where
  tag : String
  attrs : OrderedMap String := .empty
  style : OrderedMap String := .empty
  text : Option String := none
  children : List Nat := []
  parent : Option Nat := none

namespace Element

instance : Inhabited Element := ⟨⟨"", .empty, .empty, none, [], none⟩⟩

def styleText? (e : Element) : Option String :=
  if e.style.entries.isEmpty then none
  else
    some ("; ".intercalate
      (e.style.entries.map fun (property, value) => property ++ ": " ++ value))

def writtenAttrs (e : Element) : List (String × String) :=
  e.attrs.entries ++ (e.styleText?.map fun style => ("style", style)).toList

end Element

def attributeMarkup (name value : String) : List Char :=
  ' ' :: name.toList ++ '=' :: '"' :: escapeChars value.toList ++ ['"']

def tagMarkup (tag : String) (attrs : List (String × String)) : List Char :=
  '<' :: tag.toList ++ attrs.flatMap fun (name, value) => attributeMarkup name value

def endTagMarkup (tag : String) : List Char := '<' :: '/' :: tag.toList ++ ['>']

/--
A forest of elements, which are numbered as they are created and are never taken away. An element
has at most one parent, and is moved by appending it to another.
-/
structure Document where
  elements : Array Element := #[]

namespace Document

def get? (d : Document) (id : Nat) : Option Element := d.elements[id]?

def parent? (d : Document) (id : Nat) : Option Nat := (d.get? id).bind Element.parent

def update (d : Document) (id : Nat) (change : Element → Element) : Document :=
  ⟨d.elements.modify id change⟩

theorem get?_update (d : Document) (id other : Nat) (change : Element → Element) :
    (d.update id change).get? other =
      if other = id then (d.get? other).map change else d.get? other := by
  by_cases h : other = id
  · subst h
    simp [get?, update, Array.getElem?_modify]
  · simp [get?, update, Array.getElem?_modify, h, Ne.symm h]

@[simp] theorem size_update (d : Document) (id : Nat) (change : Element → Element) :
    (d.update id change).elements.size = d.elements.size := by
  simp [update]

def createElement (d : Document) (tag : String) : Nat × Document :=
  (d.elements.size, ⟨d.elements.push { tag }⟩)

theorem get?_createElement (d : Document) (tag : String) (id : Nat) :
    (d.createElement tag).2.get? id =
      if id = d.elements.size then some { tag } else d.get? id := by
  simp [get?, createElement, Array.getElem?_push]

def setAttribute (d : Document) (id : Nat) (name value : String) : Document :=
  d.update id fun e => { e with attrs := e.attrs.insert name value }

def setStyle (d : Document) (id : Nat) (property value : String) : Document :=
  d.update id fun e => { e with style := e.style.insert property value }

def setText (d : Document) (id : Nat) (content : String) : Document :=
  d.update id fun e => { e with text := some content }

def findChild? (d : Document) (parent : Nat) (tag : String) : Option Nat := do
  (← d.get? parent).children.find? fun child => (d.get? child).any (·.tag == tag)

def lineage (d : Document) : Nat → Nat → List Nat
  | 0, _ => []
  | limit + 1, id =>
      id :: (match d.parent? id with
        | some parent => d.lineage limit parent
        | none => [])

def isAncestor (d : Document) (ancestor id : Nat) : Bool :=
  (d.lineage (d.elements.size + 1) id).contains ancestor

/--
Makes an element the last child of another, and takes it away from its parent. Nothing happens
where one of them does not exist, or where the child is the parent or stands above it.
-/
def append (d : Document) (parent child : Nat) : Document :=
  match d.get? parent, d.get? child with
  | some _, some moved =>
      if d.isAncestor child parent then d
      else
        let detached := match moved.parent with
          | some old => d.update old fun e => { e with children := e.children.filter (· != child) }
          | none => d
        (detached.update child fun e => { e with parent := some parent }).update parent
          fun e => { e with children := e.children ++ [child] }
  | _, _ => d

instance : Backend Document Nat where
  create d kind := d.createElement kind.tag
  setAttribute := setAttribute
  append := append
  setText := setText
  setStyle := setStyle

end Document

inductive Pending where
  | element (id : Nat)
  | endTag (tag : String)

namespace Document

def writePending (d : Document) : Nat → List Pending → List Char
  | 0, _ => []
  | _, [] => []
  | limit + 1, .element id :: pending =>
      match d.get? id with
      | none => d.writePending limit pending
      | some e =>
          tagMarkup e.tag e.writtenAttrs ++
            (if e.children.isEmpty && e.text.isNone then '/' :: '>' :: d.writePending limit pending
            else
              '>' :: escapeChars (e.text.getD "").toList ++
                d.writePending limit (e.children.map .element ++ .endTag e.tag :: pending))
  | limit + 1, .endTag tag :: pending => endTagMarkup tag ++ d.writePending limit pending

/--
The markup of an element; nothing for a number without one. Every element below it takes a step,
and another one for its end tag.
-/
def markup (d : Document) (id : Nat) : String :=
  String.ofList (d.writePending (2 * d.elements.size + 1) [.element id])

end Document

end Tracery.Svg
