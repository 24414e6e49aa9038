import Tracery.Svg.Document

/-! The trees that documents hold, and their markup as a recursion. Writing what
is pending, step after step, gives just that markup. -/

namespace Tracery.Svg

/-- An element with all that is below it, as far as markup shows it. -/
structure Tree where
  tag : String
  attrs : List (String × String)
  style : Option String
  text : Option String
  children : List Tree

namespace Tree

mutual
def size : Tree → Nat
  | ⟨_, _, _, _, children⟩ => sizeAll children + 1
termination_by structural tree => tree

def sizeAll : List Tree → Nat
  | [] => 0
  | tree :: rest => tree.size + sizeAll rest
termination_by structural trees => trees
end

mutual
/-- The attributes and the style in a start tag, which ends the element if there
is nothing in it; otherwise the text, the children and an end tag. -/
def markup : Tree → List Char
  | ⟨tag, attrs, style, text, children⟩ =>
      let shown := attrs ++ (style.map fun style => ("style", style)).toList
      if children.isEmpty && text.isNone then tagMarkup tag shown ++ ['/', '>']
      else
        tagMarkup tag shown ++ ['>'] ++ escapeChars (text.getD "").toList ++
          markupAll children ++ endTagMarkup tag
termination_by structural tree => tree

def markupAll : List Tree → List Char
  | [] => []
  | tree :: rest => tree.markup ++ markupAll rest
termination_by structural trees => trees
end

end Tree

namespace Document

mutual
inductive Shows (d : Document) : Nat → Tree → Prop where
  | element {id : Nat} {e : Element} {children : List Tree}
      (found : d.get? id = some e) (below : ShowsAll d e.children children) :
      Shows d id ⟨e.tag, e.attrs.entries, e.styleText?, e.text, children⟩

inductive ShowsAll (d : Document) : List Nat → List Tree → Prop where
  | nil : ShowsAll d [] []
  | cons {id : Nat} {ids : List Nat} {tree : Tree} {trees : List Tree}
      (first : Shows d id tree) (rest : ShowsAll d ids trees) :
      ShowsAll d (id :: ids) (tree :: trees)
end

theorem ShowsAll.isEmpty_eq {d : Document} {ids : List Nat} {trees : List Tree}
    (shows : d.ShowsAll ids trees) : ids.isEmpty = trees.isEmpty := by
  cases shows <;> rfl

/-! A tree takes at most two steps for each of its elements, and the rest of
what is pending is written after it. -/

mutual
theorem Shows.writePending_eq {d : Document} {id : Nat} {tree : Tree}
    (shows : d.Shows id tree) :
    ∃ steps ≤ 2 * tree.size, ∀ limit pending,
      d.writePending (limit + steps) (.element id :: pending) =
        tree.markup ++ d.writePending limit pending := by
  cases shows with
  | @element _ e children found below =>
      obtain ⟨inside, bound, written⟩ := below.writePending_eq
      have emptiness : e.children.isEmpty = children.isEmpty := below.isEmpty_eq
      by_cases bare : (e.children.isEmpty && e.text.isNone) = true
      · refine ⟨1, by simp only [Tree.size]; omega, ?_⟩
        intro limit pending
        simp only [writePending, found, bare, Tree.markup, ← emptiness, if_true,
          Element.writtenAttrs]
        simp
      · refine ⟨inside + 2, by simp only [Tree.size]; omega, ?_⟩
        intro limit pending
        -- The start tag is the first step and the end tag is the last one.
        have order : limit + (inside + 2) = limit + 1 + inside + 1 := by omega
        rw [order]
        simp only [writePending, found, bare, Tree.markup, ← emptiness, if_false,
          written, Element.writtenAttrs, Bool.false_eq_true]
        simp

theorem ShowsAll.writePending_eq {d : Document} {ids : List Nat}
    {trees : List Tree} (shows : d.ShowsAll ids trees) :
    ∃ steps ≤ 2 * Tree.sizeAll trees, ∀ limit pending,
      d.writePending (limit + steps) (ids.map .element ++ pending) =
        Tree.markupAll trees ++ d.writePending limit pending := by
  cases shows with
  | nil => exact ⟨0, by simp [Tree.sizeAll], by simp [Tree.markupAll]⟩
  | cons first rest =>
      obtain ⟨firstSteps, firstBound, firstWritten⟩ := first.writePending_eq
      obtain ⟨restSteps, restBound, restWritten⟩ := rest.writePending_eq
      refine ⟨restSteps + firstSteps, ?_, ?_⟩
      · simp only [Tree.sizeAll]
        omega
      · intro limit pending
        rw [← Nat.add_assoc, List.map_cons, List.cons_append, firstWritten,
          restWritten]
        simp [Tree.markupAll]
end

theorem writePending_nil (d : Document) (limit : Nat) :
    d.writePending limit [] = [] := by
  cases limit <;> rfl

theorem Shows.markup_eq {d : Document} {id : Nat} {tree : Tree}
    (shows : d.Shows id tree) (fits : tree.size ≤ d.elements.size) :
    d.markup id = String.ofList tree.markup := by
  obtain ⟨steps, bound, written⟩ := shows.writePending_eq
  have enough : 2 * d.elements.size + 1 - steps + steps = 2 * d.elements.size + 1 := by
    omega
  rw [markup, ← enough, written, writePending_nil, List.append_nil]

end Document
end Tracery.Svg
