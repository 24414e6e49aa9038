import Mathlib.Data.List.Nodup
import Tracery.Proofs.Svg.Forest
import Tracery.Proofs.Svg.Tree

/-! The markup of an element in a document that was edited in whatever way: the
work list ends, opens every element of the subtree once, and writes what a
recursion over the subtree writes. -/

namespace Tracery.Svg

namespace Document

/-- Writing what is pending, however many steps it takes. The elements that are
opened are listed ahead of the text. -/
inductive Writes (d : Document) : List Pending → List Nat → List Char → Prop
  | done : Writes d [] [] []
  | missing {id : Nat} {pending : List Pending} {ids : List Nat}
      {text : List Char} (absent : d.get? id = none)
      (rest : Writes d pending ids text) :
      Writes d (.element id :: pending) ids text
  | empty {id : Nat} {e : Element} {pending : List Pending} {ids : List Nat}
      {text : List Char} (found : d.get? id = some e)
      (bare : (e.children.isEmpty && e.text.isNone) = true)
      (rest : Writes d pending ids text) :
      Writes d (.element id :: pending) (id :: ids)
        (tagMarkup e.tag e.writtenAttrs ++ ['/', '>'] ++ text)
  | opened {id : Nat} {e : Element} {pending : List Pending} {ids : List Nat}
      {text : List Char} (found : d.get? id = some e)
      (filled : (e.children.isEmpty && e.text.isNone) = false)
      (rest : Writes d (e.children.map .element ++ .endTag e.tag :: pending)
        ids text) :
      Writes d (.element id :: pending) (id :: ids)
        (tagMarkup e.tag e.writtenAttrs ++ ['>'] ++
          escapeChars (e.text.getD "").toList ++ text)
  | closed {tag : String} {pending : List Pending} {ids : List Nat}
      {text : List Char} (rest : Writes d pending ids text) :
      Writes d (.endTag tag :: pending) ids (endTagMarkup tag ++ text)

theorem Writes.unique {d : Document} {pending : List Pending}
    {ids others : List Nat} {text other : List Char}
    (writes : d.Writes pending ids text) (again : d.Writes pending others other) :
    ids = others ∧ text = other := by
  induction writes generalizing others other with
  | done =>
      cases again
      exact ⟨rfl, rfl⟩
  | missing absent _ ih =>
      cases again with
      | missing _ rest => exact ih rest
      | empty found => simp [absent] at found
      | opened found => simp [absent] at found
  | empty found bare _ ih =>
      cases again with
      | missing absent => simp [absent] at found
      | empty same _ rest =>
          obtain rfl := Option.some.inj (found.symm.trans same)
          obtain ⟨rfl, rfl⟩ := ih rest
          exact ⟨rfl, rfl⟩
      | opened same filled =>
          obtain rfl := Option.some.inj (found.symm.trans same)
          simp [bare] at filled
  | opened found filled _ ih =>
      cases again with
      | missing absent => simp [absent] at found
      | empty same bare =>
          obtain rfl := Option.some.inj (found.symm.trans same)
          simp [bare] at filled
      | opened same _ rest =>
          obtain rfl := Option.some.inj (found.symm.trans same)
          obtain ⟨rfl, rfl⟩ := ih rest
          exact ⟨rfl, rfl⟩
  | closed _ ih =>
      cases again with
      | closed rest =>
          obtain ⟨rfl, rfl⟩ := ih rest
          exact ⟨rfl, rfl⟩

/-- An element and what is below it, so many levels deep, every element ahead
of its children. A number without an element lists nothing. -/
def preorder (d : Document) : Nat → Nat → List Nat
  | 0, _ => []
  | levels + 1, id =>
      match d.get? id with
      | some e => id :: e.children.flatMap (d.preorder levels)
      | none => []

def treeWithin (d : Document) : Nat → Nat → Tree
  | 0, _ => ⟨"", [], none, none, []⟩
  | levels + 1, id =>
      let e := (d.get? id).getD default
      ⟨e.tag, e.attrs.entries, e.styleText?, e.text,
        e.children.map (d.treeWithin levels)⟩

/-- All elements of a subtree. No subtree is deeper than there are elements. -/
def subtree (d : Document) (id : Nat) : List Nat :=
  d.preorder (d.elements.size + 1) id

def Within (d : Document) (levels id : Nat) : Prop :=
  ∀ below steps, d.climb steps below = some id → steps < levels

theorem climb_succ (d : Document) (steps id : Nat) :
    d.climb (steps + 1) id = (d.climb steps id).bind d.parent? := by
  rw [climb_add]
  cases d.climb steps id with
  | none => rfl
  | some ancestor =>
      simp only [Option.bind_some, climb]
      cases d.parent? ancestor <;> rfl

theorem childrenOf_eq {d : Document} {id : Nat} {e : Element}
    (found : d.get? id = some e) : d.childrenOf id = e.children := by
  simp [childrenOf, found]

namespace Forest

variable {d : Document}

theorem within_size (forest : d.Forest) (id : Nat) :
    d.Within (d.elements.size + 1) id := by
  intro below steps climbed
  have := forest.steps_le_size climbed
  omega

theorem climb_succ_iff (forest : d.Forest) {steps below id : Nat} :
    d.climb (steps + 1) below = some id ↔
      ∃ child ∈ d.childrenOf id, d.climb steps below = some child := by
  simp only [climb_succ, Option.bind_eq_some_iff, forest.mem_children_iff, and_comm]

theorem within_child (forest : d.Forest) {levels id child : Nat}
    (within : d.Within (levels + 1) id) (listed : child ∈ d.childrenOf id) :
    d.Within levels child := by
  intro below steps climbed
  have := within below (steps + 1) (forest.climb_succ_iff.mpr ⟨child, listed, climbed⟩)
  omega

theorem mem_preorder_iff (forest : d.Forest) {levels id : Nat}
    (within : d.Within levels id) (other : Nat) :
    other ∈ d.preorder levels id ↔
      (d.get? other).isSome ∧ ∃ steps, d.climb steps other = some id := by
  induction levels generalizing id with
  | zero =>
      have := within id 0 rfl
      omega
  | succ levels ih =>
      rw [preorder]
      cases found : d.get? id with
      | none =>
          constructor
          · simp
          · rintro ⟨existing, steps, climbed⟩
            cases steps with
            | zero =>
                cases climbed
                simp [found] at existing
            | succ steps =>
                obtain ⟨child, listed, -⟩ := forest.climb_succ_iff.mp climbed
                simp [childrenOf, found] at listed
      | some e =>
          have children := childrenOf_eq found
          simp only [List.mem_cons, List.mem_flatMap, ← children]
          constructor
          · rintro (rfl | ⟨child, listed, inside⟩)
            · exact ⟨by simp [found], 0, rfl⟩
            · obtain ⟨existing, steps, climbed⟩ :=
                (ih (forest.within_child within listed)).mp inside
              exact ⟨existing, steps + 1, forest.climb_succ_iff.mpr ⟨child, listed, climbed⟩⟩
          · rintro ⟨existing, steps, climbed⟩
            cases steps with
            | zero => exact .inl (Option.some.inj climbed)
            | succ steps =>
                obtain ⟨child, listed, climbed⟩ := forest.climb_succ_iff.mp climbed
                exact .inr ⟨child, listed,
                  (ih (forest.within_child within listed)).mpr
                    ⟨existing, steps, climbed⟩⟩

theorem eq_of_climb_sibling (forest : d.Forest)
    {parent left right below lower upper : Nat}
    (leftListed : left ∈ d.childrenOf parent)
    (rightListed : right ∈ d.childrenOf parent)
    (leftClimbed : d.climb lower below = some left)
    (rightClimbed : d.climb upper below = some right) : left = right := by
  have heights : lower + 1 = upper + 1 :=
    forest.climb_injective (forest.climb_succ_iff.mpr ⟨left, leftListed, leftClimbed⟩)
      (forest.climb_succ_iff.mpr ⟨right, rightListed, rightClimbed⟩)
  obtain rfl : lower = upper := by omega
  exact Option.some.inj (leftClimbed.symm.trans rightClimbed)

theorem nodup_preorder (forest : d.Forest) {levels id : Nat}
    (within : d.Within levels id) : (d.preorder levels id).Nodup := by
  induction levels generalizing id with
  | zero => simp [preorder]
  | succ levels ih =>
      rw [preorder]
      cases found : d.get? id with
      | none => simp
      | some e =>
          have children := childrenOf_eq found
          have lower : ∀ child ∈ e.children, d.Within levels child := by
            intro child listed
            exact forest.within_child within (children ▸ listed)
          simp only [List.nodup_cons, List.mem_flatMap, List.nodup_flatMap]
          refine ⟨?_, fun child listed => ih (lower child listed), ?_⟩
          · rintro ⟨child, listed, inside⟩
            obtain ⟨-, steps, climbed⟩ :=
              (forest.mem_preorder_iff (lower child listed) id).mp inside
            exact forest.acyclic id steps
              (forest.climb_succ_iff.mpr ⟨child, children ▸ listed, climbed⟩)
          · have apart : e.children.Pairwise (· ≠ ·) :=
              children ▸ forest.children_nodup id
            refine apart.imp_of_mem ?_
            intro left right leftListed rightListed different other inLeft inRight
            obtain ⟨-, _, leftClimbed⟩ :=
              (forest.mem_preorder_iff (lower left leftListed) other).mp inLeft
            obtain ⟨-, _, rightClimbed⟩ :=
              (forest.mem_preorder_iff (lower right rightListed) other).mp inRight
            exact different (forest.eq_of_climb_sibling (children ▸ leftListed)
              (children ▸ rightListed) leftClimbed rightClimbed)

theorem length_preorder_le (forest : d.Forest) {levels id : Nat}
    (within : d.Within levels id) :
    (d.preorder levels id).length ≤ d.elements.size := by
  have inside : d.preorder levels id ⊆ List.range d.elements.size := by
    intro other member
    have existing := ((forest.mem_preorder_iff within other).mp member).1
    exact List.mem_range.mpr (lt_size_of_exists existing)
  simpa using ((forest.nodup_preorder within).subperm inside).length_le

end Forest

theorem ShowsAll.of_forall {d : Document} {tree : Nat → Tree} {ids : List Nat}
    (each : ∀ id ∈ ids, d.Shows id (tree id)) : d.ShowsAll ids (ids.map tree) := by
  induction ids with
  | nil => exact .nil
  | cons id rest ih =>
      apply ShowsAll.cons
      · exact each id (by simp)
      · exact ih fun other member => each other (by simp [member])

theorem sizeAll_map {tree : Nat → Tree} {listing : Nat → List Nat}
    {ids : List Nat} (each : ∀ id ∈ ids, (tree id).size = (listing id).length) :
    Tree.sizeAll (ids.map tree) = (ids.flatMap listing).length := by
  induction ids with
  | nil => simp [Tree.sizeAll]
  | cons id rest ih =>
      have others := ih fun other member => each other (by simp [member])
      have first := each id (by simp)
      simp [Tree.sizeAll, first, others]

theorem Writes.children {d : Document} {pending : List Pending}
    {ids : List Nat} {text : List Char} (rest : d.Writes pending ids text)
    {tree : Nat → Tree} {listing : Nat → List Nat} {children : List Nat}
    (each : ∀ child ∈ children, ∀ pending ids text, d.Writes pending ids text →
      d.Writes (.element child :: pending) (listing child ++ ids)
        ((tree child).markup ++ text)) :
    d.Writes (children.map .element ++ pending) (children.flatMap listing ++ ids)
      (Tree.markupAll (children.map tree) ++ text) := by
  induction children with
  | nil => simpa [Tree.markupAll] using rest
  | cons child others ih =>
      have later := ih fun child member => each child (by simp [member])
      have first := each child (by simp) _ _ _ later
      simpa [Tree.markupAll] using first

namespace Forest

variable {d : Document}

theorem shows_treeWithin (forest : d.Forest) {levels id : Nat}
    (within : d.Within levels id) (existing : (d.get? id).isSome) :
    d.Shows id (d.treeWithin levels id) := by
  induction levels generalizing id with
  | zero =>
      have := within id 0 rfl
      omega
  | succ levels ih =>
      obtain ⟨e, found⟩ := Option.isSome_iff_exists.mp existing
      have children := childrenOf_eq found
      rw [treeWithin, found]
      apply Shows.element found
      apply ShowsAll.of_forall
      intro child listed
      rw [← children] at listed
      exact ih (forest.within_child within listed) (forest.child_exists listed)

theorem size_treeWithin (forest : d.Forest) {levels id : Nat}
    (within : d.Within levels id) (existing : (d.get? id).isSome) :
    (d.treeWithin levels id).size = (d.preorder levels id).length := by
  induction levels generalizing id with
  | zero =>
      have := within id 0 rfl
      omega
  | succ levels ih =>
      obtain ⟨e, found⟩ := Option.isSome_iff_exists.mp existing
      have children := childrenOf_eq found
      rw [treeWithin, preorder, found, Tree.size, List.length_cons]
      apply congrArg (· + 1)
      apply sizeAll_map
      intro child listed
      have listed : child ∈ d.childrenOf id := children ▸ listed
      exact ih (forest.within_child within listed) (forest.child_exists listed)

theorem writes_treeWithin (forest : d.Forest) {levels id : Nat}
    (within : d.Within levels id) (existing : (d.get? id).isSome)
    {pending : List Pending} {ids : List Nat} {text : List Char}
    (rest : d.Writes pending ids text) :
    d.Writes (.element id :: pending) (d.preorder levels id ++ ids)
      ((d.treeWithin levels id).markup ++ text) := by
  induction levels generalizing id pending ids text with
  | zero =>
      have := within id 0 rfl
      omega
  | succ levels ih =>
      obtain ⟨e, found⟩ := Option.isSome_iff_exists.mp existing
      have children := childrenOf_eq found
      have each : ∀ child ∈ e.children, ∀ pending ids text,
          d.Writes pending ids text →
          d.Writes (.element child :: pending) (d.preorder levels child ++ ids)
            ((d.treeWithin levels child).markup ++ text) := by
        intro child listed _ _ _ rest
        have listed : child ∈ d.childrenOf id := children ▸ listed
        exact ih (forest.within_child within listed) (forest.child_exists listed) rest
      have closed : d.Writes (.endTag e.tag :: pending) ids
          (endTagMarkup e.tag ++ text) := .closed rest
      have inner := closed.children each
      cases bare : e.children.isEmpty && e.text.isNone with
      | true =>
          obtain ⟨childless, textless⟩ : e.children = [] ∧ e.text = none := by
            simpa using bare
          have written := Writes.empty found bare rest
          rw [preorder, treeWithin, found]
          simpa [Tree.markup, childless, textless, Element.writtenAttrs] using written
      | false =>
          have written := Writes.opened found bare inner
          rw [preorder, treeWithin, found]
          simpa [Tree.markup, bare, Element.writtenAttrs] using written

end Forest

mutual
theorem Shows.unique {d : Document} {id : Nat} {tree other : Tree}
    (shows : d.Shows id tree) (again : d.Shows id other) : tree = other := by
  cases shows with
  | element found below =>
      cases again with
      | element same belowSame =>
          obtain rfl := Option.some.inj (found.symm.trans same)
          rw [below.unique belowSame]

theorem ShowsAll.unique {d : Document} {ids : List Nat}
    {trees others : List Tree} (shows : d.ShowsAll ids trees)
    (again : d.ShowsAll ids others) : trees = others := by
  cases shows with
  | nil =>
      cases again
      rfl
  | cons first rest =>
      cases again with
      | cons firstSame restSame =>
          rw [first.unique firstSame, rest.unique restSame]
end

theorem Shows.exists {d : Document} {id : Nat} {tree : Tree}
    (shows : d.Shows id tree) : (d.get? id).isSome := by
  cases shows with
  | element found => simp [found]

theorem Forest.exists_shows {d : Document} (forest : d.Forest) {id : Nat}
    (existing : (d.get? id).isSome) : ∃ tree, d.Shows id tree :=
  ⟨_, forest.shows_treeWithin (forest.within_size id) existing⟩

theorem Forest.eq_treeWithin {d : Document} (forest : d.Forest) {id : Nat}
    {tree : Tree} (shows : d.Shows id tree) :
    tree = d.treeWithin (d.elements.size + 1) id :=
  shows.unique (forest.shows_treeWithin (forest.within_size id) shows.exists)

theorem Forest.markup_eq {d : Document} (forest : d.Forest) {id : Nat}
    {tree : Tree} (shows : d.Shows id tree) :
    d.markup id = String.ofList tree.markup := by
  apply shows.markup_eq
  rw [forest.eq_treeWithin shows,
    forest.size_treeWithin (forest.within_size id) shows.exists]
  exact forest.length_preorder_le (forest.within_size id)

theorem Forest.markupAll_eq {d : Document} (forest : d.Forest) {ids : List Nat}
    {trees : List Tree} (shows : d.ShowsAll ids trees) :
    Tree.markupAll trees = ids.flatMap fun id => (d.markup id).toList := by
  induction ids generalizing trees with
  | nil =>
      cases shows
      simp [Tree.markupAll]
  | cons id rest ih =>
      cases shows with
      | cons first others =>
          simp [Tree.markupAll, forest.markup_eq first, ih others]

theorem markup_of_missing {d : Document} {id : Nat} (absent : d.get? id = none) :
    d.markup id = "" := by
  simp [markup, writePending, absent, writePending_nil]

theorem Forest.writes_markup {d : Document} (forest : d.Forest) (id : Nat) :
    d.Writes [.element id] (d.subtree id) (d.markup id).toList := by
  cases found : d.get? id with
  | none =>
      rw [subtree, preorder, found, markup_of_missing found]
      exact .missing found .done
  | some e =>
      have existing : (d.get? id).isSome := by simp [found]
      have within := forest.within_size id
      have written := forest.writes_treeWithin within existing .done
      rw [List.append_nil, List.append_nil] at written
      rw [forest.markup_eq (forest.shows_treeWithin within existing),
        String.toList_ofList]
      exact written

end Document

namespace Element

def markupAround (e : Element) (inner : List Char) : List Char :=
  if e.children.isEmpty && e.text.isNone then
    tagMarkup e.tag e.writtenAttrs ++ ['/', '>']
  else
    tagMarkup e.tag e.writtenAttrs ++ ['>'] ++ escapeChars (e.text.getD "").toList ++
      inner ++ endTagMarkup e.tag

end Element

namespace Document

theorem Forest.markup_eq_markupAround {d : Document} (forest : d.Forest)
    {id : Nat} {e : Element} (found : d.get? id = some e) :
    d.markup id = String.ofList
      (e.markupAround (e.children.flatMap fun child => (d.markup child).toList)) := by
  have existing : (d.get? id).isSome := by simp [found]
  obtain ⟨tree, shows⟩ := forest.exists_shows existing
  rw [forest.markup_eq shows]
  cases shows with
  | element same below =>
      obtain rfl := Option.some.inj (found.symm.trans same)
      rw [Tree.markup, ← below.isEmpty_eq, forest.markupAll_eq below]
      rfl

theorem edited_forest (edits : List Edit) : (edited edits).Forest :=
  forest_foldl forest_empty edits

/-- Whatever was done to a document, writing what is pending for a number ends,
with the elements at and below it opened once each and with its markup. That is
the recursive one: nothing for a number without an element, otherwise the
element around the markup of its children in order. -/
theorem markup_edited (edits : List Edit) (id : Nat) :
    let d := edited edits
    (∀ ids text, d.Writes [.element id] ids text ↔
      ids = d.subtree id ∧ text = (d.markup id).toList) ∧
    (d.subtree id).Nodup ∧
    (∀ other, other ∈ d.subtree id ↔
      (d.get? other).isSome ∧ ∃ steps, d.climb steps other = some id) ∧
    match d.get? id with
    | none => d.markup id = ""
    | some e =>
        d.markup id = String.ofList (e.markupAround
          (e.children.flatMap fun child => (d.markup child).toList)) ∧
        ∃ tree, d.Shows id tree ∧ d.markup id = String.ofList tree.markup := by
  intro d
  have forest : d.Forest := edited_forest edits
  refine ⟨?_, forest.nodup_preorder (forest.within_size id),
    forest.mem_preorder_iff (forest.within_size id), ?_⟩
  · intro ids text
    constructor
    · exact fun writes => writes.unique (forest.writes_markup id)
    · rintro ⟨rfl, rfl⟩
      exact forest.writes_markup id
  · cases found : d.get? id with
    | none => exact markup_of_missing found
    | some e =>
        have existing : (d.get? id).isSome := by simp [found]
        obtain ⟨tree, shows⟩ := forest.exists_shows existing
        exact ⟨forest.markup_eq_markupAround found, tree, shows,
          forest.markup_eq shows⟩

end Document
end Tracery.Svg
