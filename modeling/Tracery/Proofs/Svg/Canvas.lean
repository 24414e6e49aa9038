import Tracery.Proofs.Svg.Frame
import Tracery.Svg.Canvas

/-! Operations on a canvas. What is drawn becomes the last child of one element,
and a drawing that fails shows nowhere. -/

namespace Tracery

theorem Kind.tag_ne_defs (kind : Kind) : kind.tag ≠ "defs" := by
  cases kind <;> decide

namespace Svg

namespace Document

variable {d e : Document}

def tag? (d : Document) (id : Nat) : Option String := (d.get? id).map Element.tag

def HasChild (d : Document) (parent : Nat) (tag : String) : Prop :=
  ∃ child ∈ d.childrenOf parent, d.tag? child = some tag

theorem tag?_of_get? {id : Nat} {x : Element} (found : d.get? id = some x) :
    d.tag? id = some x.tag := by
  rw [tag?, found, Option.map_some]

theorem tag?_append (d : Document) (parent child id : Nat) :
    (d.append parent child).tag? id = d.tag? id :=
  map_get?_append Element.tag (fun _ _ _ => rfl) d parent child id

theorem findChild?_eq (d : Document) (parent : Nat) (tag : String) :
    d.findChild? parent tag =
      (d.childrenOf parent).find? fun child => d.tag? child == some tag := by
  have test : (fun child => (d.get? child).any (·.tag == tag)) =
      fun child => d.tag? child == some tag := by
    funext child
    unfold tag?
    cases d.get? child <;> rfl
  unfold findChild? childrenOf
  cases d.get? parent with
  | none => rfl
  | some e => simp [test]

theorem of_findChild?_eq_some {parent child : Nat} {tag : String}
    (found : d.findChild? parent tag = some child) :
    child ∈ d.childrenOf parent ∧ d.tag? child = some tag := by
  rw [findChild?_eq] at found
  have tagged := List.find?_some found
  exact ⟨List.mem_of_find?_eq_some found, eq_of_beq tagged⟩

theorem findChild?_eq_none_iff {parent : Nat} {tag : String} :
    d.findChild? parent tag = none ↔ ¬ d.HasChild parent tag := by
  simp [findChild?_eq, HasChild]

/-! An element gets at most one child, which is new, and nothing else changes. -/

structure Gains (d : Document) (parent : Nat) (child : Option Nat) (e : Document) :
    Prop where
  forest : e.Forest
  kept : ∀ id x, id ≠ parent → d.get? id = some x → e.get? id = some x
  listed : ∀ x, d.get? parent = some x →
    e.get? parent = some { x with children := x.children ++ child.toList }
  fresh : ∀ node ∈ child, d.get? node = none

theorem Grown.gains (grown : d.Grown e) (after : e.Forest) (parent : Nat) :
    d.Gains parent none e where
  forest := after
  kept _ _ _ found := grown.of_get? found
  listed x found := by
    rw [grown.of_get? found, Option.toList_none, List.append_nil]
  fresh _ member := nomatch member

theorem Grown.gains_append (grown : d.Grown e) (before : d.Forest) (after : e.Forest)
    {parent node : Nat} (existing : (d.get? parent).isSome)
    (new : d.elements.size ≤ node) {x : Element} (made : e.get? node = some x)
    (loose : x.parent = none) :
    d.Gains parent (some node) (e.append parent node) ∧
      (e.append parent node).get? node = some { x with parent := some parent } := by
  have old := lt_size_of_exists existing
  have apart : e.isAncestor node parent = false := by
    rw [← Bool.not_eq_true, after.isAncestor_iff]
    rintro ⟨steps, climbed⟩
    exact grown.not_below_new before existing new steps climbed
  have accepted : e.Accepts parent node := by
    refine ⟨?_, by simp [made], apart⟩
    rwa [grown.kept parent old]
  have top : e.parent? node = none := by simp [parent?, made, loose]
  have different : node ≠ parent := by omega
  refine ⟨⟨after.append parent node, ?_, ?_, ?_⟩, ?_⟩
  · intro id y other found
    have notNode : id ≠ node := by
      have : (d.get? id).isSome := by simp [found]
      have := lt_size_of_exists this
      omega
    rw [get?_append accepted, grown.of_get? found]
    simp [top, other, notNode]
  · intro y found
    rw [get?_append accepted, grown.of_get? found]
    simp [top, different.symm]
  · intro child named
    obtain rfl : node = child := by simpa using named
    simpa [get?] using new
  · rw [get?_append accepted, made]
    simp [top, different]

theorem Gains.exists {parent : Nat} {child : Option Nat} (gains : d.Gains parent child e)
    {id : Nat} (existing : (d.get? id).isSome) : (e.get? id).isSome := by
  obtain ⟨x, found⟩ := Option.isSome_iff_exists.mp existing
  by_cases here : id = parent
  · subst here
    simp [gains.listed x found]
  · simp [gains.kept id x here found]

end Document

namespace Canvas

open Document (Gains Grown forest_invariant)

structure Sound (canvas : Canvas) : Prop where
  forest : canvas.document.Forest
  exists_root : (canvas.document.get? canvas.root).isSome

variable {canvas : Canvas}

/-- What is drawn becomes the last child of an element, and has a tag of its own
kind; a drawing that fails is left without a parent. -/
theorem gains_drawInto (forest : canvas.document.Forest) {parent : Nat}
    (existing : (canvas.document.get? parent).isSome) (s : Shape) :
    canvas.document.Gains parent (canvas.drawInto parent s).1.toOption
        (canvas.drawInto parent s).2.document ∧
      ∀ node, (canvas.drawInto parent s).1 = .ok node →
        (canvas.drawInto parent s).2.document.tag? node ≠ some "defs" := by
  have grown := Grown.compile canvas.options s canvas.document
  have after := forest_invariant.compile canvas.options s canvas.document forest
  have root := fun node : Nat =>
    @Document.compile_root canvas.options s canvas.document forest node
  unfold drawInto
  generalize Backend.compile canvas.options s canvas.document = drawn at grown after root ⊢
  obtain ⟨error | node, document⟩ := drawn
  · exact ⟨grown.gains after parent, fun _ failed => nomatch failed⟩
  · obtain ⟨rfl, ⟨x, made, loose, tag⟩, -⟩ := root node rfl
    refine ⟨grown.gains_append forest after existing (Nat.le_refl _) made
      loose |>.1, ?_⟩
    rintro node ⟨⟩
    rw [Document.tag?_append, Document.tag?_of_get? made, tag]
    exact fun same => Kind.tag_ne_defs _ (Option.some.inj same)

theorem root_drawInto (canvas : Canvas) (parent : Nat) (s : Shape) :
    (canvas.drawInto parent s).2.root = canvas.root := by
  unfold drawInto
  split <;> rfl

theorem definitions_of_some {definitions : Nat}
    (found : canvas.document.findChild? canvas.root "defs" = some definitions) :
    canvas.definitions = (definitions, canvas) := by
  rw [Canvas.definitions, found]

theorem definitions_of_none
    (absent : canvas.document.findChild? canvas.root "defs" = none) :
    canvas.definitions = (canvas.document.elements.size, { canvas with
      document := (canvas.document.createElement "defs").2.append canvas.root
        canvas.document.elements.size }) := by
  rw [Canvas.definitions, absent]
  rfl

theorem createElement_eq_extend (d : Document) (tag : String) :
    (d.createElement tag).2 = d.extend [{ tag }] := by
  simp [Document.createElement, Document.extend]

theorem Sound.gains_definitions (sound : canvas.Sound)
    (absent : canvas.document.findChild? canvas.root "defs" = none) :
    canvas.document.Gains canvas.root (some canvas.definitions.1)
        canvas.definitions.2.document ∧
      canvas.definitions.2.document.get? canvas.definitions.1 =
        some { tag := "defs", parent := some canvas.root } := by
  have grown : canvas.document.Grown (canvas.document.createElement "defs").2 := by
    rw [createElement_eq_extend]
    exact (Grown.refl _).extend rfl
  have made : (canvas.document.createElement "defs").2.get? canvas.document.elements.size =
      some { tag := "defs" } := by
    rw [Document.get?_createElement, if_pos rfl]
  rw [definitions_of_none absent]
  exact grown.gains_append sound.forest (sound.forest.createElement "defs")
    sound.exists_root (Nat.le_refl _) made rfl

theorem surface_eq (attrs : Attrs) (options : Options) :
    surface attrs options =
      { document := ({} : Document).extend [{
          tag := "svg"
          attrs := .ofList (("xmlns", svgNamespace) :: options.drawnAttributes attrs) }]
        root := 0, options } := by
  have made : (surface attrs options).document =
      Backend.setAttributes (({} : Document).extend [{ tag := "svg" }]) 0
        (("xmlns", svgNamespace) :: options.drawnAttributes attrs) := by
    rw [← createElement_eq_extend]
    rfl
  have document := made.trans (({} : Document).setAttributes_extend { tag := "svg" } _)
  calc
    surface attrs options =
        { document := (surface attrs options).document, root := 0, options } := rfl
    _ = _ := by rw [document]; rfl

theorem sound_surface (attrs : Attrs) (options : Options) :
    (surface attrs options).Sound where
  forest := forest_invariant.setAttributes 0
    (("xmlns", svgNamespace) :: options.drawnAttributes attrs) _
    (Document.forest_empty.createElement "svg")
  exists_root := by
    rw [surface_eq]
    simp [Document.get?, Document.extend]

/-- One operation on a canvas. Nodes to turn need not exist, and drawing a shape may
fail. -/
inductive Action where
  | render (s : Shape)
  | define (s : Shape)
  | centerView (width height : Float)
  | turnAroundCenter (node : Nat)

inductive Outcome where
  | rendered (result : Except Error Nat)
  | defined (result : Except Error Nat)
  | adjusted

def perform (canvas : Canvas) : Action → Outcome × Canvas
  | .render s => (.rendered (canvas.render s).1, (canvas.render s).2)
  | .define s => (.defined (canvas.define s).1, (canvas.define s).2)
  | .centerView width height => (.adjusted, canvas.centerView width height)
  | .turnAroundCenter node => (.adjusted, canvas.turnAroundCenter node)

def changed (canvas : Canvas) (changes : List (Action ⊕ Edit)) : Canvas :=
  changes.foldl (fun canvas change =>
    match change with
    | .inl action => (canvas.perform action).2
    | .inr edit => { canvas with document := edit.apply canvas.document }) canvas

theorem Sound.drawInto (sound : canvas.Sound) {parent : Nat}
    (existing : (canvas.document.get? parent).isSome) (s : Shape) :
    (canvas.drawInto parent s).2.Sound := by
  have gains := (gains_drawInto sound.forest existing s).1
  refine ⟨gains.forest, ?_⟩
  rw [root_drawInto]
  exact gains.exists sound.exists_root

theorem Sound.definitions (sound : canvas.Sound) :
    canvas.definitions.2.Sound ∧
      (canvas.definitions.2.document.get? canvas.definitions.1).isSome := by
  cases found : canvas.document.findChild? canvas.root "defs" with
  | some definitions =>
      rw [definitions_of_some found]
      have listed := (Document.of_findChild?_eq_some found).1
      exact ⟨sound, sound.forest.child_exists listed⟩
  | none =>
      obtain ⟨gains, made⟩ := sound.gains_definitions found
      have root : canvas.definitions.2.root = canvas.root := by
        rw [definitions_of_none found]
      refine ⟨⟨gains.forest, ?_⟩, by simp [made]⟩
      rw [root]
      exact gains.exists sound.exists_root

theorem Sound.perform (sound : canvas.Sound) (action : Action) :
    (canvas.perform action).2.Sound := by
  cases action with
  | render s => exact sound.drawInto sound.exists_root s
  | define s =>
      obtain ⟨ready, existing⟩ := sound.definitions
      exact ready.drawInto existing s
  | centerView width height =>
      refine ⟨forest_invariant.setAttribute _ _ _ _ sound.forest, ?_⟩
      simpa [Canvas.perform, centerView, Document.setAttribute,
        Document.get?_update_eq_map] using sound.exists_root
  | turnAroundCenter node =>
      refine ⟨forest_invariant.placeOrigin canvas.document node (some "center")
        sound.forest, ?_⟩
      simpa [Canvas.perform, turnAroundCenter, Backend.placeOrigin, Backend.setStyle,
        Document.setStyle, Document.get?_update_eq_map] using sound.exists_root

end Canvas

theorem Edit.exists_apply {d : Document} {id : Nat} (existing : (d.get? id).isSome)
    (edit : Edit) : ((edit.apply d).get? id).isSome := by
  have inside := Document.lt_size_of_exists existing
  have size : d.elements.size ≤ (edit.apply d).elements.size := by
    cases edit with
    | createElement tag => simp [apply, Document.createElement]
    | createNode kind => simp [apply, Backend.create, Document.createElement]
    | setAttribute id name value => simp [apply, Document.setAttribute]
    | setStyle id property value => simp [apply, Document.setStyle]
    | setText id content => simp [apply, Document.setText]
    | append parent child => simp [apply]
    | compile options s => exact (Document.Grown.compile options s d).size_le
  have still := Nat.lt_of_lt_of_le inside size
  simpa [Document.get?] using still

namespace Canvas

open Document (Gains Grown forest_invariant)

variable {canvas : Canvas}

theorem Sound.changed (sound : canvas.Sound) (changes : List (Action ⊕ Edit)) :
    (canvas.changed changes).Sound := by
  induction changes generalizing canvas with
  | nil => exact sound
  | cons change rest ih =>
      apply ih
      cases change with
      | inl action => exact sound.perform action
      | inr edit => exact ⟨sound.forest.apply edit, edit.exists_apply sound.exists_root⟩

theorem drawInto_of_error {parent : Nat} {s : Shape} {error : Error}
    (failed : (canvas.drawInto parent s).1 = .error error) :
    (canvas.drawInto parent s).2 =
      { canvas with document :=
          (Backend.compile canvas.options s canvas.document).2 } := by
  unfold drawInto at failed ⊢
  generalize Backend.compile canvas.options s canvas.document = drawn at failed ⊢
  obtain ⟨error | node, document⟩ := drawn
  · rfl
  · cases failed

theorem Sound.markup_drawInto_of_error (sound : canvas.Sound) {parent : Nat}
    {s : Shape} {error : Error}
    (failed : (canvas.drawInto parent s).1 = .error error) :
    (canvas.drawInto parent s).2.markup = canvas.markup := by
  have grown := Grown.compile canvas.options s canvas.document
  have after := forest_invariant.compile canvas.options s canvas.document sound.forest
  rw [drawInto_of_error failed]
  exact grown.markup_eq sound.forest after sound.exists_root

theorem Sound.shows_define_of_error (sound : canvas.Sound) {s : Shape} {error : Error}
    (absent : canvas.document.findChild? canvas.root "defs" = none)
    (failed : (canvas.define s).1 = .error error) {tree : Tree}
    (shows : canvas.document.Shows canvas.root tree) :
    (canvas.define s).2.document.Shows canvas.root
      { tree with children := tree.children ++ [⟨"defs", [], none, none, []⟩] } := by
  obtain ⟨gains, made⟩ := sound.gains_definitions absent
  have drawn : (canvas.define s).2.document =
      (Backend.compile canvas.definitions.2.options s
        canvas.definitions.2.document).2 :=
    congrArg document (drawInto_of_error failed)
  have grown := Grown.compile canvas.definitions.2.options s
    canvas.definitions.2.document
  rw [drawn]
  cases shows with
  | @element _ root children found below =>
      have rootKept := grown.of_get? (gains.listed root found)
      have others : ∀ child ∈ root.children, ∀ other x steps,
          canvas.document.climb steps other = some child →
          canvas.document.get? other = some x →
          (Backend.compile canvas.definitions.2.options s
            canvas.definitions.2.document).2.get? other = some x := by
        intro child listed other x steps climbed present
        apply grown.of_get?
        apply gains.kept other x _ present
        rintro rfl
        -- The root would stand below its own child.
        exact sound.forest.acyclic canvas.root steps
          (sound.forest.climb_succ_iff.mpr
            ⟨child, Document.childrenOf_eq found ▸ listed, climbed⟩)
      have last : (Backend.compile canvas.definitions.2.options s
          canvas.definitions.2.document).2.Shows canvas.definitions.1
            ⟨"defs", [], none, none, []⟩ :=
        .element (grown.of_get? made) .nil
      have shown := Document.Shows.element rootKept
        ((below.of_agree sound.forest others).append (.cons last .nil))
      exact shown

end Canvas

/-- Drawing leaves all that was there as it was, whether it succeeds or fails; the
new root has no parent, and just the new elements are at or below it. A shape that
cannot be rendered thus changes nothing about the markup of a canvas, whatever was
done to it, and one that cannot be defined at most adds an empty element for the
definitions. -/
theorem drawing_frame (options : Options) (s : Shape) :
    (∀ edits : List Edit,
      let d := Document.edited edits
      let drawn := Backend.compile options s d
      (∀ id e, d.get? id = some e → drawn.2.get? id = some e) ∧
      ∀ root, drawn.1 = .ok root →
        (∃ e, drawn.2.get? root = some e ∧ e.parent = none) ∧
        ∀ id, (drawn.2.get? id).isSome →
          (d.get? id = none ↔ ∃ steps, drawn.2.climb steps id = some root)) ∧
    ∀ (attrs : Attrs) (changes : List (Canvas.Action ⊕ Edit)) (error : Error),
      let canvas := (Canvas.surface attrs options).changed changes
      ((canvas.render s).1 = .error error →
        (canvas.render s).2.markup = canvas.markup) ∧
      ((canvas.define s).1 = .error error →
        (canvas.document.HasChild canvas.root "defs" →
          (canvas.define s).2.markup = canvas.markup) ∧
        (¬ canvas.document.HasChild canvas.root "defs" →
          ∃ tree, canvas.document.Shows canvas.root tree ∧
            canvas.markup = String.ofList tree.markup ∧
            (canvas.define s).2.markup = String.ofList ({ tree with
              children := tree.children ++ [⟨"defs", [], none, none, []⟩] } :
                Tree).markup)) := by
  refine ⟨?_, ?_⟩
  · intro edits d drawn
    have forest : d.Forest := Document.edited_forest edits
    refine ⟨fun id e => (Document.Grown.compile options s d).of_get?, ?_⟩
    intro root succeeded
    obtain ⟨-, ⟨e, found, top, -⟩, below⟩ := Document.compile_root forest succeeded
    exact ⟨⟨e, found, top⟩, below⟩
  · intro attrs changes error canvas
    have sound : canvas.Sound := (Canvas.sound_surface attrs options).changed changes
    refine ⟨sound.markup_drawInto_of_error, fun failed => ⟨?_, ?_⟩⟩
    · intro there
      have found : canvas.document.findChild? canvas.root "defs" ≠ none :=
        fun absent => Document.findChild?_eq_none_iff.mp absent there
      obtain ⟨definitions, found⟩ := Option.ne_none_iff_exists'.mp found
      have same : canvas.define s = canvas.drawInto definitions s := by
        rw [Canvas.define, Canvas.definitions_of_some found]
      rw [same] at failed ⊢
      exact sound.markup_drawInto_of_error failed
    · intro missing
      have absent := Document.findChild?_eq_none_iff.mpr missing
      obtain ⟨tree, shows⟩ := sound.forest.exists_shows sound.exists_root
      have after := sound.shows_define_of_error absent failed shows
      have root : (canvas.define s).2.root = canvas.root := by
        rw [Canvas.define, Canvas.root_drawInto, Canvas.definitions_of_none absent]
      have stillSound := sound.perform (.define s)
      refine ⟨tree, shows, sound.forest.markup_eq shows, ?_⟩
      rw [Canvas.markup, root]
      exact stillSound.forest.markup_eq after

theorem drawing_frame_flawed :
    let canvas := Canvas.surface .empty { strict := true }
    let flawed := Shape.group [.label "a" .empty, .new .circle .empty] .empty
    (canvas.define flawed).1 = .error (.invalidAttribute .circle "r" .missing) ∧
    (canvas.define flawed).2.document.elements.size = 4 ∧
      (canvas.define flawed).2.markup =
        "<svg xmlns=\"http://www.w3.org/2000/svg\"><defs/></svg>" := by
  intro canvas flawed
  have failed : (canvas.define flawed).1 =
      .error (.invalidAttribute .circle "r" .missing) := by
    decide +kernel
  have made : (canvas.define flawed).2.document.elements.size = 4 := by decide +kernel
  have missing : ¬ canvas.document.HasChild canvas.root "defs" := by
    rintro ⟨child, listed, -⟩
    cases listed
  obtain ⟨tree, shows, -, after⟩ :=
    ((drawing_frame { strict := true } flawed).2 .empty [] _).2 failed |>.2 missing
  have found : canvas.document.get? canvas.root =
      some { tag := "svg", attrs := .ofList [("xmlns", svgNamespace)] } := rfl
  obtain rfl := shows.unique (.element found .nil)
  refine ⟨failed, made, after.trans ?_⟩
  decide +kernel

end Svg
end Tracery
