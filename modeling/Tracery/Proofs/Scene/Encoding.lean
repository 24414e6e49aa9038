import Tracery.Proofs.Drawing.Recursion
import Tracery.Proofs.OrderedMap
import Tracery.Proofs.Scene.Values

/-! Shapes through JSON. A scene file gives back the tree it was written from, with
every attribute value as it is read. -/

namespace Tracery

namespace Shape

mutual
def mapValues (f : Value → Value) : Shape → Shape
  | ⟨kind, attrs, .children shapes⟩ =>
      ⟨kind, attrs.mapValues f, .children (mapValuesAll f shapes)⟩
  | ⟨kind, attrs, .text content⟩ => ⟨kind, attrs.mapValues f, .text content⟩
  | ⟨kind, attrs, .empty⟩ => ⟨kind, attrs.mapValues f, .empty⟩
termination_by structural shape => shape

def mapValuesAll (f : Value → Value) : List Shape → List Shape
  | [] => []
  | shape :: rest => shape.mapValues f :: mapValuesAll f rest
termination_by structural shapes => shapes
end

def reread (s : Shape) : Shape := s.mapValues Value.reread

/-- Whether a body is what the kind calls for: children for a composite kind, a
text for a text, and nothing for the others. -/
def Agrees (s : Shape) : Prop :=
  match s.body with
  | .children _ => s.kind.isComposite = true
  | .text _ => s.kind = .text
  | .empty => s.kind.isComposite = false ∧ s.kind ≠ .text

def attributeValues (s : Shape) : List Value :=
  s.preorder.flatMap fun part => part.attrs.values

def attributeNumbers (s : Shape) : List Float := s.attributeValues.flatMap Value.numbers

theorem attributeValues_eq (s : Shape) :
    s.attributeValues = s.attrs.values ++ s.children.flatMap attributeValues := by
  have below (shapes : List Shape) : preorderAll shapes = shapes.flatMap preorder := by
    induction shapes with
    | nil => simp
    | cons first rest ih => rw [preorderAll_cons, ih, List.flatMap_cons]
  rw [attributeValues, preorder_eq, List.flatMap_cons, below, List.flatMap_assoc]
  rfl

end Shape

variable {read : Literal → Float} {f : Value → Value} {levels : Nat}

namespace Attrs

def fields (attrs : Attrs) : List (Option String × Json) :=
  attrs.entries.map fun (key, value) => (some key, value.json)

theorem nesting_fields_le_iff {attrs : Attrs} {n : Nat} :
    Json.nestingOfFields attrs.fields ≤ n ↔
      ∀ value ∈ attrs.values, value.json.nesting ≤ n := by
  simp only [Json.nestingOfFields_le_iff, fields, OrderedMap.values, List.forall_mem_map]

theorem mapM_entryOfJson? {entries : List (String × Value)}
    (reads : ∀ entry ∈ entries,
      Value.ofSoundJson? read levels entry.2.json = some (f entry.2)) :
    (entries.map fun (key, value) => (some key, value.json)).mapM
      (entryOfJson? read levels) =
        some (entries.map fun entry => (entry.1, f entry.2)) := by
  induction entries with
  | nil => rfl
  | cons entry rest ih =>
      obtain ⟨first, others⟩ := List.forall_mem_cons.mp reads
      simp [entryOfJson?, first, ih others]

theorem ofJson?_fields {attrs : Attrs}
    (reads : ∀ value ∈ attrs.values, value.ReadsAs read (f value))
    (nesting : (Json.object attrs.fields).nesting ≤ levels) :
    ofJson? read levels (.object attrs.fields) = some (attrs.mapValues f) := by
  rw [Json.nesting] at nesting
  have depth := nesting_fields_le_iff.mp (Nat.le_sub_one_of_lt nesting)
  have entries : attrs.fields.mapM (entryOfJson? read (levels - 1)) =
      some (attrs.mapValues f).entries :=
    mapM_entryOfJson? fun entry member =>
      have known := List.mem_map_of_mem member
      reads entry.2 known _ (depth entry.2 known)
  rw [ofJson?, if_pos (Nat.zero_lt_of_lt nesting), entries, Option.map_some,
    OrderedMap.ofList_entries]

end Attrs

namespace Scene

def attributesFields (attributes : Attrs) : List (Option String × Json) :=
  if attributes.entries.isEmpty then [] else [(some "attributes", .object attributes.fields)]

def childrenFields (children : List Scene) : List (Option String × Json) :=
  if children.isEmpty then [] else [(some "children", .array (jsonAll children))]

def textFields (text : Option String) : List (Option String × Json) :=
  (text.map fun content => (some "text", Json.text content)).toList

theorem json_eq (kind : String) (attributes : Attrs) (children : List Scene)
    (text : Option String) :
    json ⟨kind, attributes, children, text⟩ = .object ((some "kind", .text kind) ::
      (attributesFields attributes ++ (childrenFields children ++ textFields text))) := by
  rw [json, List.cons_append, List.cons_append, List.append_assoc]
  rfl

@[simp] theorem jsonAll_eq_map (scenes : List Scene) : jsonAll scenes = scenes.map json := by
  induction scenes with
  | nil => rfl
  | cons scene rest ih => rw [jsonAll, ih, List.map_cons]

theorem draftOfFields?_text (text : Option String) :
    draftOfFields? read levels (textFields text) = some { text := text.map some } := by
  cases text <;> rfl

theorem draftOfFields?_children {children kids : List Scene} {draft : Draft}
    {rest : List (Option String × Json)}
    (behind : draftOfFields? read levels rest = some draft)
    (new : draft.children = none)
    (reads : (∀ child ∈ children, child.json.nesting ≤ levels - 1) →
      ofJsonAll? read (levels - 1) (jsonAll children) = some kids)
    (nesting : ∀ field ∈ childrenFields children, field.2.nesting ≤ levels) :
    ∃ given : Option (List Scene), given.getD [] = kids ∧
      draftOfFields? read levels (childrenFields children ++ rest) =
        some { draft with children := given } := by
  cases children with
  | nil =>
      obtain rfl : [] = kids := Option.some.inj (reads (by simp))
      exact ⟨none, rfl, by rw [← new]; exact behind⟩
  | cons child children =>
      have array : (Json.array (jsonAll (child :: children))).nesting ≤ levels :=
        nesting _ (List.mem_singleton.mpr rfl)
      rw [Json.nesting, jsonAll_eq_map] at array
      have each := Json.nestingAll_le_iff.mp (Nat.le_sub_one_of_lt array)
      have room : levels ≠ 0 := (Nat.zero_lt_of_lt array).ne'
      have known := reads (List.forall_mem_map.mp each)
      rw [jsonAll_eq_map, List.map_cons] at known
      refine ⟨some kids, rfl, ?_⟩
      rw [childrenFields, List.isEmpty_cons, if_neg (by decide), List.singleton_append,
        draftOfFields?, behind]
      simp [new, room, known]

theorem draftOfFields?_attributes {attributes : Attrs} {draft : Draft}
    {rest : List (Option String × Json)}
    (behind : draftOfFields? read levels rest = some draft)
    (new : draft.attributes = none)
    (reads : ∀ value ∈ attributes.values, value.ReadsAs read (f value))
    (nesting : ∀ field ∈ attributesFields attributes, field.2.nesting ≤ levels) :
    ∃ given : Option Attrs, given.getD .empty = attributes.mapValues f ∧
      draftOfFields? read levels (attributesFields attributes ++ rest) =
        some { draft with attributes := given } := by
  rw [attributesFields] at nesting ⊢
  split
  next bare =>
    have empty : attributes.mapValues f = .empty := by
      apply OrderedMap.ext
      simp [OrderedMap.mapValues, OrderedMap.empty, List.isEmpty_iff.mp bare]
    exact ⟨none, empty.symm, by rw [← new]; exact behind⟩
  next filled =>
    rw [if_neg filled] at nesting
    have known := Attrs.ofJson?_fields reads (nesting _ (List.mem_singleton.mpr rfl))
    refine ⟨some (attributes.mapValues f), rfl, ?_⟩
    rw [List.singleton_append, draftOfFields?, behind]
    simp [new, known]

theorem ofJson?_json {kind : String} {attributes : Attrs} {children kids : List Scene}
    {text : Option String}
    (nesting : (json ⟨kind, attributes, children, text⟩).nesting ≤ levels)
    (attributesRead : ∀ value ∈ attributes.values, value.ReadsAs read (f value))
    (childrenRead : (∀ child ∈ children, child.json.nesting ≤ levels - 1 - 1) →
      ofJsonAll? read (levels - 1 - 1) (jsonAll children) = some kids) :
    ofJson? read levels (json ⟨kind, attributes, children, text⟩) =
      some ⟨kind, attributes.mapValues f, kids, text⟩ := by
  rw [json_eq, Json.nesting] at nesting
  have below := Json.nestingOfFields_le_iff.mp (Nat.le_sub_one_of_lt nesting)
  simp only [List.forall_mem_cons, List.forall_mem_append] at below
  obtain ⟨-, attributesDepth, childrenDepth, -⟩ := below
  obtain ⟨children?, sameChildren, draft⟩ := draftOfFields?_children
    (draftOfFields?_text text) rfl childrenRead childrenDepth
  obtain ⟨attributes?, sameAttributes, draft⟩ := draftOfFields?_attributes
    draft rfl attributesRead attributesDepth
  have sameText : (text.map some).getD none = text := by cases text <;> rfl
  rw [json_eq, ofJson?, if_pos (Nat.zero_lt_of_lt nesting), draftOfFields?, draft]
  · simp [ofDraft?, kindOfJson?, Json.text, sameChildren, sameAttributes, sameText]

theorem ofShape_eq (s : Shape) :
    ofShape s = ⟨s.kind.name, s.attrs, ofShapes s.children, s.text?⟩ := by
  obtain ⟨_, _, _ | _ | _⟩ := s <;> simp [ofShape, ofShapes, Shape.children, Shape.text?]

theorem ofShape_mapValues (s : Shape) :
    ofShape (s.mapValues f) = ⟨s.kind.name, s.attrs.mapValues f,
      ofShapes (Shape.mapValuesAll f s.children), s.text?⟩ := by
  obtain ⟨_, _, _ | _ | _⟩ := s <;>
    simp [ofShape, ofShapes, Shape.children, Shape.text?, Shape.mapValues, Shape.mapValuesAll]

theorem ofJson?_ofShapes :
    (∀ s : Shape, ∀ levels,
      (∀ value ∈ s.attributeValues, value.ReadsAs read (f value)) →
      (ofShape s).json.nesting ≤ levels →
      ofJson? read levels (ofShape s).json = some (ofShape (s.mapValues f))) ∧
    ∀ shapes : List Shape, ∀ levels,
      (∀ value ∈ shapes.flatMap Shape.attributeValues, value.ReadsAs read (f value)) →
      (∀ scene ∈ ofShapes shapes, scene.json.nesting ≤ levels) →
      ofJsonAll? read levels (jsonAll (ofShapes shapes)) =
        some (ofShapes (Shape.mapValuesAll f shapes)) := by
  apply Shape.induction_both
  case shape =>
    intro s below levels reads nesting
    rw [Shape.attributeValues_eq, List.forall_mem_append] at reads
    rw [ofShape_eq] at nesting ⊢
    rw [ofShape_mapValues]
    exact ofJson?_json nesting reads.1 (below _ reads.2)
  case nil => simp [ofShapes, Shape.mapValuesAll, ofJsonAll?]
  case cons =>
    intro s rest first others levels reads nesting
    rw [List.flatMap_cons, List.forall_mem_append] at reads
    rw [ofShapes, List.forall_mem_cons] at nesting
    rw [ofShapes, jsonAll, ofJsonAll?, first levels reads.1 nesting.1,
      others levels reads.2 nesting.2, Shape.mapValuesAll, ofShapes]
    rfl

mutual
theorem canonical_json (scene : Scene) : ∀ l ∈ scene.json.literals, l.Canonical := by
  obtain ⟨kind, attributes, children, text⟩ := scene
  rw [json_eq, Json.literals]
  intro l member
  obtain ⟨field, member, inside⟩ := Json.mem_literalsOfFields.mp member
  simp only [List.mem_cons, List.mem_append] at member
  rcases member with rfl | member | member | member
  · simp [Json.text, Json.literals] at inside
  · rw [attributesFields] at member
    split at member
    · cases member
    · obtain rfl := List.mem_singleton.mp member
      rw [Json.literals] at inside
      obtain ⟨field, known, inside⟩ := Json.mem_literalsOfFields.mp inside
      obtain ⟨entry, -, rfl⟩ := List.mem_map.mp known
      exact entry.2.canonical_json l inside
  · rw [childrenFields] at member
    split at member
    · cases member
    · obtain rfl := List.mem_singleton.mp member
      rw [Json.literals] at inside
      exact canonical_jsonAll children l inside
  · cases text with
    | none => cases member
    | some content =>
        obtain rfl := List.mem_singleton.mp member
        simp [Json.text, Json.literals] at inside
termination_by structural scene

theorem canonical_jsonAll (scenes : List Scene) :
    ∀ l ∈ Json.literalsAll (jsonAll scenes), l.Canonical := by
  cases scenes with
  | nil => simp [jsonAll, Json.literalsAll]
  | cons scene rest =>
      rw [jsonAll, Json.literalsAll, List.forall_mem_append]
      exact ⟨canonical_json scene, canonical_jsonAll rest⟩
termination_by structural scenes
end

theorem shape_ofShapes :
    (∀ s : Shape, (∀ part ∈ s.preorder, part.Agrees) → (ofShape s).shape = .ok s) ∧
    ∀ shapes : List Shape, (∀ s ∈ shapes, ∀ part ∈ s.preorder, part.Agrees) →
      Scene.shapes (ofShapes shapes) = .ok shapes := by
  apply Shape.induction_both
  case shape =>
    intro s below agreeing
    rw [Shape.preorder_eq, List.forall_mem_cons] at agreeing
    obtain ⟨here, later⟩ := agreeing
    have inside := below fun child member part known =>
      later part (Shape.mem_preorderAll.mpr ⟨child, member, known⟩)
    rw [ofShape_eq, shape, Kind.ofName?_name]
    obtain ⟨kind, attrs, body⟩ := s
    cases body with
    | empty =>
        obtain ⟨simple, other⟩ := here
        simp [simple, other, Shape.new]
    | children shapes =>
        have composite : kind.isComposite = true := here
        have inside : Scene.shapes (ofShapes shapes) = .ok shapes := inside
        simp only [composite, if_true, Shape.children, inside]
        rfl
    | text content =>
        obtain rfl : kind = .text := here
        rfl
  case nil => simp [ofShapes, Scene.shapes]
  case cons =>
    intro s rest first others agreeing
    obtain ⟨here, later⟩ := List.forall_mem_cons.mp agreeing
    rw [ofShapes, Scene.shapes, first here, others later]
    rfl

end Scene

namespace Shape

variable {f : Value → Value}

theorem agrees_mapValues (s : Shape) : (s.mapValues f).Agrees ↔ s.Agrees := by
  obtain ⟨_, _, _ | _ | _⟩ := s <;> simp [mapValues, Agrees]

theorem preorder_mapValues :
    (∀ s : Shape, (s.mapValues f).preorder = s.preorder.map (mapValues f)) ∧
    ∀ shapes : List Shape, preorderAll (mapValuesAll f shapes) =
      (preorderAll shapes).map (mapValues f) := by
  apply induction_both
  case shape =>
    intro s below
    have children : (s.mapValues f).children = mapValuesAll f s.children := by
      obtain ⟨_, _, _ | _ | _⟩ := s <;> simp [mapValues, mapValuesAll, Shape.children]
    rw [preorder_eq, preorder_eq s, children, below, List.map_cons]
  case nil => simp [mapValuesAll]
  case cons =>
    intro s rest first others
    rw [mapValuesAll, preorderAll_cons, preorderAll_cons, first, others, List.map_append]

theorem ofJsonText_of_reads {read : Literal → Float} {s : Shape}
    (agreeing : ∀ part ∈ s.preorder, part.Agrees)
    (reads : ∀ value ∈ s.attributeValues, value.ReadsAs read (f value))
    (nesting : (Scene.ofShape s).json.nesting ≤ Json.nestingLimit) :
    ofJsonText read s.sceneText = .ok (s.mapValues f) := by
  have scene : Scene.ofJsonText? read s.sceneText = some (Scene.ofShape (s.mapValues f)) := by
    rw [Scene.ofJsonText?, sceneText, Json.read?_written (Scene.canonical_json _),
      Option.bind_some, Scene.ofJson?_ofShapes.1 s _ reads nesting]
  rw [ofJsonText, scene]
  apply Scene.shape_ofShapes.1
  rw [preorder_mapValues.1, List.forall_mem_map]
  exact fun part member => (agrees_mapValues part).mpr (agreeing part member)

/-- A scene file gives back the shape tree it was written from, but for lists that
look like a vector or a color: with every number read as the nearest double, and
with any other reading that keeps the numbers of the tree. -/
theorem ofJsonText_sceneText (s : Shape)
    (agreeing : ∀ part ∈ s.preorder, part.Agrees)
    (finite : ∀ x ∈ s.attributeNumbers, Binary.isFinite x = true)
    (nesting : (Scene.ofShape s).json.nesting ≤ Json.nestingLimit) :
    ofJsonText Literal.toFloat s.sceneText = .ok s.reread ∧
      ∀ read, (∀ x ∈ s.attributeNumbers, read (Layout.scene.literal x) = x) →
        ofJsonText read s.sceneText = .ok s.reread := by
  have kept : ∀ read, (∀ x ∈ s.attributeNumbers, Json.Keeps read x) →
      ofJsonText read s.sceneText = .ok s.reread := by
    intro read keeps
    apply ofJsonText_of_reads agreeing _ nesting
    intro value member
    exact Value.readsAs_reread fun x inside =>
      keeps x (List.mem_flatMap.mpr ⟨value, member, inside⟩)
  constructor
  · exact kept _ fun x member => Json.keeps_nearest (finite x member)
  · intro read same
    exact kept read fun x member => ⟨finite x member, same x member⟩

theorem ofJsonText_sceneText_lists :
    let one := Value.number (Binary.ofNat 1)
    let s := Shape.group
      [⟨.circle, .ofList [("at", .list [one, one]),
        ("fills", .list [.list [.text "rgb", one, one, one], one])], .empty⟩,
        .label "\"\u007f\n" .empty] (.ofList [("no", .null)])
    (∀ part ∈ s.preorder, part.Agrees) ∧
      (∀ x ∈ s.attributeNumbers, Binary.isFinite x = true) ∧
      (Scene.ofShape s).json.nesting ≤ Json.nestingLimit ∧
      ofJsonText Literal.toFloat s.sceneText = .ok (Shape.group
        [⟨.circle, .ofList [("at", .vector ⟨Binary.ofNat 1, Binary.ofNat 1⟩),
          ("fills", .list [.color ⟨Binary.ofNat 1, Binary.ofNat 1, Binary.ofNat 1, 1⟩, one])],
          .empty⟩, .label "\"\u007f\n" .empty] (.ofList [("no", .null)])) := by
  intro one s
  have agreeing : ∀ part ∈ s.preorder, part.Agrees := by
    rintro part (_ | ⟨_, _ | ⟨_, _ | ⟨_, ⟨⟩⟩⟩⟩)
    · rfl
    · exact ⟨rfl, by decide⟩
    · rfl
  have finite : ∀ x ∈ s.attributeNumbers, Binary.isFinite x = true := by
    have whole : s.attributeNumbers = List.replicate 6 (Binary.ofNat 1) := rfl
    rw [whole]
    intro x member
    rw [List.eq_of_mem_replicate member]
    decide +kernel
  have nesting : (Scene.ofShape s).json.nesting ≤ Json.nestingLimit := by
    decide +kernel
  exact ⟨agreeing, finite, nesting, (ofJsonText_sceneText s agreeing finite nesting).1⟩

end Shape
end Tracery
