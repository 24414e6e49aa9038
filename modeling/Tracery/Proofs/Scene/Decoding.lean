import Tracery.Proofs.Scene.Encoding

/-! Scene files that are read and written back. Whatever form a file has, what is read
from it is written in a form that is read the same. -/

namespace Tracery

variable {read : Literal → Float} {levels : Nat}

theorem Json.finite_of_float? {json : Json} {x : Float}
    (sound : json.isSound read levels = true) (is : json.float? read = some x) :
    Binary.isFinite x = true := by
  cases json with
  | number l =>
      obtain rfl : read l = x := Option.some.inj is
      exact sound
  | _ => cases is

namespace Color

theorem isFinite_one : Binary.isFinite 1 = true := by
  decide +kernel

theorem finite_of_ofJsonItems? {items : List Json} {c : Color}
    (sound : ∀ item ∈ items, item.isSound read levels = true)
    (is : ofJsonItems? read items = some c) :
    ∀ x ∈ [c.r, c.g, c.b, c.a], Binary.isFinite x = true := by
  obtain ⟨space, r, g, b, named, rfl | ⟨a, rfl⟩⟩ := Value.exists_of_ofJsonItems? is
  · obtain rfl : Color.mk (read r) (read g) (read b) 1 = c := by
      simpa [ofJsonItems?, named, Json.float?] using is
    simp only [List.forall_mem_cons] at sound ⊢
    obtain ⟨-, red, green, blue, -⟩ := sound
    exact ⟨red, green, blue, isFinite_one, by simp⟩
  · obtain rfl : Color.mk (read r) (read g) (read b) (read a) = c := by
      simpa [ofJsonItems?, named, Json.float?] using is
    simp only [List.forall_mem_cons] at sound ⊢
    obtain ⟨-, red, green, blue, alpha, -⟩ := sound
    exact ⟨red, green, blue, alpha, by simp⟩

theorem finite_of_ofJsonFields? {fields : List (Option String × Json)} {c : Color}
    (sound : ∀ field ∈ fields, field.2.isSound read levels = true)
    (is : ofJsonFields? read fields = some c) :
    ∀ x ∈ [c.r, c.g, c.b, c.a], Binary.isFinite x = true := by
  have finite {key : Option String} {json : Json} {x : Float}
      (given : fields.lookup key = some json) (number : json.float? read = some x) :
      Binary.isFinite x = true := by
    obtain ⟨before, after, rfl, -⟩ := List.lookup_eq_some_iff.mp given
    exact Json.finite_of_float? (sound (key, json) (by simp)) number
  simp only [ofJsonFields?] at is
  split at is
  case isFalse => cases is
  rw [Option.bind_eq_bind, Option.bind_eq_some_iff] at is
  obtain ⟨space, -, is⟩ := is
  split at is
  all_goals
    simp only [Option.bind_eq_bind, Option.bind_eq_some_iff] at is
    obtain ⟨alpha, opacity, is⟩ := is
    split at is
    case isFalse => cases is
    simp only [Option.bind_eq_some_iff] at is
    obtain ⟨r, atR, x, red, g, atG, y, green, b, atB, z, blue, same⟩ := is
    cases same
    simp only [List.forall_mem_cons]
    refine ⟨finite atR red, finite atG green, finite atB blue, ?_, by simp⟩
  case h_1 given _ => exact finite given opacity
  case h_2 => exact Option.some.inj opacity ▸ isFinite_one

end Color

theorem Json.nesting_ofFloat (x : Float) : (ofFloat x).nesting = 0 := by
  rw [ofFloat]
  split <;> rfl

namespace Value

/-- A value that is read as itself: no list in it looks like a vector or a color, and
its numbers are finite. -/
structure Stable (value : Value) : Prop where
  reread : value.reread = value
  finite : ∀ x ∈ value.numbers, Binary.isFinite x = true

structure Fits (levels : Nat) (value : Value) : Prop extends Stable value where
  nesting : value.json.nesting ≤ levels

theorem fits_vector {v : Vec} (finite : ∀ x ∈ [v.x, v.y], Binary.isFinite x = true)
    (room : 0 < levels) : (vector v).Fits levels := by
  refine ⟨⟨rfl, finite⟩, ?_⟩
  simpa [json, Json.nesting, Json.nestingAll, Json.nesting_ofFloat] using Nat.succ_le_of_lt room

theorem fits_color {c : Color} (finite : ∀ x ∈ [c.r, c.g, c.b, c.a], Binary.isFinite x = true)
    (room : 0 < levels) : (color c).Fits levels := by
  refine ⟨⟨rfl, finite⟩, ?_⟩
  simpa [json, Color.json, Json.nesting, Json.nestingOfFields, Json.nesting_ofFloat, Json.text]
    using Nat.succ_le_of_lt room

theorem fits_taken {values : List Value} (each : ∀ value ∈ values, value.Fits (levels - 1))
    (room : 0 < levels) : (taken values).Fits levels := by
  have same : values.map reread = values := by
    conv_rhs => rw [← List.map_id values]
    exact List.map_congr_left fun value member => (each value member).reread
  -- Hence rereading the list takes it for the same thing once more.
  have whole : (list values).reread = taken values := by
    rw [← taken_map_reread, same]
  generalize taking : taken values = value at whole ⊢
  unfold taken at taking
  split at taking
  case h_4 =>
    subst taking
    refine ⟨⟨whole, ?_⟩, ?_⟩
    · intro x inside
      obtain ⟨value, member, inside⟩ := mem_numbersAll.mp inside
      exact (each value member).finite x inside
    · have below : Json.nestingAll (values.map json) ≤ levels - 1 :=
        Json.nestingAll_le_iff.mpr <| List.forall_mem_map.mpr fun value member =>
          (each value member).nesting
      rw [json, jsonAll_eq_map, Json.nesting]
      omega
  all_goals
    subst taking
    have finite : ∀ x, (number x).Fits (levels - 1) → Binary.isFinite x = true :=
      fun x kept => kept.finite x (by simp [numbers])
    simp only [List.forall_mem_cons] at each
  case h_1 =>
    exact fits_vector (by simp [finite _ each.1, finite _ each.2.1]) room
  case h_2 =>
    obtain ⟨-, r, g, b, -⟩ := each
    exact fits_color (by simp [finite _ r, finite _ g, finite _ b, Color.isFinite_one]) room
  case h_3 =>
    obtain ⟨-, r, g, b, a, -⟩ := each
    exact fits_color (by simp [finite _ r, finite _ g, finite _ b, finite _ a]) room

theorem ofJson?_array_cases {jsons : List Json} {value : Value}
    (is : ofJson? read (.array jsons) = some value) :
    (∃ c, Color.ofJsonItems? read jsons = some c ∧ value = .color c) ∨
      ∃ values, ofJsonAll? read jsons = some values ∧ value = taken values := by
  cases items : ofJsonAll? read jsons with
  | some values => exact .inr ⟨values, rfl, Option.some.inj (is.symm.trans (ofJson?_array items))⟩
  | none =>
      unfold ofJson? at is
      split at is
      case h_5 same =>
          cases same
          simp [ofJsonAll?, ofJson?] at items
      case h_6 same =>
          cases same
          split at is
          next c colored => exact .inl ⟨c, colored, (Option.some.inj is).symm⟩
          next => rw [items] at is; cases is
      all_goals contradiction

mutual
/-- What is read from sound JSON is stable, and takes no more levels than the JSON did. -/
theorem fits_of_ofJson? {levels : Nat} (json : Json) {value : Value}
    (sound : json.isSound read levels = true) (is : ofJson? read json = some value) :
    value.Fits levels := by
  cases json with
  | null =>
      obtain rfl : null = value := Option.some.inj is
      exact ⟨⟨rfl, by simp [numbers]⟩, Nat.zero_le _⟩
  | bool b => cases is
  | number l =>
      obtain rfl : number (read l) = value := Option.some.inj is
      have finite : Binary.isFinite (read l) = true := sound
      refine ⟨⟨rfl, by simpa [numbers] using finite⟩, ?_⟩
      rw [Value.json, if_pos finite, Json.nesting_ofFloat]
      exact Nat.zero_le _
  | string content =>
      obtain ⟨spelled, -, rfl⟩ := Option.map_eq_some_iff.mp is
      exact ⟨⟨rfl, by simp [numbers]⟩, Nat.zero_le _⟩
  | array items =>
      simp only [Json.isSound, Bool.and_eq_true, decide_eq_true_eq] at sound
      obtain ⟨room, sound⟩ := sound
      rcases ofJson?_array_cases is with ⟨c, colored, rfl⟩ | ⟨values, each, rfl⟩
      · exact fits_color (Color.finite_of_ofJsonItems? (Json.allSound_iff.mp sound) colored) room
      · exact fits_taken (fits_of_ofJsonAll? items sound each) room
  | object fields =>
      simp only [Json.isSound, Bool.and_eq_true, decide_eq_true_eq] at sound
      obtain ⟨room, sound⟩ := sound
      obtain ⟨c, colored, rfl⟩ := Option.map_eq_some_iff.mp is
      have each := fun field member => (Json.fieldsSound_iff.mp sound field member).2
      exact fits_color (Color.finite_of_ofJsonFields? each colored) room
termination_by structural json

theorem fits_of_ofJsonAll? {levels : Nat} (items : List Json) {values : List Value}
    (sound : Json.allSound read levels items = true)
    (is : ofJsonAll? read items = some values) : ∀ value ∈ values, value.Fits levels := by
  cases items with
  | nil =>
      obtain rfl : [] = values := Option.some.inj is
      simp
  | cons item rest =>
      simp only [Json.allSound, Bool.and_eq_true] at sound
      simp only [ofJsonAll?, Option.bind_eq_bind, Option.bind_eq_some_iff] at is
      obtain ⟨first, here, others, behind, same⟩ := is
      cases same
      exact List.forall_mem_cons.mpr
        ⟨fits_of_ofJson? item sound.1 here, fits_of_ofJsonAll? rest sound.2 behind⟩
termination_by structural items
end

theorem fits_of_ofSoundJson? {json : Json} {value : Value}
    (is : ofSoundJson? read levels json = some value) : value.Fits levels := by
  unfold ofSoundJson? at is
  split at is
  next sound => exact fits_of_ofJson? json sound is
  next => cases is

end Value

namespace Attrs

structure Fits (levels : Nat) (attrs : Attrs) : Prop where
  stable : ∀ value ∈ attrs.values, value.Stable
  nesting : ∀ field ∈ Scene.attributesFields attrs, field.2.nesting ≤ levels

theorem fits_empty : Fits levels .empty :=
  ⟨fun _ member => (nomatch member), fun _ member => (nomatch member)⟩

theorem exists_of_mapM_entryOfJson? {fields : List (Option String × Json)}
    {entries : List (String × Value)}
    (is : fields.mapM (entryOfJson? read levels) = some entries) :
    ∀ entry ∈ entries, ∃ json, Value.ofSoundJson? read levels json = some entry.2 := by
  induction fields generalizing entries with
  | nil =>
      obtain rfl : [] = entries := Option.some.inj is
      simp
  | cons field rest ih =>
      simp only [List.mapM_cons, Option.bind_eq_bind, Option.bind_eq_some_iff] at is
      obtain ⟨entry, here, others, behind, same⟩ := is
      cases same
      refine List.forall_mem_cons.mpr ⟨?_, ih behind⟩
      obtain ⟨_ | key, json⟩ := field
      · cases here
      · obtain ⟨value, known, rfl⟩ := Option.map_eq_some_iff.mp here
        exact ⟨json, known⟩

theorem fits_of_ofJson? {json : Json} {attrs : Attrs}
    (is : ofJson? read levels json = some attrs) : attrs.Fits levels := by
  unfold ofJson? at is
  split at is
  next fields =>
    split at is
    next room =>
      obtain ⟨entries, known, rfl⟩ := Option.map_eq_some_iff.mp is
      have each : ∀ value ∈ (OrderedMap.ofList entries).values, value.Fits (levels - 1) := by
        intro value member
        obtain ⟨entry, inside, rfl⟩ := List.mem_map.mp member
        have given := OrderedMap.mem_of_mem_ofList inside
        obtain ⟨json, decoded⟩ := exists_of_mapM_entryOfJson? known entry given
        exact Value.fits_of_ofSoundJson? decoded
      refine ⟨fun value member => (each value member).toStable, ?_⟩
      intro field member
      unfold Scene.attributesFields at member
      split at member
      · cases member
      · obtain rfl := List.mem_singleton.mp member
        have below := nesting_fields_le_iff.mpr fun value member => (each value member).nesting
        rw [Json.nesting]
        omega
    next => cases is
  next => cases is

end Attrs

namespace Shape

structure Fits (levels : Nat) (s : Shape) : Prop where
  agreeing : ∀ part ∈ s.preorder, part.Agrees
  stable : ∀ value ∈ s.attributeValues, value.Stable
  nesting : (Scene.ofShape s).json.nesting ≤ levels

end Shape

namespace Scene

theorem ofShapes_eq_map (shapes : List Shape) : ofShapes shapes = shapes.map ofShape := by
  induction shapes with
  | nil => rfl
  | cons s rest ih => rw [ofShapes, ih, List.map_cons]

/-- A scene takes a level, and its children another one for the array that they are in. -/
theorem nesting_json_le {kind : String} {attributes : Attrs} {children : List Scene}
    {text : Option String} (room : 0 < levels)
    (below : ∀ field ∈ attributesFields attributes, field.2.nesting ≤ levels - 1)
    (within : children = [] ∨
      1 < levels ∧ ∀ child ∈ children, child.json.nesting ≤ levels - 2) :
    (json ⟨kind, attributes, children, text⟩).nesting ≤ levels := by
  have kids : ∀ field ∈ childrenFields children, field.2.nesting ≤ levels - 1 := by
    rcases within with rfl | ⟨deep, each⟩
    · simp [childrenFields]
    · intro field member
      unfold childrenFields at member
      split at member
      · cases member
      · obtain rfl := List.mem_singleton.mp member
        have inner : Json.nestingAll (jsonAll children) ≤ levels - 2 := by
          rw [jsonAll_eq_map, Json.nestingAll_le_iff, List.forall_mem_map]
          exact each
        rw [Json.nesting]
        omega
  have words : ∀ field ∈ textFields text, field.2.nesting ≤ levels - 1 := by
    cases text with
    | none => simp [textFields]
    | some content => simp [textFields, Json.text, Json.nesting]
  have fields : Json.nestingOfFields ((some "kind", .text kind) ::
      (attributesFields attributes ++ (childrenFields children ++ textFields text))) ≤
        levels - 1 := by
    rw [Json.nestingOfFields_le_iff, List.forall_mem_cons, List.forall_mem_append,
      List.forall_mem_append]
    exact ⟨Nat.zero_le _, below, kids, words⟩
  rw [json_eq, Json.nesting]
  omega

end Scene

namespace Shape

theorem fits_of_parts {s : Shape} (room : 0 < levels) (agrees : s.Agrees)
    (attributes : s.attrs.Fits (levels - 1))
    (children : s.children = [] ∨ 1 < levels ∧ ∀ child ∈ s.children, child.Fits (levels - 2)) :
    s.Fits levels := by
  have each : ∀ child ∈ s.children, child.Fits (levels - 2) := by
    rcases children with none | ⟨-, each⟩
    · simp [none]
    · exact each
  refine ⟨?_, ?_, ?_⟩
  · rw [preorder_eq, List.forall_mem_cons]
    refine ⟨agrees, fun part member => ?_⟩
    obtain ⟨child, known, inside⟩ := mem_preorderAll.mp member
    exact (each child known).agreeing part inside
  · rw [attributeValues_eq, List.forall_mem_append]
    refine ⟨attributes.stable, fun value member => ?_⟩
    obtain ⟨child, known, inside⟩ := List.mem_flatMap.mp member
    exact (each child known).stable value inside
  · rw [Scene.ofShape_eq, Scene.ofShapes_eq_map]
    apply Scene.nesting_json_le room attributes.nesting
    rw [List.map_eq_nil_iff, List.forall_mem_map]
    exact children.imp_right fun inner => ⟨inner.1, fun child known => (each child known).nesting⟩

end Shape

namespace Scene

theorem parts_of_shape {scene : Scene} {s : Shape} (shaped : scene.shape = .ok s) :
    s.attrs = scene.attributes ∧ s.Agrees ∧
      (s.children = [] ∨ shapes scene.children = .ok s.children) := by
  obtain ⟨name, attributes, children, text⟩ := scene
  rw [shape] at shaped
  split at shaped
  next => cases shaped
  next kind _ =>
    split at shaped
    next composite =>
      cases below : shapes children with
      | error error => simp [below, bind, Except.bind] at shaped
      | ok kids =>
          obtain rfl : Shape.composite kind kids attributes = s := by
            simpa [below, bind, Except.bind, pure, Except.pure] using shaped
          exact ⟨rfl, composite, .inr rfl⟩
    next simple =>
      split at shaped
      next text =>
        cases shaped
        exact ⟨rfl, rfl, .inl rfl⟩
      next other =>
        cases shaped
        have plain : kind.isComposite = false := by simpa using simple
        simp [Shape.new, Shape.Agrees, Shape.children, plain, other]

theorem shapes_cons_eq_ok {scene : Scene} {rest : List Scene} {formed : List Shape}
    (shaped : shapes (scene :: rest) = .ok formed) :
    ∃ s others, scene.shape = .ok s ∧ shapes rest = .ok others ∧ formed = s :: others := by
  rw [shapes] at shaped
  cases one : scene.shape with
  | error error => simp [one, bind, Except.bind] at shaped
  | ok s =>
      cases more : shapes rest with
      | error error => simp [one, more, bind, Except.bind] at shaped
      | ok others =>
          refine ⟨s, others, rfl, rfl, ?_⟩
          simpa [one, more, bind, Except.bind, pure, Except.pure, eq_comm] using shaped

/-- A scene whose shape, if it has one, fits into so many levels. -/
def Fits (levels : Nat) (scene : Scene) : Prop := ∀ s, scene.shape = .ok s → s.Fits levels

def AllFit (levels : Nat) (scenes : List Scene) : Prop :=
  ∀ formed, shapes scenes = .ok formed → ∀ s ∈ formed, s.Fits levels

theorem fits_of_parts {kind : String} {attributes : Attrs} {children : List Scene}
    {text : Option String} (room : 0 < levels) (known : attributes.Fits (levels - 1))
    (within : children = [] ∨ 1 < levels ∧ AllFit (levels - 2) children) :
    Fits levels ⟨kind, attributes, children, text⟩ := by
  intro s shaped
  obtain ⟨same, agrees, formed⟩ := parts_of_shape shaped
  have same : s.attrs = attributes := same
  apply Shape.fits_of_parts room agrees (same ▸ known)
  rcases formed with none | formed
  · exact .inl none
  · rcases within with rfl | ⟨deep, each⟩
    · left
      rw [shapes] at formed
      exact (Except.ok.inj formed).symm
    · exact .inr ⟨deep, each s.children formed⟩

structure Draft.Fits (levels : Nat) (draft : Draft) : Prop where
  attributes : ∀ attributes, draft.attributes = some attributes → attributes.Fits levels
  children : ∀ children, draft.children = some children →
    0 < levels ∧ AllFit (levels - 1) children

theorem fits_of_ofDraft? {draft : Draft} {scene : Scene} (room : 0 < levels)
    (drafted : draft.Fits (levels - 1)) (is : ofDraft? draft = some scene) :
    scene.Fits levels := by
  simp only [ofDraft?, Option.bind_eq_bind, Option.bind_eq_some_iff] at is
  obtain ⟨kind, -, same⟩ := is
  cases same
  apply fits_of_parts room
  · cases given : draft.attributes with
    | none => exact Attrs.fits_empty
    | some attributes => exact drafted.attributes attributes given
  · cases given : draft.children with
    | none => exact .inl rfl
    | some children =>
        obtain ⟨deep, each⟩ := drafted.children children given
        exact .inr ⟨by omega, each⟩

/-- A part that is met is added to the draft of the fields behind it, which has none of its sort. -/
theorem exists_of_extended {α : Type} {behind : Option Draft} {taken : Draft → Bool}
    {part : Option α} {add : Draft → α → Draft} {draft : Draft}
    (is : (behind.bind fun d => if taken d then none else part.bind fun x => some (add d x)) =
      some draft) :
    ∃ d x, behind = some d ∧ taken d = false ∧ part = some x ∧ add d x = draft := by
  obtain ⟨d, known, is⟩ := Option.bind_eq_some_iff.mp is
  split at is
  next => cases is
  next fresh =>
    obtain ⟨x, here, same⟩ := Option.bind_eq_some_iff.mp is
    exact ⟨d, x, known, Bool.eq_false_of_not_eq_true fresh, here, Option.some.inj same⟩

/-! The ways to spell a scene. An array of parts leads as deep as an object does. -/

mutual
theorem fits_of_ofJson? {levels : Nat} (json : Json) {scene : Scene}
    (is : ofJson? read levels json = some scene) : scene.Fits levels := by
  unfold ofJson? at is
  split at is
  next fields =>
    split at is
    next room =>
      obtain ⟨draft, known, drafted⟩ := Option.bind_eq_some_iff.mp is
      exact fits_of_ofDraft? room (fits_of_draftOfFields? fields known) drafted
    next => cases is
  next kind =>
    split at is
    next room =>
      simp only [Option.bind_eq_bind, Option.bind_eq_some_iff] at is
      obtain ⟨name, -, same⟩ := is
      cases same
      exact fits_of_parts room Attrs.fits_empty (.inl rfl)
    next => cases is
  next kind attributes =>
    split at is
    next room =>
      simp only [Option.bind_eq_bind, Option.bind_eq_some_iff] at is
      obtain ⟨name, -, attrs, known, same⟩ := is
      cases same
      exact fits_of_parts room (Attrs.fits_of_ofJson? known) (.inl rfl)
    next => cases is
  next kind attributes children =>
    split at is
    next deep =>
      simp only [Option.bind_eq_bind, Option.bind_eq_some_iff] at is
      obtain ⟨name, -, attrs, known, scenes, each, same⟩ := is
      cases same
      exact fits_of_parts (Nat.zero_lt_of_lt deep) (Attrs.fits_of_ofJson? known)
        (.inr ⟨deep, allFit_of_ofJsonAll? children each⟩)
    next => cases is
  next kind attributes children text =>
    split at is
    next deep =>
      simp only [Option.bind_eq_bind, Option.bind_eq_some_iff] at is
      obtain ⟨name, -, attrs, known, scenes, each, content, -, same⟩ := is
      cases same
      exact fits_of_parts (Nat.zero_lt_of_lt deep) (Attrs.fits_of_ofJson? known)
        (.inr ⟨deep, allFit_of_ofJsonAll? children each⟩)
    next => cases is
  next => cases is
termination_by sizeOf json

theorem allFit_of_ofJsonAll? {levels : Nat} (items : List Json) {scenes : List Scene}
    (is : ofJsonAll? read levels items = some scenes) : AllFit levels scenes := by
  cases items with
  | nil =>
      obtain rfl : [] = scenes := Option.some.inj is
      intro formed none
      rw [shapes] at none
      cases none
      simp
  | cons item rest =>
      simp only [ofJsonAll?, Option.bind_eq_bind, Option.bind_eq_some_iff] at is
      obtain ⟨first, here, others, behind, same⟩ := is
      cases same
      intro formed shaped
      have head := fits_of_ofJson? item here
      have tail := allFit_of_ofJsonAll? rest behind
      obtain ⟨s, others, one, more, rfl⟩ := shapes_cons_eq_ok shaped
      exact List.forall_mem_cons.mpr ⟨head s one, tail others more⟩
termination_by sizeOf items

theorem fits_of_draftOfFields? {levels : Nat} (fields : List (Option String × Json))
    {draft : Draft} (is : draftOfFields? read levels fields = some draft) :
    draft.Fits levels := by
  unfold draftOfFields? at is
  split at is
  next =>
    cases is
    exact ⟨fun _ given => (nomatch given), fun _ given => (nomatch given)⟩
  next => cases is
  next items rest =>
    obtain ⟨behind, scenes, known, fresh, each, rfl⟩ := exists_of_extended is
    have before := fits_of_draftOfFields? rest known
    refine ⟨before.attributes, fun children given => ?_⟩
    cases given
    -- The children stand two levels below the scene: in its object, and in an array there.
    simp only [Bool.or_eq_false_iff, decide_eq_false_iff_not] at fresh
    exact ⟨Nat.pos_of_ne_zero fresh.2, allFit_of_ofJsonAll? items each⟩
  next json rest =>
    obtain ⟨behind, kind, known, -, -, rfl⟩ := exists_of_extended is
    have before := fits_of_draftOfFields? rest known
    exact ⟨before.attributes, before.children⟩
  next json rest =>
    obtain ⟨behind, attrs, known, -, here, rfl⟩ := exists_of_extended is
    have before := fits_of_draftOfFields? rest known
    refine ⟨fun attributes given => ?_, before.children⟩
    cases given
    exact Attrs.fits_of_ofJson? here
  next json rest =>
    obtain ⟨behind, text, known, -, -, rfl⟩ := exists_of_extended is
    have before := fits_of_draftOfFields? rest known
    exact ⟨before.attributes, before.children⟩
  next key json rest _ _ _ _ =>
    split at is
    next => cases is
    next => exact fits_of_draftOfFields? rest is
termination_by sizeOf fields
end

end Scene

namespace Shape

theorem fits_of_ofJsonText {text : String} {s : Shape} (is : ofJsonText read text = .ok s) :
    s.Fits Json.nestingLimit := by
  unfold ofJsonText at is
  split at is
  next scene known =>
    obtain ⟨json, -, decoded⟩ := Option.bind_eq_some_iff.mp known
    exact Scene.fits_of_ofJson? json decoded s is
  next => cases is

theorem mapValues_id :
    (∀ s : Shape, s.mapValues id = s) ∧ ∀ shapes : List Shape, mapValuesAll id shapes = shapes := by
  have fixed (attrs : Attrs) : attrs.mapValues id = attrs :=
    OrderedMap.mapValues_of_fixed fun _ _ => rfl
  apply induction_both
  case shape =>
    intro s below
    obtain ⟨kind, attrs, _ | shapes | content⟩ := s
    case children =>
        have below : mapValuesAll id shapes = shapes := below
        rw [mapValues, fixed, below]
    all_goals rw [mapValues, fixed]
  case nil => rw [mapValuesAll]
  case cons =>
    intro s rest first others
    rw [mapValuesAll, first, others]

theorem Fits.reads_back {s : Shape} (fits : s.Fits Json.nestingLimit)
    (keeps : ∀ x ∈ s.attributeNumbers, Json.Keeps read x) :
    ofJsonText read s.sceneText = .ok s := by
  have reads : ∀ value ∈ s.attributeValues, value.ReadsAs read (id value) := by
    intro value member
    have decoded := Value.readsAs_reread fun x inside =>
      keeps x (List.mem_flatMap.mpr ⟨value, member, inside⟩)
    rwa [(fits.stable value member).reread] at decoded
  rw [ofJsonText_of_reads fits.agreeing reads fits.nesting, mapValues_id.1]

/-- A shape that was read from a file, in whatever form, is written to a file that gives it
back: with every number read as the nearest double, and with any other reading that keeps
the numbers of the shape. -/
theorem ofJsonText_rewritten {text : String} {s : Shape}
    (decoded : ofJsonText read text = .ok s) :
    ofJsonText Literal.toFloat s.sceneText = .ok s ∧
      ∀ other, (∀ x ∈ s.attributeNumbers, other (Layout.scene.literal x) = x) →
        ofJsonText other s.sceneText = .ok s := by
  have fits := fits_of_ofJsonText decoded
  have finite : ∀ x ∈ s.attributeNumbers, Binary.isFinite x = true := by
    intro x member
    obtain ⟨value, known, inside⟩ := List.mem_flatMap.mp member
    exact (fits.stable value known).finite x inside
  constructor
  · exact fits.reads_back fun x member => Json.keeps_nearest (finite x member)
  · intro other same
    exact fits.reads_back fun x member => ⟨finite x member, same x member⟩

theorem ofJsonText_rewritten_lenient :
    let one : Json := .number (Layout.scene.literal 1)
    let json := Json.array
      [.text "g",
        .object [(some "at", .array [one, one]),
          (some "ink", .array [.object [(some "rgb", .null)], one, one, one]), (some "at", .null)],
        .array [.object [(some "text", .text "a"), (some "more", .bool true),
          (some "kind", .text "circle"),
          (some "children", .array [.object [(some "kind", .text "cube")]])]],
        .text "b"]
    let s := Shape.group [⟨.circle, .empty, .empty⟩]
      (.ofList [("at", .null), ("ink", .color ⟨1, 1, 1, 1⟩)])
    ofJsonText Literal.toFloat json.written = .ok s ∧
      ofJsonText Literal.toFloat s.sceneText = .ok s := by
  intro one json s
  have same : Literal.toFloat (Layout.scene.literal 1) = 1 :=
    (Json.keeps_nearest Color.isFinite_one).same
  have canonical : ∀ l ∈ json.literals, l.Canonical := by
    have literals : json.literals = List.replicate 5 (Layout.scene.literal 1) := rfl
    rw [literals]
    intro l member
    rw [List.eq_of_mem_replicate member]
    exact Layout.canonical_literal Layout.exact_scene Color.isFinite_one
  have attributes : Attrs.ofJson? Literal.toFloat 126 (.object [(some "at", .array [one, one]),
      (some "ink", .array [.object [(some "rgb", .null)], one, one, one]),
      (some "at", .null)]) = some s.attrs := by
    simp [Attrs.ofJson?, Attrs.entryOfJson?, Value.ofSoundJson?, Value.ofJson?,
      Color.ofJsonItems?, Color.isRgbSpace, Json.isSound, Json.allSound, Json.fieldsSound,
      Json.float?, one, same, Color.isFinite_one]
    rfl
  have scene : Scene.ofJson? Literal.toFloat Json.nestingLimit json =
      some ⟨"g", s.attrs, [⟨"circle", .empty, [⟨"cube", .empty, [], none⟩], some "a"⟩],
        some "b"⟩ := by
    simp [json, Scene.ofJson?, Scene.ofJsonAll?, Scene.draftOfFields?, Scene.ofDraft?,
      Scene.kindOfJson?, Scene.textOfJson?, Json.text, Json.nestingLimit, attributes]
  have decoded : ofJsonText Literal.toFloat json.written = .ok s := by
    rw [ofJsonText, Scene.ofJsonText?, Json.read?_written canonical, Option.bind_some, scene]
    rfl
  exact ⟨decoded, (ofJsonText_rewritten decoded).1⟩

end Shape
end Tracery
