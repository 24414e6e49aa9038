import Tracery.Proofs.NormalForm.Presence

/-! How moves, turns and scalings are folded into one text. They are folded by what is held under
their keys, wherever these stand, and the rest of a shape is normalized as if they were not
there. -/

namespace Tracery

namespace Kind

/-- The attributes that outlining a kind may look at or touch. -/
def geometryKeys : Kind → List String
  | .roundedPolygon => ["d", "x", "y", "width", "sides", "r"]
  | kind => kind.outlineKeys

end Kind

namespace OrderedMap

variable {keep : String → Bool} (attrs : Attrs)

theorem numberOr_restrict {key : String} (kept : keep key = true) (default : Float) :
    (attrs.restrict keep).numberOr key default = attrs.numberOr key default := by
  rw [numberOr, get?_restrict, if_pos kept, numberOr]

theorem rename_restrict {key newKey : String} (old : keep key = true) (new : keep newKey = true) :
    (attrs.restrict keep).rename key newKey = (attrs.rename key newKey).restrict keep := by
  unfold rename
  rw [get?_restrict, if_pos old]
  cases attrs.get? key with
  | none => rfl
  | some value =>
      simp only
      rw [restrict_insert_of_kept new, erase, restrict_comm]
      rfl

theorem placeEdge_restrict {edge length : String} (placed : keep edge = true)
    (measured : keep length = true) (center : Option Value) :
    (attrs.restrict keep).placeEdge edge length center =
      (attrs.placeEdge edge length center).restrict keep := by
  unfold placeEdge
  cases center with
  | none => rfl
  | some center =>
      simp only [get?_restrict, if_pos placed, numberOr_restrict attrs measured]
      split
      · rfl
      · rw [restrict_insert_of_kept placed]

theorem cornered_restrict (kept : ∀ key ∈ Kind.outlineKeys .rect, keep key = true) :
    (attrs.restrict keep).cornered = attrs.cornered.restrict keep := by
  simp only [Kind.outlineKeys, List.forall_mem_cons] at kept
  obtain ⟨w, h, cx, cy, width, height, x, y, -⟩ := kept
  unfold cornered
  simp only
  rw [rename_restrict _ w width, rename_restrict _ h height, get?_restrict, get?_restrict,
    if_pos cx, if_pos cy, eraseAll, restrict_comm, placeEdge_restrict _ x width,
    placeEdge_restrict _ y height]
  rfl

theorem withEnds_restrict (kept : ∀ key ∈ Kind.outlineKeys .line, keep key = true) :
    (attrs.restrict keep).withEnds = attrs.withEnds.restrict keep := by
  simp only [Kind.outlineKeys, List.forall_mem_cons] at kept
  obtain ⟨start, last, x1, y1, x2, y2, -⟩ := kept
  have bare : (attrs.restrict keep).eraseAll ["start", "end"] =
      (attrs.eraseAll ["start", "end"]).restrict keep := restrict_comm ..
  rw [withEnds, withEnds, get?_restrict, get?_restrict, if_pos start, if_pos last, bare]
  cases (attrs.get? "start").bind Value.vector? with
  | none => rfl
  | some first =>
      cases (attrs.get? "end").bind Value.vector? with
      | none => rfl
      | some second =>
          simp only [restrict_insertAll]
          simp [x1, y1, x2, y2]

theorem withPointText_restrict (kept : keep "points" = true) :
    (attrs.restrict keep).withPointText = attrs.withPointText.restrict keep := by
  unfold withPointText
  rw [get?_restrict, if_pos kept]
  split
  · rw [restrict_insert_of_kept kept]
  · rfl

theorem withPathData_restrict (kept : ∀ key ∈ Kind.geometryKeys .roundedPolygon, keep key = true) :
    (attrs.restrict keep).withPathData = attrs.withPathData.restrict keep := by
  simp only [Kind.geometryKeys, List.forall_mem_cons] at kept
  obtain ⟨d, x, y, width, sides, r, -⟩ := kept
  have data : (attrs.restrict keep).roundedPolygonData = attrs.roundedPolygonData := by
    simp only [roundedPolygonData, numberOr_restrict attrs x, numberOr_restrict attrs y,
      numberOr_restrict attrs width, numberOr_restrict attrs sides, numberOr_restrict attrs r]
  have front (content : String) : (ofList [("d", Value.text content)]).restrict keep =
      ofList [("d", .text content)] := by
    rw [ofList, restrict_insertAll]
    simp [d, empty, restrict]
  rw [withPathData, data, withPathData, restrict_merge, front]

theorem transformSteps_congr {a b : Attrs} (same : ∀ key ∈ transformKeys, a.get? key = b.get? key) :
    a.transformSteps = b.transformSteps := by
  simp only [transformKeys, List.forall_mem_cons] at same
  obtain ⟨translate, rotate, scale, moveX, moveY, -⟩ := same
  simp only [transformSteps, translation?, present?, translate, rotate, scale, moveX, moveY]

theorem get?_withTransform_congr {a b : Attrs} (same : ∀ key, a.get? key = b.get? key)
    (key : String) : a.withTransform.get? key = b.withTransform.get? key := by
  unfold withTransform
  rw [transformSteps_congr fun key _ => same key]
  split <;> simp [same]

end OrderedMap

namespace Shape

theorem outlined_restrict {keep : String → Bool} (s : Shape)
    (kept : ∀ key ∈ s.kind.geometryKeys, keep key = true) :
    (s.withAttrs (s.attrs.restrict keep)).outlined =
      s.outlined.withAttrs (s.outlined.attrs.restrict keep) := by
  obtain ⟨kind, attrs, body⟩ := s
  cases kind with
  | rect => simp only [outlined, withAttrs, attrs.cornered_restrict kept]
  | line => simp only [outlined, withAttrs, attrs.withEnds_restrict kept]
  | polygon | polyline =>
      simp only [outlined, withAttrs, attrs.withPointText_restrict (kept _ List.mem_cons_self)]
  | roundedPolygon =>
      simp only [outlined, withAttrs, withKind, attrs.withPathData_restrict kept]
  | _ => rfl

theorem outlined_without (s : Shape) :
    (s.without transformKeys).outlined =
      s.outlined.withAttrs (s.outlined.attrs.eraseAll transformKeys) := by
  apply outlined_restrict
  cases s.kind <;> decide

theorem transformSteps_outlined (s : Shape) :
    s.outlined.attrs.transformSteps = s.attrs.transformSteps := by
  have same : ∀ key ∈ transformKeys, s.outlined.attrs.get? key = s.attrs.get? key := by
    intro key moved
    apply attr?_outlined
    revert key
    cases s.kind <;> decide
  exact OrderedMap.transformSteps_congr same

theorem normalForm_without (s : Shape) (roundAlpha : Bool) :
    (s.without transformKeys).normalForm roundAlpha =
      s.outlined.withAttrs
        ((s.outlined.attrs.eraseAll transformKeys).mapValues (Value.painted roundAlpha)) := by
  have bare : (s.outlined.attrs.eraseAll transformKeys).withTransform =
      s.outlined.attrs.eraseAll transformKeys := by
    apply OrderedMap.withTransform_of_absent
    intro key moved
    rw [OrderedMap.get?_eraseAll, if_pos moved]
  rw [normalForm, outlined_without, attrs_withAttrs, bare]
  rfl

theorem normalForm_of_stepless {s : Shape} (stepless : s.attrs.transformSteps = [])
    (roundAlpha : Bool) :
    s.normalForm roundAlpha = (s.without transformKeys).normalForm roundAlpha := by
  rw [normalForm_without, normalForm, OrderedMap.withTransform, transformSteps_outlined, stepless]

theorem normalForm_of_steps {s : Shape} (steps : s.attrs.transformSteps ≠ [])
    (roundAlpha : Bool) :
    s.normalForm roundAlpha = ((s.without transformKeys).normalForm roundAlpha).set "transform"
      (.text (" ".intercalate s.attrs.transformSteps)) := by
  rw [normalForm_without, normalForm, OrderedMap.withTransform, transformSteps_outlined]
  cases listed : s.attrs.transformSteps with
  | nil => exact absurd listed steps
  | cons step rest =>
      simp only [OrderedMap.mapValues_insert]
      rfl

theorem normalForm_congr {s t : Shape} (same : t.without transformKeys = s.without transformKeys)
    (held : ∀ key ∈ transformKeys, t.attr? key = s.attr? key) (roundAlpha : Bool) :
    t.normalForm roundAlpha = s.normalForm roundAlpha := by
  have steps : t.attrs.transformSteps = s.attrs.transformSteps :=
    OrderedMap.transformSteps_congr held
  by_cases stepless : s.attrs.transformSteps = []
  · rw [normalForm_of_stepless stepless, normalForm_of_stepless (steps.trans stepless), same]
  · rw [normalForm_of_steps stepless, normalForm_of_steps (steps ▸ stepless), same, steps]

theorem attr?_transform_without (s : Shape) (roundAlpha : Bool) :
    ((s.without transformKeys).normalForm roundAlpha).attr? "transform" =
      (s.attr? "transform").map (Value.painted roundAlpha) := by
  have untouched : s.outlined.attr? "transform" = s.attr? "transform" :=
    attr?_outlined (by cases s.kind <;> decide)
  rw [normalForm_without, attr?, attrs_withAttrs, OrderedMap.get?_mapValues,
    OrderedMap.get?_eraseAll, if_neg (by decide), ← attr?, untouched]

/-- The value that a shape is moved by: its axes if one of them is there, a missing one being
zero, and otherwise what it holds as a whole. -/
inductive MovesBy (s : Shape) : Option Value → Prop
  | axes (given : s.hasAttr "translateX" = true ∨ s.hasAttr "translateY" = true) :
      MovesBy s (some (.list [(s.attrs.present? "translateX").getD (.number 0),
        (s.attrs.present? "translateY").getD (.number 0)]))
  | whole (noX : s.hasAttr "translateX" = false) (noY : s.hasAttr "translateY" = false) :
      MovesBy s (s.attr? "translate")

end Shape

/-- The steps that a part of a transform adds: one with the text of its value, if it has one that
is made of something and of no null, and none otherwise. -/
inductive Contributes (name : String) : Option Value → List String → Prop
  | absent : Contributes name none []
  | incomplete {value : Value} (lacking : value.components = [] ∨ .null ∈ value.components) :
      Contributes name (some value) []
  | complete {value : Value} (filled : value.components ≠ [])
      (whole : .null ∉ value.components) :
      Contributes name (some value) [name ++ "(" ++ value.display ++ ")"]

theorem Value.display_components (value : Value) :
    ",".intercalate (value.components.map display) = value.display := by
  cases value with
  | list items => rw [display, displayAll_eq_map, components]
  | vector v => rfl
  | _ => exact String.intercalate_singleton

theorem Value.any_isNull_components (value : Value) :
    value.components.any isNull = true ↔ .null ∈ value.components := by
  rw [List.any_eq_true]
  constructor
  · rintro ⟨part, member, isNull⟩
    cases part with
    | null => exact member
    | _ => cases isNull
  · intro member
    exact ⟨.null, member, rfl⟩

theorem contributes_transformStep? (name : String) (value : Option Value) :
    Contributes name value (value.bind (transformStep? name)).toList := by
  cases value with
  | none => exact .absent
  | some value =>
      rw [Option.bind_some, transformStep?, value.display_components]
      split
      next lacking =>
        rw [Bool.or_eq_true, List.isEmpty_iff, value.any_isNull_components] at lacking
        exact .incomplete lacking
      next complete =>
        rw [Bool.or_eq_true, List.isEmpty_iff, value.any_isNull_components, not_or] at complete
        exact .complete complete.1 complete.2

theorem Shape.transformSteps_eq_append (s : Shape) :
    s.attrs.transformSteps = (s.attrs.translation?.bind (transformStep? "translate")).toList ++
      ((s.attr? "rotate").bind (transformStep? "rotate")).toList ++
        ((s.attr? "scale").bind (transformStep? "scale")).toList := by
  rw [OrderedMap.transformSteps, List.filterMap_eq_flatMap_toList]
  simp only [List.flatMap_cons, List.flatMap_nil, List.append_nil, List.append_assoc]
  rfl

theorem Shape.movesBy_translation? (s : Shape) : s.MovesBy s.attrs.translation? := by
  unfold OrderedMap.translation?
  split
  next noX noY => exact .whole (by rw [hasAttr_eq, noX]; rfl) (by rw [hasAttr_eq, noY]; rfl)
  next given =>
    apply MovesBy.axes
    rw [hasAttr_eq, hasAttr_eq]
    cases noX : s.attrs.present? "translateX" with
    | some x => exact .inl rfl
    | none =>
        cases noY : s.attrs.present? "translateY" with
        | some y => exact .inr rfl
        | none => exact absurd noY (given noX)

/-- None of the moves, turns and scalings is left, and nothing depends on where they stand. If they
add steps, one text of all steps is put under `transform`, and otherwise the shape is normalized
as it is without them. -/
theorem normalize_transform {options : Options} (permissive : options.strict = false) (s : Shape) :
    ∃ normal bare move translate rotate scale,
      normalize options s = .ok normal ∧
      normalize options (s.without transformKeys) = .ok bare ∧
      (∀ key ∈ transformKeys, normal.attr? key = none) ∧
      s.MovesBy move ∧ Contributes "translate" move translate ∧
      Contributes "rotate" (s.attr? "rotate") rotate ∧
      Contributes "scale" (s.attr? "scale") scale ∧
      bare.attr? "transform" = (s.attr? "transform").map (Value.painted options.roundAlpha) ∧
      (translate ++ rotate ++ scale = [] → normal = bare) ∧
      (translate ++ rotate ++ scale ≠ [] → normal = bare.set "transform"
        (.text (" ".intercalate (translate ++ rotate ++ scale)))) ∧
      ∀ t : Shape, t.without transformKeys = s.without transformKeys →
        (∀ key ∈ transformKeys, t.attr? key = s.attr? key) →
        normalize options t = .ok normal := by
  refine ⟨_, _, _, _, _, _, normalize_permissive permissive s, normalize_permissive permissive _,
    (s.isNormal_normalForm _).transformed, s.movesBy_translation?, contributes_transformStep? ..,
    contributes_transformStep? .., contributes_transformStep? .., s.attr?_transform_without _, ?_⟩
  rw [← s.transformSteps_eq_append]
  refine ⟨fun stepless => Shape.normalForm_of_stepless stepless _,
    fun steps => Shape.normalForm_of_steps steps _, ?_⟩
  intro t same held
  rw [normalize_permissive permissive, Shape.normalForm_congr same held]

theorem normalize_transform_partial :
    let s : Shape := ⟨.circle, .ofList [("transform", .text "none"), ("scale", .text "2"),
      ("translateX", .text "5"), ("r", .text "1"), ("rotate", .list [.text "45", .null]),
      ("translate", .text "9")], .empty⟩
    let move : Value := .list [.text "5", .number 0]
    let normal : Shape := ⟨.circle, .ofList
      [("transform", .text ("translate(" ++ move.display ++ ") scale(2)")), ("r", .text "1")],
      .empty⟩
    ({} : Options).strict = false ∧ normalize {} s = .ok normal ∧ s.MovesBy (some move) ∧
      Contributes "rotate" (s.attr? "rotate") [] ∧
      ∀ t : Shape, t.without transformKeys = s.without transformKeys →
        (∀ key ∈ transformKeys, t.attr? key = s.attr? key) → normalize {} t = .ok normal := by
  intro s move normal
  have permissive : ({} : Options).strict = false := rfl
  have normalized : normalize {} s = .ok normal := by rfl
  obtain ⟨found, _, _, _, _, _, again, -, -, -, -, -, -, -, -, -, placed⟩ :=
    normalize_transform permissive s
  obtain rfl : normal = found := Except.ok.inj (normalized.symm.trans again)
  refine ⟨permissive, normalized, .axes (.inl rfl), .incomplete (.inr ?_), placed⟩
  exact List.mem_cons_of_mem _ List.mem_cons_self

/-- A color that stands under `transform` is painted, though no step replaces it. -/
theorem normalize_paints_transform :
    let tint : Value := .color ⟨0, 0, 0, 1⟩
    let s : Shape := ⟨.circle, .ofList [("r", .text "1"), ("transform", tint)], .empty⟩
    ({} : Options).strict = false ∧ s.MovesBy none ∧ Contributes "translate" none [] ∧
      Contributes "rotate" (s.attr? "rotate") [] ∧ Contributes "scale" (s.attr? "scale") [] ∧
      s.attr? "transform" = some tint ∧
      ∃ normal, normalize {} s = .ok normal ∧ normal.attr? "transform" ≠ some tint := by
  intro tint s
  have unmoved : s.MovesBy (s.attr? "translate") := .whole rfl rfl
  refine ⟨rfl, unmoved, .absent, .absent, .absent, rfl, _, rfl, ?_⟩
  intro kept
  exact Value.painted_ne_color tint _ (Option.some.inj kept)

end Tracery
