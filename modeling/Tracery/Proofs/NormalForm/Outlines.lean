import Tracery.Proofs.Decimal.Rounding
import Tracery.Proofs.NormalForm.Frame
import Tracery.Proofs.NormalForm.Presence
import Tracery.Proofs.Path.Corners
import Tracery.Proofs.Path.Reading

/-! The texts that outlines become. The points of a polygon can be read off its text again, and a
rounded polygon has the path data that it describes, unless it comes with data of its own. -/

namespace Tracery

open Binary (isFinite value)

namespace Value

/-- A value that gives a point by its coordinates. -/
inductive IsPoint : Value → Vec → Prop
  | vector (v : Vec) : IsPoint (.vector v) v
  | pair (x y : Float) : IsPoint (.list [.number x, .number y]) ⟨x, y⟩

theorem IsPoint.display_eq {item : Value} {v : Vec} (point : item.IsPoint v) :
    item.display = v.text := by
  cases point with
  | vector => rfl
  | pair x y => simp [display, Vec.text]

theorem map_display_of_points {items : List Value} {points : List Vec}
    (given : List.Forall₂ IsPoint items points) : items.map display = points.map Vec.text := by
  induction given with
  | nil => rfl
  | cons point _ ih => rw [List.map_cons, List.map_cons, point.display_eq, ih]

end Value

theorem Shape.attr?_points_outlined {s : Shape} (outline : s.kind = .polygon ∨ s.kind = .polyline)
    {items : List Value} (listed : s.attr? "points" = some (.list items)) :
    s.outlined.attr? "points" = some (.text (" ".intercalate (items.map Value.display))) := by
  obtain ⟨kind, attrs, body⟩ := s
  replace listed : attrs.get? "points" = some (.list items) := listed
  rcases outline with rfl | rfl <;>
    simp [attr?, outlined, OrderedMap.withPointText, listed]

/-- The points of a polygon are read from its text again, as many and in their order, with zeros
for negative zeros. The text is empty only if there are none. -/
theorem normalize_points {options : Options} (permissive : options.strict = false) {s : Shape}
    (outline : s.kind = .polygon ∨ s.kind = .polyline) {items : List Value} {points : List Vec}
    (listed : s.attr? "points" = some (.list items))
    (given : List.Forall₂ Value.IsPoint items points) :
    ∃ normal text, normalize options s = .ok normal ∧
      normal.attr? "points" = some (.text text) ∧
      Vec.ofTexts? text = some (points.map Vec.unsigned) ∧ (text = "" ↔ items = []) := by
  have texts : items.map Value.display = points.map Vec.text := Value.map_display_of_points given
  refine ⟨_, " ".intercalate (items.map Value.display), normalize_permissive permissive s,
    ?_, ?_, ?_⟩
  · rw [Shape.attr?_normalForm (by decide), if_neg (by decide),
      Shape.attr?_points_outlined outline listed]
    rfl
  · rw [texts, Vec.ofTexts?_intercalate]
  · rw [texts, Text.intercalate_eq_empty_iff fun _ => Vec.isWord_of_mem_texts, ← texts,
      List.map_eq_nil_iff]

theorem normalize_points_odd :
    let items : List Value := [.vector ⟨-1.5, -0⟩, .list [.number (0 / 0), .number 1e21]]
    let s : Shape := ⟨.polyline, .ofList [("points", .list items), ("rotate", .text "45")], .empty⟩
    ({} : Options).strict = false ∧ (s.kind = .polygon ∨ s.kind = .polyline) ∧
      s.attr? "points" = some (.list items) ∧
      List.Forall₂ Value.IsPoint items [⟨-1.5, -0⟩, ⟨0 / 0, 1e21⟩] ∧
      ∃ normal text, normalize {} s = .ok normal ∧ normal.attr? "points" = some (.text text) ∧
        Vec.ofTexts? text = some [⟨-1.5, 0⟩, ⟨0 / 0, 1e21⟩] ∧ text ≠ "" := by
  intro items s
  have permissive : ({} : Options).strict = false := rfl
  have outline : s.kind = .polygon ∨ s.kind = .polyline := .inr rfl
  have listed : s.attr? "points" = some (.list items) := rfl
  have given : List.Forall₂ Value.IsPoint items [⟨-1.5, -0⟩, ⟨0 / 0, 1e21⟩] :=
    .cons (.vector _) (.cons (.pair _ _) .nil)
  obtain ⟨normal, text, normalized, held, read, empty⟩ :=
    normalize_points permissive outline listed given
  have points : [⟨-1.5, -0⟩, ⟨0 / 0, 1e21⟩].map Vec.unsigned = [⟨-1.5, 0⟩, ⟨0 / 0, 1e21⟩] := by
    decide +kernel
  exact ⟨permissive, outline, listed, given, normal, text, normalized, held, points ▸ read,
    mt empty.mp (List.cons_ne_nil _ _)⟩

theorem sideCount_eq_floor (x : Float) :
    sideCount x = if isFinite x then ⌊value x⌋₊ else 0 := by
  rw [sideCount]
  cases finite : isFinite x with
  | false => rfl
  | true =>
      have sign : 0 < x ↔ 0 < value x := Binary.zero_lt_iff finite
      by_cases positive : 0 < value x
      · simp [sign, positive, Binary.truncate_eq_floor, abs_of_pos positive]
      · simp [sign, positive, Nat.floor_of_nonpos (not_lt.mp positive)]

/-- The path data of the rounded polygon that the numbers of a shape describe. It stands around the
origin and has three sides unless they say otherwise, and only whole sides count. -/
def Shape.describedData (s : Shape) : String :=
  let number (key : String) (default : Float) := (s.number? key).getD default
  let sides := number "sides" 3
  pathData (roundedPolygon ⟨number "x" 0, number "y" 0⟩ (number "width" (0 / 0))
    (if isFinite sides then ⌊value sides⌋₊ else 0) (number "r" (0 / 0)))

theorem Shape.roundedPolygonData_eq (s : Shape) :
    s.attrs.roundedPolygonData = s.describedData := by
  rw [OrderedMap.roundedPolygonData, sideCount_eq_floor]
  rfl

theorem Shape.attr?_data_normalForm {s : Shape} (rounded : s.kind = .roundedPolygon)
    (roundAlpha : Bool) :
    (s.normalForm roundAlpha).attr? "d" =
      some (((s.attr? "d").getD (.text s.describedData)).painted roundAlpha) := by
  have outlined : s.outlined.attr? "d" = (s.attr? "d").or (some (.text s.describedData)) := by
    obtain ⟨kind, attrs, body⟩ := s
    obtain rfl : kind = .roundedPolygon := rounded
    rw [← roundedPolygonData_eq]
    exact attrs.get?_withPathData_self
  rw [attr?_normalForm (by decide), if_neg (by decide), outlined]
  cases s.attr? "d" <;> rfl

/-- A rounded polygon becomes a path. Its data are those that it describes, unless the shape comes
with path data of its own: then these are kept, and only a color is painted. -/
theorem normalize_roundedPolygon {options : Options} (permissive : options.strict = false)
    {s : Shape} (rounded : s.kind = .roundedPolygon) :
    ∃ normal, normalize options s = .ok normal ∧ normal.kind = .path ∧
      normal.attr? "d" =
        some (((s.attr? "d").getD (.text s.describedData)).painted options.roundAlpha) ∧
      (normal.attr? "d" = some (.text s.describedData) ↔
        ∀ own, s.attr? "d" = some own →
          own.painted options.roundAlpha = .text s.describedData) := by
  have data := Shape.attr?_data_normalForm rounded options.roundAlpha
  refine ⟨_, normalize_permissive permissive s, ?_, data, ?_⟩
  · rw [Shape.kind_normalForm, if_pos rounded]
  · rw [data, Option.some_inj]
    cases s.attr? "d" with
    | none => simp [Value.painted]
    | some own => simp

theorem normalize_roundedPolygon_partial :
    let s : Shape := ⟨.roundedPolygon, .ofList [("fill", .text "red"), ("r", .text " 1 "),
      ("width", .number 10), ("sides", .number 4.9), ("rotate", .number 45)], .empty⟩
    ({} : Options).strict = false ∧ s.kind = .roundedPolygon ∧ s.attr? "d" = none ∧
      ∃ normal, normalize {} s = .ok normal ∧ normal.kind = .path ∧
        normal.attr? "d" = some (.text (pathData (roundedPolygon .zero 10 4 1))) := by
  intro s
  have permissive : ({} : Options).strict = false := rfl
  have rounded : s.kind = .roundedPolygon := rfl
  have described : s.describedData = pathData (roundedPolygon .zero 10 4 1) := by
    have sides : sideCount 4.9 = 4 := by decide +kernel
    have corner : readNumber? " 1 " = some 1 := by decide +kernel
    rw [← Shape.roundedPolygonData_eq]
    change pathData (roundedPolygon _ 10 (sideCount 4.9) ((readNumber? " 1 ").getD _)) = _
    rw [sides, corner]
    rfl
  obtain ⟨normal, normalized, path, data, -⟩ := normalize_roundedPolygon permissive rounded
  exact ⟨permissive, rounded, rfl, normal, normalized, path, described ▸ data⟩

/-- Path data of a rounded polygon's own hide those that it describes. -/
theorem normalize_keeps_data :
    let own := "M 0,0 L 1,1"
    let s : Shape := ⟨.roundedPolygon, .ofList [("sides", .number 3), ("width", .number 10),
      ("r", .number 1), ("d", .text own)], .empty⟩
    ({} : Options).strict = false ∧ s.kind = .roundedPolygon ∧
      s.describedData = pathData (roundedPolygon .zero 10 3 1) ∧
      ∃ normal, normalize {} s = .ok normal ∧ normal.attr? "d" = some (.text own) ∧
        own ≠ s.describedData := by
  intro own s
  have described : s.describedData = pathData (roundedPolygon .zero 10 3 1) := by
    have sides : sideCount 3 = 3 := by decide +kernel
    rw [← Shape.roundedPolygonData_eq]
    change pathData (roundedPolygon _ 10 (sideCount 3) 1) = _
    rw [sides]
    rfl
  refine ⟨rfl, rfl, described, _, normalize_permissive rfl s, ?_, ?_⟩
  · rw [Shape.attr?_data_normalForm rfl]
    rfl
  · have spelled : own = pathData [.moveTo ⟨0, 0⟩, .lineTo ⟨1, 1⟩] := by decide +kernel
    intro same
    rw [described, spelled, pathData_eq_iff] at same
    have lengths := congrArg List.length same
    rw [roundedPolygon_eq, if_neg (by decide), List.length_map, List.length_map,
      CutPolygon.length_walk] at lengths
    cases lengths

end Tracery
