import Tracery.NormalForm
import Tracery.Proofs.OrderedMap

/-! What a normal form looks like. The normal form of a shape looks that way, and
a shape that does is its own normal form. -/

namespace Tracery

namespace Kind

/-- The attributes that the geometry of a kind is given by before it is outlined, and
that are gone afterwards. -/
def draftKeys : Kind → List String
  | .rect => ["w", "h", "cx", "cy"]
  | .line => ["start", "end"]
  | _ => []

def outlineKeys : Kind → List String
  | .rect => ["w", "h", "cx", "cy", "width", "height", "x", "y"]
  | .line => ["start", "end", "x1", "y1", "x2", "y2"]
  | .polygon | .polyline => ["points"]
  | .roundedPolygon => ["d"]
  | _ => []

end Kind

namespace Value

variable {roundAlpha : Bool}

theorem painted_ne_color (value : Value) (c : Color) : value.painted roundAlpha ≠ .color c := by
  cases value <;> simp [painted]

theorem painted_of_ne_color {value : Value} (plain : ∀ c, value ≠ .color c) :
    value.painted roundAlpha = value := by
  cases value with
  | color c => exact absurd rfl (plain c)
  | _ => rfl

theorem painted_eq_list {value : Value} {items : List Value}
    (is : value.painted roundAlpha = .list items) : value = .list items := by
  cases value with
  | color c => cases is
  | _ => exact is

theorem isNull_painted (value : Value) (roundAlpha : Bool) :
    (value.painted roundAlpha).isNull = value.isNull := by
  cases value <;> rfl

/-- A color is displayed with a whole opacity, so a paint text that has one says the
same. -/
theorem display_painted_true (value : Value) : (value.painted true).display = value.display := by
  cases value <;> rfl

end Value

namespace OrderedMap

variable (attrs : Attrs)

theorem rename_of_absent {key : String} (absent : attrs.get? key = none) (newKey : String) :
    attrs.rename key newKey = attrs := by
  simp [rename, absent]

theorem get?_rename_self {key newKey : String} (other : key ≠ newKey) :
    (attrs.rename key newKey).get? key = none := by
  unfold rename
  cases given : attrs.get? key with
  | none => exact given
  | some value => simp [other]

theorem get?_rename_of_ne {key newKey asked : String} (notOld : asked ≠ key)
    (notNew : asked ≠ newKey) : (attrs.rename key newKey).get? asked = attrs.get? asked := by
  unfold rename
  cases attrs.get? key <;> simp [notOld, notNew]

theorem get?_placeEdge_of_ne (length : String) (center : Option Value) {edge asked : String}
    (other : asked ≠ edge) :
    (attrs.placeEdge edge length center).get? asked = attrs.get? asked := by
  unfold placeEdge
  cases center with
  | none => rfl
  | some center =>
      simp only
      split
      · rfl
      · simp [other]

theorem get?_cornered_of_draft {key : String} (draft : key ∈ Kind.draftKeys .rect) :
    attrs.cornered.get? key = none := by
  simp only [Kind.draftKeys, List.mem_cons, List.not_mem_nil, or_false] at draft
  rcases draft with rfl | rfl | rfl | rfl <;>
    simp [cornered, get?_placeEdge_of_ne, get?_rename_of_ne, get?_rename_self]

theorem get?_withEnds_of_draft {key : String} (draft : key ∈ Kind.draftKeys .line) :
    attrs.withEnds.get? key = none := by
  unfold withEnds
  simp only [Kind.draftKeys, List.mem_cons, List.not_mem_nil, or_false] at draft
  split <;> rcases draft with rfl | rfl <;> simp

theorem withPointText_ne_list (items : List Value) :
    attrs.withPointText.get? "points" ≠ some (.list items) := by
  unfold withPointText
  split
  next => simp
  next noList => exact noList items

theorem get?_withTransform {key : String} (other : key ≠ "transform") :
    attrs.withTransform.get? key = if key ∈ transformKeys then none else attrs.get? key := by
  unfold withTransform
  split <;> simp [other]

theorem withTransform_of_absent {attrs : Attrs}
    (absent : ∀ key ∈ transformKeys, attrs.get? key = none) : attrs.withTransform = attrs := by
  have steps : attrs.transformSteps = [] := by
    simp only [transformKeys, List.forall_mem_cons] at absent
    obtain ⟨translate, rotate, scale, moveX, moveY, -⟩ := absent
    simp [transformSteps, translation?, present?, translate, rotate, scale, moveX, moveY]
  simp [withTransform, steps, eraseAll_of_absent absent]

end OrderedMap

namespace Shape

variable {s : Shape} {roundAlpha : Bool}

structure IsNormal (s : Shape) : Prop where
  kind : s.kind ≠ .roundedPolygon
  outlined : ∀ key ∈ s.kind.draftKeys, s.attr? key = none
  pointText : s.kind = .polygon ∨ s.kind = .polyline →
    ∀ items, s.attr? "points" ≠ some (.list items)
  transformed : ∀ key ∈ transformKeys, s.attr? key = none
  painted : ∀ value ∈ s.attrs.values, ∀ c, value ≠ .color c

theorem outlined_of_isNormal (normal : s.IsNormal) : s.outlined = s := by
  obtain ⟨kind, attrs, body⟩ := s
  have absent := normal.outlined
  cases kind with
  | rect =>
      simp only [Kind.draftKeys, List.forall_mem_cons, attr?] at absent
      obtain ⟨w, h, cx, cy, -⟩ := absent
      have bare : attrs.eraseAll ["cx", "cy"] = attrs :=
        OrderedMap.eraseAll_of_absent (by simp [cx, cy])
      simp [outlined, withAttrs, OrderedMap.cornered, OrderedMap.rename_of_absent, w, h, cx, cy,
        bare, OrderedMap.placeEdge]
  | line =>
      have bare : attrs.eraseAll ["start", "end"] = attrs :=
        OrderedMap.eraseAll_of_absent absent
      simp only [Kind.draftKeys, List.forall_mem_cons, attr?] at absent
      simp [outlined, withAttrs, OrderedMap.withEnds, absent.1, bare]
  | polygon | polyline =>
      have kept : attrs.withPointText = attrs := by
        unfold OrderedMap.withPointText
        split
        next items listed => exact absurd listed (normal.pointText (by simp) items)
        next => rfl
      simp [outlined, withAttrs, kept]
  | roundedPolygon => exact absurd rfl normal.kind
  | _ => rfl

theorem normalForm_of_isNormal (normal : s.IsNormal) : s.normalForm roundAlpha = s := by
  have painted : s.attrs.mapValues (Value.painted roundAlpha) = s.attrs :=
    OrderedMap.mapValues_of_fixed fun value member =>
      Value.painted_of_ne_color (normal.painted value member)
  rw [normalForm, outlined_of_isNormal normal,
    OrderedMap.withTransform_of_absent normal.transformed, painted]
  cases s
  rfl

theorem kind_outlined_ne (s : Shape) : s.outlined.kind ≠ .roundedPolygon := by
  obtain ⟨kind, attrs, body⟩ := s
  cases kind <;> simp [outlined, withKind]

theorem attr?_outlined_of_draft {key : String} (draft : key ∈ s.outlined.kind.draftKeys) :
    s.outlined.attr? key = none := by
  obtain ⟨kind, attrs, body⟩ := s
  cases kind with
  | rect => exact attrs.get?_cornered_of_draft draft
  | line => exact attrs.get?_withEnds_of_draft draft
  | _ => cases draft

theorem attr?_outlined_ne_list (points : s.outlined.kind = .polygon ∨ s.outlined.kind = .polyline)
    (items : List Value) : s.outlined.attr? "points" ≠ some (.list items) := by
  obtain ⟨kind, attrs, body⟩ := s
  cases kind with
  | polygon | polyline => exact attrs.withPointText_ne_list items
  | _ => rcases points with is | is <;> cases is

theorem attr?_outlined {key : String} (other : key ∉ s.kind.outlineKeys) :
    s.outlined.attr? key = s.attr? key := by
  obtain ⟨kind, attrs, body⟩ := s
  cases kind with
  | rect =>
      simp only [Kind.outlineKeys, List.mem_cons, List.not_mem_nil, or_false, not_or] at other
      simp [attr?, outlined, OrderedMap.cornered, OrderedMap.get?_placeEdge_of_ne,
        OrderedMap.get?_rename_of_ne, other]
  | line =>
      simp only [Kind.outlineKeys, List.mem_cons, List.not_mem_nil, or_false, not_or] at other
      simp only [attr?, outlined, attrs_withAttrs, OrderedMap.withEnds]
      split <;> simp [other]
  | polygon | polyline =>
      simp only [Kind.outlineKeys, List.mem_singleton] at other
      simp only [attr?, outlined, attrs_withAttrs, OrderedMap.withPointText]
      split <;> simp [other]
  | roundedPolygon =>
      simp only [Kind.outlineKeys, List.mem_singleton] at other
      simp [attr?, outlined, OrderedMap.withPathData, OrderedMap.get?_merge, OrderedMap.ofList,
        other]
  | _ => rfl

theorem attr?_normalForm {key : String} (other : key ≠ "transform") :
    (s.normalForm roundAlpha).attr? key =
      if key ∈ transformKeys then none
      else (s.outlined.attr? key).map (Value.painted roundAlpha) := by
  simp only [normalForm, attr?, attrs_withAttrs, OrderedMap.get?_mapValues,
    OrderedMap.get?_withTransform _ other]
  split <;> rfl

theorem isNormal_normalForm (s : Shape) (roundAlpha : Bool) :
    (s.normalForm roundAlpha).IsNormal where
  kind := s.kind_outlined_ne
  outlined := by
    intro key draft
    have other : key ≠ "transform" := by
      rintro rfl
      revert draft
      cases (s.normalForm roundAlpha).kind <;> decide
    rw [attr?_normalForm other, attr?_outlined_of_draft draft]
    simp
  pointText := by
    intro points items given
    rw [attr?_normalForm (by decide), if_neg (by decide)] at given
    obtain ⟨value, known, listed⟩ := Option.map_eq_some_iff.mp given
    rw [Value.painted_eq_list listed] at known
    exact attr?_outlined_ne_list points items known
  transformed := by
    intro key moved
    rw [attr?_normalForm (by rintro rfl; exact absurd moved (by decide)), if_pos moved]
  painted := by
    intro value member
    obtain ⟨entry, known, rfl⟩ := List.mem_map.mp member
    obtain ⟨entry, -, rfl⟩ := List.mem_map.mp known
    exact Value.painted_ne_color entry.2

theorem normalForm_normalForm (s : Shape) (roundAlpha again : Bool) :
    (s.normalForm roundAlpha).normalForm again = s.normalForm roundAlpha :=
  normalForm_of_isNormal (isNormal_normalForm s roundAlpha)

end Shape

theorem normalize_permissive {options : Options} (permissive : options.strict = false)
    (s : Shape) : normalize options s = .ok (s.normalForm options.roundAlpha) := by
  simp [normalize, permissive]

/-- A shape that was normalized is normal, and any options leave it as it is. -/
theorem normalize_normalize (s : Shape) {first second : Options}
    (permissive : first.strict = false) (again : second.strict = false) :
    ∃ normal, normalize first s = .ok normal ∧ normal.IsNormal ∧
      normalize second normal = .ok normal := by
  refine ⟨_, normalize_permissive permissive s, s.isNormal_normalForm _, ?_⟩
  rw [normalize_permissive again, Shape.normalForm_normalForm]

theorem normalize_normalize_polyline :
    let half : Color := ⟨0, 0, 0, 0.5⟩
    let s : Shape := ⟨.polyline, .ofList [("points", .list [.text "0,0", .text "1,1"]),
      ("rotate", .text "45"), ("fill", .color half)], .empty⟩
    let normal : Shape := ⟨.polyline, .ofList [("points", .text "0,0 1,1"),
      ("fill", .text (half.paint false)), ("transform", .text "rotate(45)")], .empty⟩
    let first : Options := { roundAlpha := false }
    first.strict = false ∧ ({} : Options).strict = false ∧
      normalize first s = .ok normal ∧ normal.IsNormal ∧ normalize {} normal = .ok normal := by
  intro half s normal first
  have normalized : normalize first s = .ok normal := by rfl
  have permissive : first.strict = false := rfl
  have again : ({} : Options).strict = false := rfl
  obtain ⟨other, found, isNormal, kept⟩ := normalize_normalize s permissive again
  obtain rfl : normal = other := Except.ok.inj (normalized.symm.trans found)
  exact ⟨permissive, again, normalized, isNormal, kept⟩

end Tracery
