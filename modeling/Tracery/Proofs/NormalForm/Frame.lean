import Tracery.Proofs.Drawing.Calls
import Tracery.Proofs.NormalForm.Idempotence

/-! What a normal form leaves alone. Outside of the few attributes that the geometry and the
transform of a shape are written with, nothing is lost, moved or added. -/

namespace Tracery

namespace Kind

/-- The attributes that the normal form of a kind may add, change or leave out. -/
def footprint (kind : Kind) : List String := kind.outlineKeys ++ "transform" :: transformKeys

end Kind

namespace OrderedMap

variable {keep : String → Bool} (attrs : Attrs)

theorem restrict_rename_of_dropped {key newKey : String} (old : keep key = false)
    (new : keep newKey = false) :
    (attrs.rename key newKey).restrict keep = attrs.restrict keep := by
  unfold rename
  cases attrs.get? key with
  | none => rfl
  | some value =>
      simp only
      rw [restrict_insert_of_dropped new, restrict_erase_of_dropped old]

theorem restrict_placeEdge_of_dropped {edge : String} (dropped : keep edge = false)
    (length : String) (center : Option Value) :
    (attrs.placeEdge edge length center).restrict keep = attrs.restrict keep := by
  unfold placeEdge
  cases center with
  | none => rfl
  | some center =>
      simp only
      split
      · rfl
      · exact restrict_insert_of_dropped dropped ..

theorem restrict_cornered (dropped : ∀ key ∈ Kind.outlineKeys .rect, keep key = false) :
    attrs.cornered.restrict keep = attrs.restrict keep := by
  simp only [Kind.outlineKeys, List.forall_mem_cons] at dropped
  obtain ⟨w, h, cx, cy, width, height, x, y, -⟩ := dropped
  have centers : ∀ key ∈ ["cx", "cy"], keep key = false := by simp [cx, cy]
  rw [cornered, restrict_placeEdge_of_dropped _ y, restrict_placeEdge_of_dropped _ x,
    restrict_eraseAll_of_dropped centers, restrict_rename_of_dropped _ h height,
    restrict_rename_of_dropped _ w width]

theorem restrict_withEnds (dropped : ∀ key ∈ Kind.outlineKeys .line, keep key = false) :
    attrs.withEnds.restrict keep = attrs.restrict keep := by
  simp only [Kind.outlineKeys, List.forall_mem_cons] at dropped
  obtain ⟨start, last, x1, y1, x2, y2, -⟩ := dropped
  have ends : ∀ key ∈ ["start", "end"], keep key = false := by simp [start, last]
  unfold withEnds
  split
  · rw [restrict_insertAll, restrict_eraseAll_of_dropped ends]
    simp [x1, y1, x2, y2]
  · exact restrict_eraseAll_of_dropped ends attrs

theorem restrict_withPointText (dropped : keep "points" = false) :
    attrs.withPointText.restrict keep = attrs.restrict keep := by
  unfold withPointText
  split
  · exact restrict_insert_of_dropped dropped ..
  · rfl

theorem restrict_withPathData (dropped : keep "d" = false) :
    attrs.withPathData.restrict keep = attrs.restrict keep := by
  have front : (ofList [("d", Value.text attrs.roundedPolygonData)]).restrict keep = empty := by
    apply ext
    simp [ofList, restrict, put, empty, dropped]
  rw [withPathData, restrict_merge, front]
  exact ofList_entries (attrs.restrict keep)

theorem restrict_withTransform (text : keep "transform" = false)
    (dropped : ∀ key ∈ transformKeys, keep key = false) :
    attrs.withTransform.restrict keep = attrs.restrict keep := by
  have bare : (attrs.eraseAll transformKeys).restrict keep = attrs.restrict keep :=
    restrict_eraseAll_of_dropped dropped attrs
  unfold withTransform
  cases attrs.transformSteps with
  | nil => exact bare
  | cons => exact (restrict_insert_of_dropped text ..).trans bare

end OrderedMap

namespace Shape

variable {keep : String → Bool}

theorem restrict_outlined (s : Shape)
    (dropped : ∀ key ∈ s.kind.outlineKeys, keep key = false) :
    s.outlined.attrs.restrict keep = s.attrs.restrict keep := by
  obtain ⟨kind, attrs, body⟩ := s
  cases kind with
  | rect => exact attrs.restrict_cornered dropped
  | line => exact attrs.restrict_withEnds dropped
  | polygon | polyline => exact attrs.restrict_withPointText (dropped "points" List.mem_cons_self)
  | roundedPolygon => exact attrs.restrict_withPathData (dropped "d" List.mem_cons_self)
  | _ => rfl

theorem kind_normalForm (s : Shape) (roundAlpha : Bool) :
    (s.normalForm roundAlpha).kind = if s.kind = .roundedPolygon then .path else s.kind := by
  obtain ⟨kind, attrs, body⟩ := s
  cases kind <;> rfl

theorem eraseAll_footprint_normalForm (s : Shape) (roundAlpha : Bool) :
    (s.normalForm roundAlpha).attrs.eraseAll s.kind.footprint =
      (s.attrs.eraseAll s.kind.footprint).mapValues (Value.painted roundAlpha) := by
  let keep (key : String) : Bool := !s.kind.footprint.contains key
  have dropped : ∀ key ∈ s.kind.footprint, keep key = false := by simp [keep]
  have outline : ∀ key ∈ s.kind.outlineKeys, keep key = false :=
    fun key listed => dropped key (List.mem_append_left _ listed)
  have moves : ∀ key ∈ "transform" :: transformKeys, keep key = false :=
    fun key listed => dropped key (List.mem_append_right _ listed)
  rw [List.forall_mem_cons] at moves
  calc (s.normalForm roundAlpha).attrs.restrict keep
    _ = (s.outlined.attrs.withTransform.restrict keep).mapValues (Value.painted roundAlpha) :=
        OrderedMap.restrict_mapValues ..
    _ = (s.outlined.attrs.restrict keep).mapValues (Value.painted roundAlpha) := by
        rw [OrderedMap.restrict_withTransform _ moves.1 moves.2]
    _ = (s.attrs.restrict keep).mapValues (Value.painted roundAlpha) := by
        rw [restrict_outlined s outline]

end Shape

/-- A normalized shape is in normal form, and has the body, the kind and, outside of the
footprint, just the attributes of the shape in their order, with its colors painted. -/
theorem normalize_frame {options : Options} (permissive : options.strict = false) (s : Shape) :
    ∃ normal, normalize options s = .ok normal ∧ normal.IsNormal ∧ normal.body = s.body ∧
      normal.kind = (if s.kind = .roundedPolygon then .path else s.kind) ∧
      normal.attrs.eraseAll s.kind.footprint =
        (s.attrs.eraseAll s.kind.footprint).mapValues (Value.painted options.roundAlpha) :=
  ⟨s.normalForm options.roundAlpha, normalize_permissive permissive s,
    s.isNormal_normalForm _, s.body_normalForm _, s.kind_normalForm _,
    s.eraseAll_footprint_normalForm _⟩

theorem normalize_frame_line :
    let half : Color := ⟨0, 0, 0, 0.5⟩
    let s : Shape := ⟨.line, .ofList [("id", .text "a"), ("start", .vector ⟨0, 0⟩),
      ("stroke", .color half), ("rotate", .text "45"), ("end", .vector ⟨1, 1⟩),
      ("points", .list [])], .text "b"⟩
    let options : Options := { roundAlpha := false }
    options.strict = false ∧
      ∃ normal, normalize options s = .ok normal ∧ normal.IsNormal ∧ normal.body = .text "b" ∧
        normal.kind = .line ∧
        (normal.attrs.eraseAll (Kind.footprint .line)).entries =
          [("id", .text "a"), ("stroke", .text (half.paint false)), ("points", .list [])] := by
  intro half s options
  have permissive : options.strict = false := rfl
  obtain ⟨normal, normalized, isNormal, body, kind, kept⟩ := normalize_frame permissive s
  exact ⟨permissive, normal, normalized, isNormal, body, kind,
    (congrArg OrderedMap.entries kept).trans rfl⟩

end Tracery
