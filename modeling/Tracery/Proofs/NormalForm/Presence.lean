import Tracery.Proofs.Drawing.Simulation
import Tracery.Proofs.NormalForm.Idempotence

/-! What a drawing shows of attributes. It sees neither their order nor, but for a few keys,
a null: maps of attributes that agree in what is there and not null are drawn alike. -/

namespace Tracery

namespace OrderedMap

variable {a b : Attrs}

theorem present?_eq_some_iff {attrs : Attrs} {key : String} {value : Value} :
    attrs.present? key = some value ↔ attrs.get? key = some value ∧ value.isNull = false := by
  simp [present?, Option.filter_eq_some_iff]

/-- Whatever takes a null for nothing sees what is present and no more. -/
theorem bind_present? {β : Type} {f : Value → Option β} (blind : f .null = none) (attrs : Attrs)
    (key : String) : (attrs.present? key).bind f = (attrs.get? key).bind f := by
  rw [present?]
  cases attrs.get? key with
  | none => rfl
  | some value =>
      cases value with
      | null => exact blind.symm
      | _ => rfl

theorem isSome_present? (attrs : Attrs) (key : String) :
    (attrs.present? key).isSome = (attrs.get? key).any (!·.isNull) := by
  rw [present?]
  cases attrs.get? key with
  | none => rfl
  | some value => cases value <;> rfl

theorem present?_insert (attrs : Attrs) (key asked : String) (value : Value) :
    (attrs.insert key value).present? asked =
      if asked = key then (some value).filter (!·.isNull) else attrs.present? asked := by
  rw [present?, get?_insert]
  split <;> rfl

theorem present?_eraseAll (attrs : Attrs) (keys : List String) (asked : String) :
    (attrs.eraseAll keys).present? asked =
      if asked ∈ keys then none else attrs.present? asked := by
  rw [present?, get?_eraseAll]
  split <;> rfl

theorem present?_painted (attrs : Attrs) (roundAlpha : Bool) (asked : String) :
    (attrs.mapValues (Value.painted roundAlpha)).present? asked =
      (attrs.present? asked).map (Value.painted roundAlpha) := by
  rw [present?, present?, get?_mapValues]
  cases attrs.get? asked with
  | none => rfl
  | some value => cases value <;> rfl

theorem present?_rename_of_ne {attrs : Attrs} {key newKey asked : String}
    (other : asked ≠ newKey) :
    (attrs.rename key newKey).present? asked =
      if asked = key then none else attrs.present? asked := by
  by_cases old : asked = key
  · rw [if_pos old, old, present?, get?_rename_self attrs (old ▸ other)]
    rfl
  · rw [if_neg old, present?, get?_rename_of_ne attrs old other]
    rfl

theorem get?_rename_new (attrs : Attrs) (key newKey : String) :
    (attrs.rename key newKey).get? newKey = (attrs.get? key).or (attrs.get? newKey) := by
  unfold rename
  cases given : attrs.get? key with
  | none => rfl
  | some value => simp

theorem placeEdge_of_present {attrs : Attrs} {edge length : String} {center : Option Value}
    {value : Value} (there : attrs.present? edge = some value) :
    attrs.placeEdge edge length center = attrs := by
  unfold placeEdge
  rw [← isSome_present?, there]
  cases center <;> rfl

theorem placeEdge_of_absent {attrs : Attrs} {edge length : String} {center : Option Value}
    (absent : attrs.present? edge = none) :
    attrs.placeEdge edge length center =
      match center with
      | none => attrs
      | some center => attrs.insert edge
          (.number (center.number?.getD (0 / 0) - attrs.numberOr length (0 / 0) / 2)) := by
  unfold placeEdge
  rw [← isSome_present?, absent]
  rfl

theorem withPointText_eq (attrs : Attrs) :
    attrs.withPointText =
      match attrs.present? "points" with
      | some (.list points) =>
          attrs.insert "points" (.text (" ".intercalate (points.map Value.display)))
      | _ => attrs := by
  unfold withPointText present?
  cases attrs.get? "points" with
  | none => rfl
  | some value => cases value <;> rfl

theorem get?_withPathData_self (attrs : Attrs) :
    attrs.withPathData.get? "d" = (attrs.get? "d").or (some (.text attrs.roundedPolygonData)) := by
  simp [withPathData, get?_merge, ofList]

theorem get?_withPathData_of_ne {attrs : Attrs} {asked : String} (other : asked ≠ "d") :
    attrs.withPathData.get? asked = attrs.get? asked := by
  simp [withPathData, get?_merge, ofList, other]

/-! Maps of attributes that agree in what is present, key by key. Each step of a normal form
keeps that up. -/

def AgreesWith (a b : Attrs) : Prop := ∀ key, a.present? key = b.present? key

namespace AgreesWith

theorem of_get?_eq (same : ∀ key, a.get? key = b.get? key) : a.AgreesWith b := by
  intro key
  rw [present?, present?, same]

theorem insert (same : a.AgreesWith b) (key : String) (value : Value) :
    (a.insert key value).AgreesWith (b.insert key value) := by
  intro asked
  rw [present?_insert, present?_insert, same]

theorem insertAll (same : a.AgreesWith b) (entries : List (String × Value)) :
    (a.insertAll entries).AgreesWith (b.insertAll entries) := by
  induction entries generalizing a b with
  | nil => exact same
  | cons entry rest ih => exact ih (same.insert entry.1 entry.2)

theorem eraseAll (same : a.AgreesWith b) (keys : List String) :
    (a.eraseAll keys).AgreesWith (b.eraseAll keys) := by
  intro asked
  rw [present?_eraseAll, present?_eraseAll, same]

theorem numberOr (same : a.AgreesWith b) (key : String) (default : Float) :
    a.numberOr key default = b.numberOr key default := by
  rw [OrderedMap.numberOr, OrderedMap.numberOr, ← bind_present? rfl, ← bind_present? rfl, same]

theorem bind_get? {β : Type} {f : Value → Option β} (blind : f .null = none)
    (same : a.AgreesWith b) (key : String) : (a.get? key).bind f = (b.get? key).bind f := by
  rw [← bind_present? blind, ← bind_present? blind, same]

theorem placeEdge (same : a.AgreesWith b) (edge length : String) {center other : Option Value}
    (centers : a.present? edge = none → center = other) :
    (a.placeEdge edge length center).AgreesWith (b.placeEdge edge length other) := by
  cases there : a.present? edge with
  | some value =>
      rw [placeEdge_of_present there, placeEdge_of_present ((same edge).symm.trans there)]
      exact same
  | none =>
      rw [placeEdge_of_absent there, placeEdge_of_absent ((same edge).symm.trans there),
        centers there, same.numberOr]
      cases other with
      | none => exact same
      | some center => exact same.insert _ _

theorem rename (same : a.AgreesWith b) {key newKey : String}
    (renamed : (a.rename key newKey).present? newKey = (b.rename key newKey).present? newKey) :
    (a.rename key newKey).AgreesWith (b.rename key newKey) := by
  intro asked
  by_cases new : asked = newKey
  · rw [new, renamed]
  · rw [present?_rename_of_ne new, present?_rename_of_ne new, same]

theorem withEnds (same : a.AgreesWith b) : a.withEnds.AgreesWith b.withEnds := by
  unfold OrderedMap.withEnds
  rw [same.bind_get? rfl, same.bind_get? rfl]
  split
  · exact (same.eraseAll _).insertAll _
  · exact same.eraseAll _

theorem withPointText (same : a.AgreesWith b) : a.withPointText.AgreesWith b.withPointText := by
  rw [withPointText_eq, withPointText_eq, same]
  split
  · exact same.insert _ _
  · exact same

theorem roundedPolygonData (same : a.AgreesWith b) :
    a.roundedPolygonData = b.roundedPolygonData := by
  simp only [OrderedMap.roundedPolygonData, same.numberOr]

theorem withPathData (same : a.AgreesWith b) (data : a.get? "d" = b.get? "d") :
    a.withPathData.AgreesWith b.withPathData := by
  intro asked
  by_cases path : asked = "d"
  · rw [path, present?, present?, get?_withPathData_self, get?_withPathData_self, data,
      same.roundedPolygonData]
  · rw [present?, present?, get?_withPathData_of_ne path, get?_withPathData_of_ne path]
    exact same asked

theorem transformSteps (same : a.AgreesWith b) : a.transformSteps = b.transformSteps := by
  have bind (name key : String) : (a.get? key).bind (transformStep? name) =
      (b.get? key).bind (transformStep? name) := same.bind_get? rfl key
  have move : a.translation?.bind (transformStep? "translate") =
      b.translation?.bind (transformStep? "translate") := by
    rw [translation?, translation?, same, same]
    split
    · exact bind _ _
    · rfl
  simp only [OrderedMap.transformSteps, List.filterMap_cons, List.filterMap_nil, move, bind]

theorem withTransform (same : a.AgreesWith b) : a.withTransform.AgreesWith b.withTransform := by
  unfold OrderedMap.withTransform
  rw [same.transformSteps]
  cases b.transformSteps with
  | nil => exact same.eraseAll _
  | cons => exact (same.eraseAll _).insert _ _

theorem painted (same : a.AgreesWith b) (roundAlpha : Bool) :
    (a.mapValues (Value.painted roundAlpha)).AgreesWith
      (b.mapValues (Value.painted roundAlpha)) := by
  intro asked
  rw [present?_painted, present?_painted, same]

theorem drawnAttributes (same : a.AgreesWith b) (options : Options) :
    (options.drawnAttributes a).Perm (options.drawnAttributes b) := by
  rw [options.drawnAttributes_eq, options.drawnAttributes_eq]
  apply List.Perm.map
  rw [List.perm_ext_iff_of_nodup (a.nodup_entries.filter _) (b.nodup_entries.filter _)]
  rintro ⟨key, value⟩
  have held : (key, value) ∈ a.entries ∧ value.isNull = false ↔
      (key, value) ∈ b.entries ∧ value.isNull = false := by
    rw [mem_entries_iff, mem_entries_iff, ← present?_eq_some_iff, ← present?_eq_some_iff, same]
  simp only [List.mem_filter, Bool.and_eq_true, Bool.not_eq_true', ← and_assoc, held]

end AgreesWith

end OrderedMap

namespace Kind

def lengthNames : List (String × String) := [("w", "width"), ("h", "height")]

def centerNames : List (String × String) := [("cx", "x"), ("cy", "y")]

/-- Attributes that a shape of some kind is drawn alike with. A null counts where drawing
asks only whether a key is there: under a short name it hides the long one, as a center it
puts the edge unless that is given, and it hides path data. -/
structure DrawsAlike (kind : Kind) (a b : Attrs) : Prop where
  agrees : a.AgreesWith b
  origin : a.get? "origin" = b.get? "origin"
  lengths : kind = .rect → ∀ name ∈ lengthNames,
    (a.rename name.1 name.2).present? name.2 = (b.rename name.1 name.2).present? name.2
  centers : kind = .rect → ∀ name ∈ centerNames,
    a.present? name.2 = none → a.get? name.1 = b.get? name.1
  data : kind = .roundedPolygon → a.get? "d" = b.get? "d"

theorem DrawsAlike.of_get?_eq (kind : Kind) {a b : Attrs}
    (same : ∀ key, a.get? key = b.get? key) : kind.DrawsAlike a b where
  agrees := .of_get?_eq same
  origin := same _
  lengths := by
    intro _ name _
    simp only [OrderedMap.present?, OrderedMap.get?_rename_new, same]
  centers := fun _ name _ _ => same name.1
  data := fun _ => same _

end Kind

namespace OrderedMap

variable {a b : Attrs}

theorem cornered_agrees (alike : Kind.DrawsAlike .rect a b) :
    a.cornered.AgreesWith b.cornered := by
  have lengths := alike.lengths rfl
  have centers := alike.centers rfl
  simp only [Kind.lengthNames, Kind.centerNames, List.forall_mem_cons] at lengths centers
  obtain ⟨width, height, -⟩ := lengths
  obtain ⟨cx, cy, -⟩ := centers
  have tall (attrs : Attrs) : ((attrs.rename "w" "width").rename "h" "height").present? "height" =
      (attrs.rename "h" "height").present? "height" := by
    simp [present?, get?_rename_new, get?_rename_of_ne]
  have tallest : ((a.rename "w" "width").rename "h" "height").present? "height" =
      ((b.rename "w" "width").rename "h" "height").present? "height" := by
    rw [tall, tall, height]
  have sized := (alike.agrees.rename width).rename tallest
  apply ((sized.eraseAll ["cx", "cy"]).placeEdge "x" "width" _).placeEdge "y" "height"
  · intro absent
    simp only [get?_rename_of_ne, ne_eq, String.reduceEq, not_false_eq_true]
    apply cy
    rw [← absent, present?, present?, get?_placeEdge_of_ne _ _ _ (by decide)]
    simp [get?_rename_of_ne]
  · intro absent
    simp only [get?_rename_of_ne, ne_eq, String.reduceEq, not_false_eq_true]
    apply cx
    rw [← absent, present?, present?]
    simp [get?_rename_of_ne]

end OrderedMap

namespace Shape

variable {s t : Shape}

theorem hasAttr_eq (s : Shape) (key : String) :
    s.hasAttr key = (s.attrs.present? key).isSome :=
  (OrderedMap.isSome_present? s.attrs key).symm

theorem outlined_agrees (same : s.kind = t.kind) (alike : s.kind.DrawsAlike s.attrs t.attrs) :
    s.outlined.kind = t.outlined.kind ∧ s.outlined.attrs.AgreesWith t.outlined.attrs := by
  obtain ⟨kind, a, body⟩ := s
  obtain ⟨kind', b, body'⟩ := t
  obtain rfl : kind = kind' := same
  cases kind with
  | rect => exact ⟨rfl, OrderedMap.cornered_agrees alike⟩
  | line => exact ⟨rfl, alike.agrees.withEnds⟩
  | polygon | polyline => exact ⟨rfl, alike.agrees.withPointText⟩
  | roundedPolygon => exact ⟨rfl, alike.agrees.withPathData (alike.data rfl)⟩
  | _ => exact ⟨rfl, alike.agrees⟩

theorem drawnAlike_of_drawsAlike {options : Options} {errors : Error → Error → Prop}
    (same : s.kind = t.kind) (alike : s.kind.DrawsAlike s.attrs t.attrs)
    (refused : Option.Rel errors (options.refusal? s) (options.refusal? t)) :
    s.DrawnAlike options errors List.Perm t where
  refused := refused
  kind := (outlined_agrees same alike).1
  attributes := by
    have agrees := (outlined_agrees same alike).2
    exact (agrees.withTransform.painted options.roundAlpha).drawnAttributes options
  origin := congrArg (Option.map Value.display) alike.origin

end Shape
end Tracery
