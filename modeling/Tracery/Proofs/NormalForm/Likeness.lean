import Mathlib.Data.List.Forall2
import Tracery.Proofs.Drawing.Simulation
import Tracery.Proofs.NormalForm.Idempotence

/-! Values that look alike. Drawing asks a value for its text, its number, its point and its
steps, and for its items only under `points`. Attributes whose values look alike there are
drawn by the same operations. -/

namespace Tracery

namespace Value

structure LooksLike (value other : Value) : Prop where
  isNull : value.isNull = other.isNull
  number : value.number? = other.number?
  vector : value.vector? = other.vector?
  step : ∀ name, transformStep? name value = transformStep? name other
  painted : ∀ roundAlpha, (value.painted roundAlpha).display = (other.painted roundAlpha).display

namespace LooksLike

variable {value other : Value} {items others : List Value}

theorem refl (value : Value) : value.LooksLike value :=
  ⟨rfl, rfl, rfl, fun _ => rfl, fun _ => rfl⟩

theorem display (alike : value.LooksLike other) : value.display = other.display := by
  rw [← value.display_painted_true, ← other.display_painted_true]
  exact alike.painted true

theorem map_eq {β : Type} {f : Value → β} (same : ∀ {v w : Value}, v.LooksLike w → f v = f w)
    (alike : List.Forall₂ LooksLike items others) : items.map f = others.map f := by
  induction alike with
  | nil => rfl
  | cons first _ ih => rw [List.map_cons, List.map_cons, same first, ih]

theorem list (alike : List.Forall₂ LooksLike items others) :
    (Value.list items).LooksLike (.list others) where
  isNull := rfl
  number := rfl
  vector := by
    cases alike with
    | nil => rfl
    | cons first rest =>
        cases rest with
        | nil => rfl
        | cons second rest =>
            cases rest with
            | nil => rw [vector?, vector?, first.number, second.number]
            | cons => rfl
  step := by
    intro name
    have empty : items.isEmpty = others.isEmpty := by cases alike <;> rfl
    have nulls : items.map Value.isNull = others.map Value.isNull := map_eq (·.isNull) alike
    have anyNull (values : List Value) :
        values.any Value.isNull = (values.map Value.isNull).any id := by
      rw [List.any_map, Function.id_comp]
    simp only [transformStep?, components, empty, anyNull, nulls, map_eq (·.display) alike]
  painted := fun _ => by
    change (Value.list items).display = (Value.list others).display
    rw [Value.display, Value.display, displayAll_eq_map, displayAll_eq_map,
      map_eq (·.display) alike]

theorem vector_list (x y : Float) :
    (Value.list [.number x, .number y]).LooksLike (.vector ⟨x, y⟩) where
  isNull := rfl
  number := rfl
  vector := rfl
  step := fun _ => rfl
  painted := by
    intro roundAlpha
    change (Value.list [.number x, .number y]).display = (Value.vector ⟨x, y⟩).display
    simp only [Value.display, displayAll_eq_map, List.map_cons, List.map_nil]
    rfl

end LooksLike

/-- A value is seen as a list of points by its items only. -/
def pointText? : Value → Option String
  | .list points => some (" ".intercalate (points.map display))
  | _ => none

end Value

namespace OrderedMap

theorem withPointText_eq_bind (attrs : Attrs) :
    attrs.withPointText =
      match (attrs.get? "points").bind Value.pointText? with
      | some text => attrs.insert "points" (.text text)
      | none => attrs := by
  unfold withPointText
  cases attrs.get? "points" with
  | none => rfl
  | some value => cases value <;> rfl

variable {a b : Attrs}

def LooksLike (a b : Attrs) : Prop :=
  List.Forall₂ (fun entry other => entry.1 = other.1 ∧ entry.2.LooksLike other.2)
    a.entries b.entries

namespace LooksLike

theorem get? (alike : a.LooksLike b) (key : String) :
    Option.Rel Value.LooksLike (a.get? key) (b.get? key) := by
  obtain ⟨entries, nodup⟩ := a
  obtain ⟨others, nodup'⟩ := b
  replace alike : List.Forall₂ _ entries others := alike
  change Option.Rel _ (entries.lookup key) (others.lookup key)
  clear nodup nodup'
  induction alike with
  | nil => exact .none
  | @cons entry other rest others first _ ih =>
      rw [List.lookup_cons, List.lookup_cons, ← first.1]
      split
      · exact .some first.2
      · exact ih

theorem present? (alike : a.LooksLike b) (key : String) :
    Option.Rel Value.LooksLike (a.present? key) (b.present? key) := by
  have held := alike.get? key
  rw [OrderedMap.present?, OrderedMap.present?]
  generalize a.get? key = value, b.get? key = other at held
  cases held with
  | none => exact .none
  | some looks =>
      rw [Option.filter_some, Option.filter_some, looks.isNull]
      split
      · exact .some looks
      · exact .none

theorem bind_eq {β : Type} {f : Value → Option β} {value other : Option Value}
    (same : ∀ {v w : Value}, v.LooksLike w → f v = f w)
    (looks : Option.Rel Value.LooksLike value other) : value.bind f = other.bind f := by
  cases looks with
  | none => rfl
  | some looks => exact same looks

theorem any_get? (alike : a.LooksLike b) (key : String) :
    (a.get? key).any (!·.isNull) = (b.get? key).any (!·.isNull) := by
  have held := alike.get? key
  generalize a.get? key = value, b.get? key = other at held
  cases held with
  | none => rfl
  | some looks => rw [Option.any_some, Option.any_some, looks.isNull]

theorem numberOr (alike : a.LooksLike b) (key : String) (default : Float) :
    a.numberOr key default = b.numberOr key default := by
  rw [OrderedMap.numberOr, OrderedMap.numberOr, bind_eq (·.number) (alike.get? key)]

theorem restrict (alike : a.LooksLike b) (keep : String → Bool) :
    (a.restrict keep).LooksLike (b.restrict keep) := by
  refine List.rel_filter ?_ alike
  intro entry other looks
  exact iff_of_eq (congrArg (keep · = true) looks.1)

theorem eraseAll (alike : a.LooksLike b) (keys : List String) :
    (a.eraseAll keys).LooksLike (b.eraseAll keys) :=
  alike.restrict _

theorem insert (alike : a.LooksLike b) (key : String) {value other : Value}
    (looks : value.LooksLike other) : (a.insert key value).LooksLike (b.insert key other) := by
  obtain ⟨entries, nodup⟩ := a
  obtain ⟨others, nodup'⟩ := b
  replace alike : List.Forall₂ _ entries others := alike
  change List.Forall₂ _ (put key value entries) (put key other others)
  clear nodup nodup'
  induction alike with
  | nil => exact .cons ⟨rfl, looks⟩ .nil
  | @cons entry twin rest others first later ih =>
      rw [put, put, ← first.1]
      split
      · exact .cons ⟨rfl, looks⟩ later
      · exact .cons first ih

theorem insertAll (alike : a.LooksLike b) {entries others : List (String × Value)}
    (added : List.Forall₂ (fun entry other => entry.1 = other.1 ∧ entry.2.LooksLike other.2)
      entries others) : (a.insertAll entries).LooksLike (b.insertAll others) := by
  induction added generalizing a b with
  | nil => exact alike
  | cons first _ ih =>
      rw [insertAll_cons, insertAll_cons, ← first.1]
      exact ih (alike.insert _ first.2)

theorem refl (a : Attrs) : a.LooksLike a :=
  List.forall₂_same.mpr fun entry _ => ⟨rfl, .refl entry.2⟩

theorem rename (alike : a.LooksLike b) (key newKey : String) :
    (a.rename key newKey).LooksLike (b.rename key newKey) := by
  have held := alike.get? key
  unfold OrderedMap.rename
  generalize a.get? key = value, b.get? key = other at held
  cases held with
  | none => exact alike
  | some looks => exact (alike.restrict _).insert newKey looks

theorem placeEdge (alike : a.LooksLike b) (edge length : String) {center other : Option Value}
    (centers : Option.Rel Value.LooksLike center other) :
    (a.placeEdge edge length center).LooksLike (b.placeEdge edge length other) := by
  cases centers with
  | none => exact alike
  | some looks =>
      rw [OrderedMap.placeEdge, OrderedMap.placeEdge, alike.any_get?, looks.number,
        alike.numberOr]
      split
      · exact alike
      · exact alike.insert edge (.refl _)

theorem cornered (alike : a.LooksLike b) : a.cornered.LooksLike b.cornered := by
  have sized := (alike.rename "w" "width").rename "h" "height"
  exact ((sized.eraseAll _).placeEdge _ _ (sized.get? _)).placeEdge _ _ (sized.get? _)

theorem withEnds (alike : a.LooksLike b) : a.withEnds.LooksLike b.withEnds := by
  unfold OrderedMap.withEnds
  rw [bind_eq (·.vector) (alike.get? _), bind_eq (·.vector) (alike.get? _)]
  split
  · exact (alike.eraseAll _).insertAll (List.forall₂_same.mpr fun entry _ => ⟨rfl, .refl _⟩)
  · exact alike.eraseAll _

theorem withPointText (alike : a.LooksLike b)
    (points : (a.get? "points").bind Value.pointText? = (b.get? "points").bind Value.pointText?) :
    a.withPointText.LooksLike b.withPointText := by
  rw [withPointText_eq_bind, withPointText_eq_bind, points]
  split
  · exact alike.insert _ (.refl _)
  · exact alike

theorem withPathData (alike : a.LooksLike b) : a.withPathData.LooksLike b.withPathData := by
  have data : a.roundedPolygonData = b.roundedPolygonData := by
    simp only [OrderedMap.roundedPolygonData, alike.numberOr]
  rw [OrderedMap.withPathData, OrderedMap.withPathData, data]
  exact (refl _).insertAll alike

theorem translation? (alike : a.LooksLike b) :
    Option.Rel Value.LooksLike a.translation? b.translation? := by
  have across := alike.present? "translateX"
  have down := alike.present? "translateY"
  have whole := alike.get? "translate"
  rw [OrderedMap.translation?, OrderedMap.translation?]
  generalize a.present? "translateX" = x, b.present? "translateX" = x' at across
  generalize a.present? "translateY" = y, b.present? "translateY" = y' at down
  cases across with
  | none =>
      cases down with
      | none => exact whole
      | some looks => exact .some (.list (.cons (.refl _) (.cons looks .nil)))
  | some looks =>
      cases down with
      | none => exact .some (.list (.cons looks (.cons (.refl _) .nil)))
      | some other => exact .some (.list (.cons looks (.cons other .nil)))

theorem transformSteps (alike : a.LooksLike b) : a.transformSteps = b.transformSteps := by
  simp only [OrderedMap.transformSteps, List.filterMap_cons, List.filterMap_nil,
    bind_eq (·.step _) alike.translation?, bind_eq (·.step _) (alike.get? _)]

theorem withTransform (alike : a.LooksLike b) : a.withTransform.LooksLike b.withTransform := by
  unfold OrderedMap.withTransform
  rw [alike.transformSteps]
  split
  · exact alike.eraseAll _
  · exact (alike.eraseAll _).insert _ (.refl _)

end LooksLike
end OrderedMap

theorem Options.drawnAttributes_of_looksLike (options : Options) {a b : Attrs}
    (alike : a.LooksLike b) (roundAlpha : Bool) :
    options.drawnAttributes (a.mapValues (Value.painted roundAlpha)) =
      options.drawnAttributes (b.mapValues (Value.painted roundAlpha)) := by
  simp only [drawnAttributes, OrderedMap.mapValues, List.filterMap_map]
  rw [← List.forall₂_eq_eq_eq]
  refine List.rel_filterMap ?_ alike
  rintro ⟨key, value⟩ ⟨_, other⟩ ⟨rfl, looks⟩
  simp only [Function.comp_apply, Value.isNull_painted, looks.isNull, looks.painted]
  split
  · exact .some rfl
  · exact .none

namespace Kind

structure LooksLike (kind : Kind) (a b : Attrs) : Prop where
  attrs : a.LooksLike b
  points : kind = .polygon ∨ kind = .polyline →
    (a.get? "points").bind Value.pointText? = (b.get? "points").bind Value.pointText?

end Kind

namespace Shape

variable {s t : Shape}

theorem outlined_looksLike (same : s.kind = t.kind) (alike : s.kind.LooksLike s.attrs t.attrs) :
    s.outlined.kind = t.outlined.kind ∧ s.outlined.attrs.LooksLike t.outlined.attrs := by
  obtain ⟨kind, a, body⟩ := s
  obtain ⟨kind', b, body'⟩ := t
  obtain rfl : kind = kind' := same
  cases kind with
  | rect => exact ⟨rfl, alike.attrs.cornered⟩
  | line => exact ⟨rfl, alike.attrs.withEnds⟩
  | polygon => exact ⟨rfl, alike.attrs.withPointText (alike.points (.inl rfl))⟩
  | polyline => exact ⟨rfl, alike.attrs.withPointText (alike.points (.inr rfl))⟩
  | roundedPolygon => exact ⟨rfl, alike.attrs.withPathData⟩
  | _ => exact ⟨rfl, alike.attrs⟩

theorem flaw?_of_looksLike (same : s.kind = t.kind) (alike : s.attrs.LooksLike t.attrs) :
    s.flaw? = t.flaw? := by
  have has : s.hasAttr = t.hasAttr := funext alike.any_get?
  have infinite : s.infiniteAttribute? = t.infiniteAttribute? := by
    rw [infiniteAttribute?, infiniteAttribute?]
    rw [OrderedMap.LooksLike] at alike
    generalize s.attrs.entries = entries, t.attrs.entries = others at alike
    induction alike with
    | nil => rfl
    | @cons entry other rest others first _ ih =>
        rw [List.find?_cons, List.find?_cons, first.2.number]
        split
        · exact congrArg some first.1
        · exact ih
  rw [flaw?, flaw?, missingAttribute?, missingAttribute?, same, has, infinite]

theorem drawnAlike_of_looksLike (options : Options) (same : s.kind = t.kind)
    (alike : s.kind.LooksLike s.attrs t.attrs) : s.DrawnAlike options Eq Eq t := by
  have outlined := outlined_looksLike same alike
  refine ⟨?_, outlined.1, ?_, ?_⟩
  · rw [Options.refusal?, Options.refusal?, flaw?_of_looksLike same alike.attrs]
    cases (if options.strict then t.flaw? else none) with
    | none => exact .none
    | some error => exact .some rfl
  · exact options.drawnAttributes_of_looksLike outlined.2.withTransform options.roundAlpha
  · rw [origin?, origin?, Option.map_eq_bind, Option.map_eq_bind]
    exact OrderedMap.LooksLike.bind_eq (congrArg some ·.display) (alike.attrs.get? "origin")

end Shape

namespace Backend

variable {σ Node : Type} [Backend σ Node]

theorem simulation_eq : Simulation (Eq (α := σ)) Eq where
  create := by rintro drawing _ rfl kind; exact ⟨rfl, rfl⟩
  setAttributes := by rintro drawing _ rfl node entries _ rfl; rfl
  append := by rintro drawing _ rfl parent child; rfl
  setText := by rintro drawing _ rfl node content; rfl
  setStyle := by rintro drawing _ rfl node property value; rfl

theorem compile_of_looksLike (options : Options) {s t : Shape} (alike : s.Matches Kind.LooksLike t)
    (drawing : σ) : compile options s drawing = compile options t drawing := by
  have drawn (u v : Shape) (kind : u.kind = v.kind)
      (looks : u.kind.LooksLike u.attrs v.attrs) : u.DrawnAlike options Eq Eq v :=
    Shape.drawnAlike_of_looksLike options kind looks
  obtain ⟨ends, after⟩ := simulation_eq.compile drawn alike (rfl : drawing = drawing)
  refine Prod.ext ?_ after
  generalize (compile options s drawing).1 = one, (compile options t drawing).1 = two at ends
  cases ends with
  | ok node => rfl
  | error same => rw [same]

end Backend

end Tracery
