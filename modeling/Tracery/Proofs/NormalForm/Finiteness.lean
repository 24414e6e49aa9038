import Tracery.Proofs.Drawing.Calls
import Tracery.Proofs.NormalForm.Mentions
import Tracery.Proofs.NormalForm.Transform

/-! The numbers that strict drawing does not look at. It looks at attributes that are numbers,
and at no coordinate, channel or item, nor at what geometry and transforms are computed to. -/

namespace Tracery

open Text (MentionsInfinite)

namespace Value

/-- The numbers in a value that is not a number itself. -/
def innerNumbers : Value → List Float
  | .number _ => []
  | value => value.numbers

theorem anyInfinite_of_innerNumbers {value : Value} (infinite : AnyInfinite value.innerNumbers) :
    AnyInfinite value.numbers := by
  cases value with
  | number x => exact absurd infinite not_anyInfinite_nil
  | _ => exact infinite

def isStep (value : Value) : Bool := !(value.components.isEmpty || value.components.any isNull)

theorem transformStep?_eq (name : String) (value : Value) :
    transformStep? name value =
      if value.isStep then
        some (name ++ "(" ++ ",".intercalate (value.components.map display) ++ ")")
      else none := by
  rw [transformStep?, isStep]
  cases value.components.isEmpty || value.components.any isNull <;> rfl

end Value

namespace OrderedMap

variable (attrs : Attrs)

def centeredEdge? (edge length : String) (center : Option Value) : Option Float :=
  match center with
  | none => none
  | some center =>
      if (attrs.get? edge).any (!·.isNull) then none
      else some (center.number?.getD (0 / 0) - attrs.numberOr length (0 / 0) / 2)

theorem placeEdge_eq (edge length : String) (center : Option Value) :
    attrs.placeEdge edge length center =
      match attrs.centeredEdge? edge length center with
      | some x => attrs.insert edge (.number x)
      | none => attrs := by
  unfold placeEdge centeredEdge?
  cases center with
  | none => rfl
  | some center =>
      simp only
      split <;> rfl

def edgeNumbers : List Float :=
  let sized := (attrs.rename "w" "width").rename "h" "height"
  let bare := sized.eraseAll ["cx", "cy"]
  let placed := bare.placeEdge "x" "width" (sized.get? "cx")
  (bare.centeredEdge? "x" "width" (sized.get? "cx")).toList ++
    (placed.centeredEdge? "y" "height" (sized.get? "cy")).toList

def endNumbers : List Float :=
  match (attrs.get? "start").bind Value.vector?, (attrs.get? "end").bind Value.vector? with
  | some first, some last => first.numbers ++ last.numbers
  | _, _ => []

def pointNumbers : List Float :=
  match attrs.get? "points" with
  | some (.list points) => Value.numbersAll points
  | _ => []

def roundedPolygonPath : List PathCommand :=
  roundedPolygon ⟨attrs.numberOr "x" 0, attrs.numberOr "y" 0⟩ (attrs.numberOr "width" (0 / 0))
    (sideCount (attrs.numberOr "sides" 3)) (attrs.numberOr "r" (0 / 0))

/-- The coordinates of the path of a rounded polygon without path data of its own. -/
def pathNumbers : List Float :=
  if (attrs.get? "d").isSome then [] else attrs.roundedPolygonPath.flatMap PathCommand.numbers

def namedSteps : List (String × Option Value) :=
  [("translate", attrs.translation?), ("rotate", attrs.get? "rotate"),
    ("scale", attrs.get? "scale")]

theorem transformSteps_eq : attrs.transformSteps =
    attrs.namedSteps.filterMap fun (name, value) => value.bind (transformStep? name) := rfl

def stepValues : List Value := attrs.namedSteps.filterMap (·.2.filter Value.isStep)

end OrderedMap

namespace Shape

/-- The numbers that the geometry of a shape is computed to. -/
def outlineNumbers (s : Shape) : List Float :=
  match s.kind with
  | .rect => s.attrs.edgeNumbers
  | .line => s.attrs.endNumbers
  | .polygon | .polyline => s.attrs.pointNumbers
  | .roundedPolygon => s.attrs.pathNumbers
  | .circle | .ellipse | .path | .group | .clipPath | .mask | .text => []

def drawnValues (options : Options) (s : Shape) : List Value :=
  (s.outlined.attrs.withTransform.entries.filter fun (key, _) =>
    options.allows (drawnName key)).map Prod.snd

/-- The numbers that a shape is drawn with and strict drawing does not look at. -/
def uncheckedNumbers (options : Options) (s : Shape) : List Float :=
  (s.drawnValues options).flatMap Value.innerNumbers ++ s.outlineNumbers ++
    s.attrs.stepValues.flatMap Value.innerNumbers

end Shape

namespace OrderedMap

variable {attrs : Attrs} {value : Value}

theorem mem_values_insert {key : String} {new : Value}
    (member : value ∈ (attrs.insert key new).values) : value = new ∨ value ∈ attrs.values := by
  obtain ⟨asked, held⟩ := mem_values_iff.mp member
  rw [get?_insert] at held
  split at held
  · exact .inl (Option.some.inj held).symm
  · exact .inr (mem_values_iff.mpr ⟨asked, held⟩)

theorem mem_values_insertAll {entries : List (String × Value)}
    (member : value ∈ (attrs.insertAll entries).values) :
    value ∈ entries.map Prod.snd ∨ value ∈ attrs.values := by
  induction entries generalizing attrs with
  | nil => exact .inr member
  | cons entry rest ih =>
      rcases ih member with later | before
      · exact .inl (List.mem_cons_of_mem _ later)
      · rcases mem_values_insert before with rfl | before
        · exact .inl List.mem_cons_self
        · exact .inr before

theorem mem_values_restrict {keep : String → Bool}
    (member : value ∈ (attrs.restrict keep).values) : value ∈ attrs.values := by
  obtain ⟨asked, held⟩ := mem_values_iff.mp member
  rw [get?_restrict] at held
  split at held
  · exact mem_values_iff.mpr ⟨asked, held⟩
  · cases held

theorem mem_values_rename {key newKey : String}
    (member : value ∈ (attrs.rename key newKey).values) : value ∈ attrs.values := by
  unfold rename at member
  cases given : attrs.get? key with
  | none => rwa [given] at member
  | some moved =>
      rw [given] at member
      rcases mem_values_insert member with rfl | before
      · exact mem_values_iff.mpr ⟨key, given⟩
      · exact mem_values_restrict before

theorem mem_values_placeEdge {edge length : String} {center : Option Value}
    (member : value ∈ (attrs.placeEdge edge length center).values) :
    value ∈ (attrs.centeredEdge? edge length center).toList.map Value.number ∨
      value ∈ attrs.values := by
  rw [placeEdge_eq] at member
  cases placed : attrs.centeredEdge? edge length center with
  | none =>
      rw [placed] at member
      exact .inr member
  | some x =>
      rw [placed] at member
      rcases mem_values_insert member with rfl | before
      · exact .inl List.mem_cons_self
      · exact .inr before

theorem mem_values_cornered (member : value ∈ attrs.cornered.values) :
    value ∈ attrs.edgeNumbers.map Value.number ∨ value ∈ attrs.values := by
  rw [edgeNumbers, List.map_append, List.mem_append]
  rcases mem_values_placeEdge member with tall | member
  · exact .inl (.inr tall)
  · rcases mem_values_placeEdge member with wide | member
    · exact .inl (.inl wide)
    · exact .inr (mem_values_rename (mem_values_rename (mem_values_restrict member)))

theorem mem_values_withEnds (member : value ∈ attrs.withEnds.values) :
    value ∈ attrs.endNumbers.map Value.number ∨ value ∈ attrs.values := by
  unfold withEnds at member
  split at member
  next first last start finish =>
    rw [endNumbers, start, finish]
    exact (mem_values_insertAll member).imp_right mem_values_restrict
  next => exact .inr (mem_values_restrict member)

theorem mentionsInfinite_points {points : List Value}
    (plain : ∀ value ∈ attrs.values, value.IsPlain)
    (given : attrs.get? "points" = some (.list points)) :
    MentionsInfinite (" ".intercalate (points.map Value.display)) ↔
      AnyInfinite attrs.pointNumbers := by
  have items := (plain _ (mem_values_iff.mpr ⟨_, given⟩)).of_list
  rw [pointNumbers, given]
  exact Value.mentionsInfinite_displays Text.isMark_blank
    fun item member => Value.mentionsInfinite_display (items item member)

theorem mem_values_withPointText (plain : ∀ value ∈ attrs.values, value.IsPlain)
    (member : value ∈ attrs.withPointText.values) :
    (MentionsInfinite value.display ↔ AnyInfinite attrs.pointNumbers) ∨ value ∈ attrs.values := by
  unfold withPointText at member
  split at member
  next points given =>
    rcases mem_values_insert member with rfl | before
    · exact .inl (mentionsInfinite_points plain given)
    · exact .inr before
  next => exact .inr member

theorem mem_values_withPathData (member : value ∈ attrs.withPathData.values) :
    (MentionsInfinite value.display ↔ AnyInfinite attrs.pathNumbers) ∨ value ∈ attrs.values := by
  obtain ⟨key, held⟩ := mem_values_iff.mp member
  by_cases path : key = "d"
  · subst path
    rw [get?_withPathData_self] at held
    cases given : attrs.get? "d" with
    | none =>
        rw [given] at held
        obtain rfl := Option.some.inj held
        left
        rw [pathNumbers, given]
        exact mentionsInfinite_pathData attrs.roundedPolygonPath
    | some data =>
        rw [given] at held
        exact .inr (mem_values_iff.mpr ⟨"d", given.trans held⟩)
  · rw [get?_withPathData_of_ne path] at held
    exact .inr (mem_values_iff.mpr ⟨key, held⟩)

theorem mem_values_withTransform (member : value ∈ attrs.withTransform.values) :
    value = .text (" ".intercalate attrs.transformSteps) ∨ value ∈ attrs.values := by
  unfold withTransform at member
  split at member
  next => exact .inr (mem_values_restrict member)
  next => exact (mem_values_insert member).imp_right mem_values_restrict

theorem get?_placeEdge_of_centered {edge length : String} {center : Option Value} {x : Float}
    (placed : attrs.centeredEdge? edge length center = some x) :
    (attrs.placeEdge edge length center).get? edge = some (.number x) := by
  rw [placeEdge_eq, placed]
  simp

theorem exists_of_mem_edgeNumbers {x : Float} (member : x ∈ attrs.edgeNumbers) :
    ∃ key ∈ ["x", "y"], attrs.cornered.get? key = some (.number x) := by
  rw [edgeNumbers, List.mem_append, Option.mem_toList, Option.mem_toList] at member
  rcases member with wide | tall
  · refine ⟨"x", by decide, ?_⟩
    rw [cornered, get?_placeEdge_of_ne _ _ _ (by decide)]
    exact get?_placeEdge_of_centered wide
  · exact ⟨"y", by decide, get?_placeEdge_of_centered tall⟩

theorem exists_of_mem_endNumbers {x : Float} (member : x ∈ attrs.endNumbers) :
    ∃ key ∈ ["x1", "y1", "x2", "y2"], attrs.withEnds.get? key = some (.number x) := by
  unfold endNumbers at member
  split at member
  next first last start finish =>
    simp only [Vec.numbers, List.mem_append, List.mem_cons, List.not_mem_nil, or_false] at member
    unfold withEnds
    rw [start, finish]
    rcases member with (rfl | rfl) | (rfl | rfl)
    · exact ⟨"x1", by decide, by simp⟩
    · exact ⟨"y1", by decide, by simp⟩
    · exact ⟨"x2", by decide, by simp⟩
    · exact ⟨"y2", by decide, by simp⟩
  next => cases member

theorem exists_of_pointNumbers (plain : ∀ value ∈ attrs.values, value.IsPlain)
    (infinite : AnyInfinite attrs.pointNumbers) :
    ∃ value, attrs.withPointText.get? "points" = some value ∧ MentionsInfinite value.display := by
  cases given : attrs.get? "points" with
  | none =>
      rw [pointNumbers, given] at infinite
      exact absurd infinite not_anyInfinite_nil
  | some value =>
      cases value with
      | list points =>
          refine ⟨.text (" ".intercalate (points.map Value.display)), ?_,
            (mentionsInfinite_points plain given).mpr infinite⟩
          rw [withPointText, given, get?_insert, if_pos rfl]
      | _ =>
          rw [pointNumbers, given] at infinite
          exact absurd infinite not_anyInfinite_nil

theorem get?_withPathData_of_pathNumbers (infinite : AnyInfinite attrs.pathNumbers) :
    attrs.withPathData.get? "d" = some (.text attrs.roundedPolygonData) ∧
      MentionsInfinite attrs.roundedPolygonData := by
  rw [pathNumbers] at infinite
  split at infinite
  next => exact absurd infinite not_anyInfinite_nil
  next absent =>
    rw [Option.not_isSome_iff_eq_none] at absent
    rw [get?_withPathData_self, absent]
    exact ⟨rfl, (mentionsInfinite_pathData attrs.roundedPolygonPath).mpr infinite⟩

end OrderedMap

namespace Shape

variable {s : Shape}

theorem mem_values_outlined (plain : ∀ value ∈ s.attrs.values, value.IsPlain) {value : Value}
    (member : value ∈ s.outlined.attrs.values) :
    (MentionsInfinite value.display → AnyInfinite s.outlineNumbers) ∨ value ∈ s.attrs.values := by
  have computed {numbers : List Float} (listed : value ∈ numbers.map Value.number) :
      MentionsInfinite value.display → AnyInfinite numbers := by
    obtain ⟨x, known, rfl⟩ := List.mem_map.mp listed
    exact fun mentions => ⟨x, known, (mentionsInfinite_numberText x).mp mentions⟩
  obtain ⟨kind, attrs, body⟩ := s
  cases kind with
  | rect => exact (OrderedMap.mem_values_cornered member).imp_left computed
  | line => exact (OrderedMap.mem_values_withEnds member).imp_left computed
  | polygon => exact (OrderedMap.mem_values_withPointText plain member).imp_left Iff.mp
  | polyline => exact (OrderedMap.mem_values_withPointText plain member).imp_left Iff.mp
  | roundedPolygon => exact (OrderedMap.mem_values_withPathData member).imp_left Iff.mp
  | _ => exact .inr member

def outlineNames : List String := ["x", "y", "x1", "y1", "x2", "y2", "points", "d"]

theorem exists_of_outlineNumbers (plain : ∀ value ∈ s.attrs.values, value.IsPlain)
    (infinite : AnyInfinite s.outlineNumbers) :
    ∃ key ∈ outlineNames, ∃ value, s.outlined.attr? key = some value ∧
      MentionsInfinite value.display := by
  have number {names : List String} {x : Float} (large : Binary.isFinite x = false)
      (listed : ∀ name ∈ names, name ∈ outlineNames)
      (held : ∃ key ∈ names, s.outlined.attr? key = some (.number x)) :
      ∃ key ∈ outlineNames, ∃ value, s.outlined.attr? key = some value ∧
        MentionsInfinite value.display := by
    obtain ⟨key, known, held⟩ := held
    exact ⟨key, listed key known, _, held, (mentionsInfinite_numberText x).mpr large⟩
  obtain ⟨kind, attrs, body⟩ := s
  cases kind with
  | rect =>
      obtain ⟨x, member, large⟩ := infinite
      exact number large (by decide) (OrderedMap.exists_of_mem_edgeNumbers member)
  | line =>
      obtain ⟨x, member, large⟩ := infinite
      exact number large (by decide) (OrderedMap.exists_of_mem_endNumbers member)
  | polygon =>
      exact ⟨"points", by decide, OrderedMap.exists_of_pointNumbers plain infinite⟩
  | polyline =>
      exact ⟨"points", by decide, OrderedMap.exists_of_pointNumbers plain infinite⟩
  | roundedPolygon =>
      exact ⟨"d", by decide, _, OrderedMap.get?_withPathData_of_pathNumbers infinite⟩
  | _ => exact absurd infinite not_anyInfinite_nil

end Shape

namespace Value

theorem anyInfinite_components (value : Value) :
    AnyInfinite (numbersAll value.components) ↔ AnyInfinite value.numbers := by
  cases value <;> simp [components, numbersAll, numbers]

theorem IsPlain.components {value : Value} (plain : value.IsPlain) :
    ∀ item ∈ value.components, item.IsPlain := by
  cases value with
  | list items => exact plain.of_list
  | vector v => simp [Value.components, IsPlain, texts]
  | _ => simpa [Value.components] using plain

theorem mentionsInfinite_step {name : String} (bare : ¬ MentionsInfinite (name ++ "("))
    {value : Value} (plain : value.IsPlain) :
    MentionsInfinite (name ++ "(" ++ ",".intercalate (value.components.map display) ++ ")") ↔
      AnyInfinite value.numbers := by
  have last : (name ++ "(").toList.getLast? = some '(' := by simp
  rw [Text.mentionsInfinite_append_mark Text.isMark_close,
    Text.mentionsInfinite_append_of_last last (by decide), or_iff_right bare,
    mentionsInfinite_displays Text.isMark_comma
      (fun item member => mentionsInfinite_display (plain.components item member)),
    anyInfinite_components]

end Value

namespace OrderedMap

variable {attrs : Attrs}

theorem of_mem_namedSteps {name : String} {value : Value}
    (member : (name, some value) ∈ attrs.namedSteps) :
    value ∈ attrs.values ∨
      ∃ items, value = .list items ∧ ∀ item ∈ items, item ∈ attrs.values ∨ item = .number 0 := by
  have axis (key : String) : (attrs.present? key).getD (.number 0) ∈ attrs.values ∨
      (attrs.present? key).getD (.number 0) = .number 0 := by
    cases there : attrs.present? key with
    | none => exact .inr rfl
    | some value => exact .inl (mem_values_iff.mpr ⟨key, (present?_eq_some_iff.mp there).1⟩)
  simp only [namedSteps, List.mem_cons, Prod.mk.injEq, List.not_mem_nil, or_false] at member
  rcases member with ⟨-, move⟩ | ⟨-, turn⟩ | ⟨-, scaling⟩
  · rw [translation?] at move
    split at move
    next => exact .inl (mem_values_iff.mpr ⟨_, move.symm⟩)
    next =>
      obtain rfl := Option.some.inj move
      refine .inr ⟨_, rfl, ?_⟩
      simp only [List.forall_mem_cons]
      exact ⟨axis "translateX", axis "translateY", List.forall_mem_nil _⟩
  · exact .inl (mem_values_iff.mpr ⟨_, turn.symm⟩)
  · exact .inl (mem_values_iff.mpr ⟨_, scaling.symm⟩)

theorem isPlain_of_mem_namedSteps (plain : ∀ value ∈ attrs.values, value.IsPlain) {name : String}
    {value : Value} (member : (name, some value) ∈ attrs.namedSteps) : value.IsPlain := by
  rcases of_mem_namedSteps member with known | ⟨items, rfl, each⟩
  · exact plain value known
  · intro content inside
    obtain ⟨item, known, inside⟩ := Value.mem_textsAll.mp inside
    rcases each item known with given | rfl
    · exact plain item given content inside
    · cases inside

theorem number_mem_of_stepValues {x : Float} (member : .number x ∈ attrs.stepValues) :
    .number x ∈ attrs.values := by
  obtain ⟨⟨name, given⟩, known, kept⟩ := List.mem_filterMap.mp member
  obtain ⟨rfl, -⟩ := Option.filter_eq_some_iff.mp kept
  rcases of_mem_namedSteps known with held | ⟨items, is, -⟩
  · exact held
  · cases is

theorem not_mentionsInfinite_stepName {name : String} {value : Option Value}
    (member : (name, value) ∈ attrs.namedSteps) : ¬ MentionsInfinite (name ++ "(") := by
  simp only [namedSteps, List.mem_cons, Prod.mk.injEq, List.not_mem_nil, or_false] at member
  rcases member with ⟨rfl, -⟩ | ⟨rfl, -⟩ | ⟨rfl, -⟩ <;> decide

theorem mentionsInfinite_transformSteps (plain : ∀ value ∈ attrs.values, value.IsPlain) :
    MentionsInfinite (" ".intercalate attrs.transformSteps) ↔
      ∃ value ∈ attrs.stepValues, AnyInfinite value.numbers := by
  have step {name : String} {value : Value} (member : (name, some value) ∈ attrs.namedSteps) :=
    Value.mentionsInfinite_step (not_mentionsInfinite_stepName member)
      (isPlain_of_mem_namedSteps plain member)
  rw [Text.mentionsInfinite_intercalate Text.isMark_blank, transformSteps_eq]
  simp only [stepValues, List.mem_filterMap, Prod.exists]
  constructor
  · rintro ⟨_, ⟨name, given, member, made⟩, mentions⟩
    obtain ⟨value, rfl, spelled⟩ := Option.bind_eq_some_iff.mp made
    rw [Value.transformStep?_eq] at spelled
    split at spelled
    next written =>
      cases spelled
      exact ⟨value, ⟨name, some value, member, by simp [written]⟩, (step member).mp mentions⟩
    next => cases spelled
  · rintro ⟨value, ⟨name, given, member, kept⟩, infinite⟩
    obtain ⟨rfl, written⟩ := Option.filter_eq_some_iff.mp kept
    refine ⟨_, ⟨name, some value, member, ?_⟩, (step member).mpr infinite⟩
    rw [Option.bind_some, Value.transformStep?_eq, if_pos written]

end OrderedMap

namespace Shape

variable {options : Options} {s : Shape}

theorem mem_drawnValues {value : Value} : value ∈ s.drawnValues options ↔
    ∃ key, s.outlined.attrs.withTransform.get? key = some value ∧
      options.allows (drawnName key) = true := by
  simp only [drawnValues, List.mem_map, List.mem_filter, Prod.exists, exists_eq_right]
  simp only [OrderedMap.mem_entries_iff]

theorem mentionsInfinite_drawnAttributes :
    (∃ entry ∈ options.drawnAttributes (s.normalForm options.roundAlpha).attrs,
      MentionsInfinite entry.2) ↔
    ∃ value ∈ s.drawnValues options, MentionsInfinite value.display := by
  simp only [Prod.exists, Options.mem_drawnAttributes]
  constructor
  · rintro ⟨_, _, ⟨key, painted, member, -, allowed, rfl, rfl⟩, mentions⟩
    rw [normalForm, attrs_withAttrs, OrderedMap.get?_mapValues] at member
    obtain ⟨value, held, rfl⟩ := Option.map_eq_some_iff.mp member
    exact ⟨value, mem_drawnValues.mpr ⟨key, held, allowed⟩,
      (value.mentionsInfinite_painted _).mp mentions⟩
  · rintro ⟨value, member, mentions⟩
    obtain ⟨key, held, allowed⟩ := mem_drawnValues.mp member
    have present : value.isNull = false := by
      cases value with
      | null => exact absurd mentions (by decide)
      | _ => rfl
    have entry : (s.normalForm options.roundAlpha).attrs.get? key =
        some (value.painted options.roundAlpha) := by
      rw [normalForm, attrs_withAttrs, OrderedMap.get?_mapValues, held]
      rfl
    exact ⟨_, _, ⟨key, _, entry, (value.isNull_painted _).trans present, allowed, rfl, rfl⟩,
      (value.mentionsInfinite_painted _).mpr mentions⟩

theorem isFinite_of_sound (sound : s.flaw? = none) {x : Float}
    (member : .number x ∈ s.attrs.values) : Binary.isFinite x = true := by
  have none : s.infiniteAttribute? = none := by
    unfold flaw? at sound
    split at sound
    next => cases sound
    next => cases sound
    next infinite => exact infinite
  rw [infiniteAttribute?, Option.map_eq_none_iff, List.find?_eq_none] at none
  obtain ⟨entry, known, same⟩ := List.mem_map.mp member
  have finite := none entry known
  rw [same] at finite
  simpa [Value.number?] using finite

theorem mem_drawnValues_of_outlineNames {key : String} (named : key ∈ outlineNames)
    {value : Value} (held : s.outlined.attr? key = some value) :
    value ∈ s.drawnValues options := by
  have names : ∀ key ∈ outlineNames, drawnName key = key ∧
      key ∈ standardAttributes ∧ key ≠ "transform" ∧ key ∉ transformKeys := by
    decide
  obtain ⟨own, standard, other, kept⟩ := names key named
  refine mem_drawnValues.mpr ⟨key, ?_, ?_⟩
  · rw [OrderedMap.get?_withTransform _ other, if_neg kept]
    exact held
  · rw [own]
    exact Options.allows_iff.mpr (.inl standard)

theorem transformText_mem_drawnValues (some : s.attrs.transformSteps ≠ []) :
    .text (" ".intercalate s.attrs.transformSteps) ∈ s.drawnValues options := by
  refine mem_drawnValues.mpr ⟨"transform", ?_, ?_⟩
  · rw [← transformSteps_outlined] at some ⊢
    unfold OrderedMap.withTransform
    split
    next none => exact absurd none some
    next => simp
  · exact Options.allows_iff.mpr (.inl (by decide))

theorem anyInfinite_innerNumbers (sound : s.flaw? = none) {value : Value}
    (number : ∀ x, value = .number x → value ∈ s.attrs.values)
    (infinite : AnyInfinite value.numbers) : AnyInfinite value.innerNumbers := by
  cases value with
  | number x =>
      -- A number that is an attribute itself is checked.
      have finite := isFinite_of_sound sound (number x rfl)
      rw [Value.numbers, anyInfinite_singleton, finite] at infinite
      cases infinite
  | _ => exact infinite

theorem mentionsInfinite_drawn_iff (sound : s.flaw? = none)
    (plain : ∀ value ∈ s.attrs.values, value.IsPlain) :
    (∃ entry ∈ options.drawnAttributes (s.normalForm options.roundAlpha).attrs,
      MentionsInfinite entry.2) ↔ AnyInfinite (s.uncheckedNumbers options) := by
  rw [mentionsInfinite_drawnAttributes, uncheckedNumbers, anyInfinite_append, anyInfinite_append,
    anyInfinite_flatMap, anyInfinite_flatMap]
  constructor
  · rintro ⟨value, member, mentions⟩
    obtain ⟨key, held, -⟩ := mem_drawnValues.mp member
    rcases OrderedMap.mem_values_withTransform (OrderedMap.mem_values_iff.mpr ⟨key, held⟩)
      with rfl | outlined
    · right
      rw [transformSteps_outlined] at mentions
      obtain ⟨value, step, infinite⟩ :=
        (OrderedMap.mentionsInfinite_transformSteps plain).mp mentions
      refine ⟨value, step, anyInfinite_innerNumbers sound ?_ infinite⟩
      rintro x rfl
      exact OrderedMap.number_mem_of_stepValues step
    · left
      rcases mem_values_outlined plain outlined with computed | given
      · exact .inr (computed mentions)
      · refine .inl ⟨value, member, anyInfinite_innerNumbers sound (fun _ _ => given) ?_⟩
        exact (Value.mentionsInfinite_display (plain value given)).mp mentions
  · rintro ((⟨value, member, infinite⟩ | infinite) | ⟨value, step, infinite⟩)
    · have whole := Value.anyInfinite_of_innerNumbers infinite
      exact ⟨value, member, Value.mentionsInfinite_of_anyInfinite whole⟩
    · obtain ⟨key, named, value, held, mentions⟩ := exists_of_outlineNumbers plain infinite
      exact ⟨value, mem_drawnValues_of_outlineNames named held, mentions⟩
    · have whole := Value.anyInfinite_of_innerNumbers infinite
      have mentions : MentionsInfinite (" ".intercalate s.attrs.transformSteps) :=
        (OrderedMap.mentionsInfinite_transformSteps plain).mpr ⟨value, step, whole⟩
      have some : s.attrs.transformSteps ≠ [] := by
        intro none
        rw [none] at mentions
        exact absurd mentions (by decide)
      exact ⟨_, transformText_mem_drawnValues some, mentions⟩

end Shape

/-- Strict drawing of a tree whose texts are plain, if it succeeds, sets no attribute to a text
with a number in it that is not finite exactly if the unchecked numbers are finite. -/
theorem compile_strict_finite {options : Options} (strict : options.strict = true) {s : Shape}
    (plain : ∀ part ∈ s.preorder, ∀ value ∈ part.attrs.values, value.IsPlain) (t : Transcript)
    (succeeds : ∃ root, (Backend.compile options s t).1 = .ok root) :
    ∃ calls, (Backend.compile options s t).2 = t.extend calls s.size ∧
      ((∀ node name value, .setAttribute node name value ∈ calls → ¬ MentionsInfinite value) ↔
        ∀ part ∈ s.preorder, ∀ x ∈ part.uncheckedNumbers options, Binary.isFinite x = true) := by
  rw [Backend.compile_isOk_iff] at succeeds
  have sound : ∀ part ∈ s.preorder, part.flaw? = none := by
    intro part member
    have accepted := succeeds part member
    rwa [Options.refusal?, if_pos strict] at accepted
  refine ⟨s.calls options t.nextNode, ?_, ?_⟩
  · rw [Backend.compile_of_accepted options options.strict s succeeds]
  · have drawn (part : Shape) (member : part ∈ s.preorder) :
        (∃ entry ∈ options.drawnAttributes (part.normalForm options.roundAlpha).attrs,
          MentionsInfinite entry.2) ↔ AnyInfinite (part.uncheckedNumbers options) :=
      Shape.mentionsInfinite_drawn_iff (sound part member) (plain part member)
    constructor
    · intro clean part member x known
      by_contra infinite
      obtain ⟨entry, set, mentions⟩ := (drawn part member).mpr
        ⟨x, known, Bool.eq_false_of_not_eq_true infinite⟩
      obtain ⟨node, call⟩ := (Shape.exists_setAttribute_mem_calls options entry.1 entry.2 s
        t.nextNode).mpr ⟨part, member, set⟩
      exact clean node _ _ call mentions
    · intro finite node name value call mentions
      obtain ⟨part, member, set⟩ := (Shape.exists_setAttribute_mem_calls options name value s
        t.nextNode).mp ⟨node, call⟩
      obtain ⟨x, known, infinite⟩ := (drawn part member).mp ⟨(name, value), set, mentions⟩
      rw [finite part member x known] at infinite
      cases infinite

theorem compile_strict_finite_moved :
    let one := Binary.ofNat 1
    let s := Shape.new .circle
      (.ofList [("id", .text "a"), ("r", .number one), ("translate", .vector ⟨one, one⟩)])
    let options : Options := { strict := true }
    options.strict = true ∧
      (∀ part ∈ s.preorder, ∀ value ∈ part.attrs.values, value.IsPlain) ∧
      (∃ root, (Backend.compile options s ({} : Transcript)).1 = .ok root) ∧
      ∃ calls, (Backend.compile options s {}).2 = ({} : Transcript).extend calls s.size ∧
        ∀ node name value, .setAttribute node name value ∈ calls → ¬ MentionsInfinite value := by
  intro one s options
  have plain : ∀ part ∈ s.preorder, ∀ value ∈ part.attrs.values, value.IsPlain := by
    rintro part (_ | ⟨_, ⟨⟩⟩) value (_ | ⟨_, _ | ⟨_, _ | ⟨_, ⟨⟩⟩⟩⟩)
    · rintro content (_ | ⟨_, ⟨⟩⟩)
      decide
    · nofun
    · nofun
  have succeeds : ∃ root, (Backend.compile options s ({} : Transcript)).1 = .ok root := by
    rw [Backend.compile_isOk_iff]
    rintro part (_ | ⟨_, ⟨⟩⟩)
    decide +kernel
  obtain ⟨calls, drawn, clean⟩ := compile_strict_finite rfl plain {} succeeds
  refine ⟨rfl, plain, succeeds, calls, drawn, clean.mpr ?_⟩
  rintro part (_ | ⟨_, ⟨⟩⟩)
  decide +kernel

/-- A point that is not a number passes strict drawing. -/
theorem compile_strict_nan_point :
    let s := Shape.new .polygon (.ofList [("points", .list [.vector ⟨0 / 0, 0⟩])])
    (∀ part ∈ s.preorder, ∀ value ∈ part.attrs.values, value.IsPlain) ∧
      Backend.compile { strict := true } s ({} : Transcript) =
        (.ok 0,
          { calls := #[.create 0 .polygon, .setAttribute 0 "points" "NaN,0"], nextNode := 1 }) ∧
      MentionsInfinite "NaN,0" := by
  intro s
  refine ⟨?_, ?_, by decide⟩
  · rintro part (_ | ⟨_, ⟨⟩⟩) value (_ | ⟨_, ⟨⟩⟩)
    nofun
  · have accepted : ∀ part ∈ s.preorder,
        ({ strict := true } : Options).refusal? part = none := by
      rintro part (_ | ⟨_, ⟨⟩⟩)
      decide +kernel
    rw [Backend.compile_of_accepted { strict := true } true s accepted]
    decide +kernel

end Tracery
