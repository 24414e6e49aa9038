import Tracery.Proofs.NormalForm.Idempotence
import Tracery.Proofs.Svg.Canvas

/-! The attributes of a canvas beside those of a group. A group paints its colors as the options
say before it displays them; a canvas displays them as they are. -/

namespace Tracery

theorem Color.paint_eq_iff (c : Color) (roundAlpha : Bool) :
    c.paint true = c.paint roundAlpha ↔
      roundAlpha = true ∨ numberText (Binary.roundHalfUp c.a) = numberText c.a := by
  cases roundAlpha <;> simp [paint]

theorem Value.display_eq_display_painted_iff (value : Value) (roundAlpha : Bool) :
    value.display = (value.painted roundAlpha).display ↔
      roundAlpha = true ∨ ∀ c, value = .color c →
        numberText (Binary.roundHalfUp c.a) = numberText c.a := by
  cases value with
  | color c => simpa [painted, display] using c.paint_eq_iff roundAlpha
  | _ => simp [painted]

namespace Options

/-- The values that attributes are drawn with, by the names that they are drawn under. -/
def shownValues (options : Options) (attrs : Attrs) : Attrs :=
  .ofList ((attrs.entries.filter fun (key, value) =>
    !value.isNull && options.allows (drawnName key)).map
      fun (key, value) => (drawnName key, value))

variable (options : Options) (attrs : Attrs)

theorem ofList_drawnAttributes :
    .ofList (options.drawnAttributes attrs) =
      (options.shownValues attrs).mapValues Value.display := by
  rw [shownValues, ← OrderedMap.ofList_map, List.map_map, options.drawnAttributes_eq]
  rfl

theorem shownValues_painted (roundAlpha : Bool) :
    options.shownValues (attrs.mapValues (Value.painted roundAlpha)) =
      (options.shownValues attrs).mapValues (Value.painted roundAlpha) := by
  have test : ((fun (key, value) => !value.isNull && options.allows (drawnName key)) ∘
      fun (entry : String × Value) => (entry.1, entry.2.painted roundAlpha)) =
        fun (key, value) => !value.isNull && options.allows (drawnName key) := by
    funext entry
    simp only [Function.comp_apply, Value.isNull_painted]
  rw [shownValues, shownValues, ← OrderedMap.ofList_map, OrderedMap.mapValues, List.filter_map,
    test, List.map_map, List.map_map]
  rfl

variable {options attrs}

theorem mem_of_mem_shownValues {value : Value}
    (shown : value ∈ (options.shownValues attrs).values) : value ∈ attrs.values := by
  obtain ⟨entry, member, rfl⟩ := List.mem_map.mp shown
  obtain ⟨⟨key, value⟩, kept, rfl⟩ := List.mem_map.mp (OrderedMap.mem_of_mem_ofList member)
  exact List.mem_map.mpr ⟨_, (List.mem_filter.mp kept).1, rfl⟩

end Options

namespace Shape

variable {s : Shape} {options : Options}

def rootElement? (options : Options) (s : Shape) : Option Svg.Element :=
  match Backend.compile options s ({} : Svg.Document) with
  | (.ok root, d) => d.get? root
  | (.error _, _) => none

theorem rootElement?_of_permissive (permissive : options.strict = false) (s : Shape) :
    s.rootElement? options = some (s.element options (numbers s.children 1) none) := by
  have drawn := Backend.compile_document options s
    (fun part _ => Options.refusal?_permissive permissive part) {}
  rw [s.elements_eq] at drawn
  rw [rootElement?, drawn]
  exact Svg.Document.get?_extend_first {} _ _

theorem attrs_normalForm_of_group (group : s.kind = .group)
    (still : ∀ key ∈ transformKeys, s.attr? key = none) (roundAlpha : Bool) :
    (s.normalForm roundAlpha).attrs = s.attrs.mapValues (Value.painted roundAlpha) := by
  obtain ⟨kind, attrs, body⟩ := s
  obtain rfl := group
  exact congrArg (OrderedMap.mapValues _) (OrderedMap.withTransform_of_absent still)

theorem writtenAttrs_of_group (group : s.kind = .group)
    (still : ∀ key ∈ "origin" :: transformKeys, s.attr? key = none) (children : List Nat)
    (parent : Option Nat) :
    (s.element options children parent).writtenAttrs =
      ((options.shownValues s.attrs).mapValues
        (Value.display ∘ Value.painted options.roundAlpha)).entries := by
  rw [List.forall_mem_cons] at still
  have unstyled : (s.element options children parent).styleText? = none := by
    simp [styleText?_element, still.1]
  have shown : (s.element options children parent).attrs =
      (options.shownValues s.attrs).mapValues
        (Value.display ∘ Value.painted options.roundAlpha) := by
    rw [← OrderedMap.mapValues_mapValues, ← Options.shownValues_painted,
      ← Options.ofList_drawnAttributes, ← attrs_normalForm_of_group group still.2]
    rfl
  rw [Svg.Element.writtenAttrs, unstyled, shown, Option.map_none, Option.toList_none,
    List.append_nil]

end Shape

namespace Svg.Canvas

def rootElement? (canvas : Canvas) : Option Element := canvas.document.get? canvas.root

theorem writtenAttrs_surface {options : Options} (foreign : "xmlns" ∉ options.extraAttributes)
    (attrs : Attrs) :
    ∃ root, (surface attrs options).rootElement? = some root ∧
      root.writtenAttrs = ("xmlns", svgNamespace) ::
        ((options.shownValues attrs).mapValues Value.display).entries := by
  have fresh : "xmlns" ∉ (options.drawnAttributes attrs).map Prod.fst := by
    intro drawn
    have allowed := Options.allows_of_mem_drawnAttributes drawn
    rcases Options.allows_iff.mp allowed with standard | extra
    · exact absurd standard (by decide)
    · exact foreign extra
  rw [rootElement?, surface_eq]
  refine ⟨_, rfl, ?_⟩
  rw [← Options.ofList_drawnAttributes, ← OrderedMap.entries_ofList_cons fresh]
  exact List.append_nil _

/-- The root of a canvas has the attributes of a group whose opacities are rounded. It has those
of the group that the options draw exactly if they round opacities as well, or no color that is
drawn shows the difference. -/
theorem surface_attrs_of_group {options : Options} (permissive : options.strict = false)
    (foreign : "xmlns" ∉ options.extraAttributes) (s : Shape) (group : s.kind = .group)
    (still : ∀ key ∈ "origin" :: transformKeys, s.attr? key = none) :
    ∃ root drawn whole : Element,
      (surface s.attrs options).rootElement? = some root ∧
      s.rootElement? options = some drawn ∧
      s.rootElement? { options with roundAlpha := true } = some whole ∧
      root.writtenAttrs = ("xmlns", svgNamespace) :: whole.writtenAttrs ∧
      whole.writtenAttrs.map Prod.fst = drawn.writtenAttrs.map Prod.fst ∧
      (root.writtenAttrs = ("xmlns", svgNamespace) :: drawn.writtenAttrs ↔
        options.roundAlpha = true ∨
          ∀ c, .color c ∈ (options.shownValues s.attrs).values →
            numberText (Binary.roundHalfUp c.a) = numberText c.a) := by
  let shown := options.shownValues s.attrs
  let wholly : Options := { options with roundAlpha := true }
  have permitted : wholly.strict = false := permissive
  obtain ⟨root, made, rootAttrs⟩ := writtenAttrs_surface foreign s.attrs
  have drawnAttrs : (s.element options (Shape.numbers s.children 1) none).writtenAttrs =
      (shown.mapValues (Value.display ∘ Value.painted options.roundAlpha)).entries :=
    s.writtenAttrs_of_group group still _ none
  have wholeAttrs : (s.element wholly (Shape.numbers s.children 1) none).writtenAttrs =
      (shown.mapValues Value.display).entries := by
    rw [← funext Value.display_painted_true]
    exact s.writtenAttrs_of_group group still _ none
  refine ⟨root, _, _, made, Shape.rootElement?_of_permissive permissive s,
    Shape.rootElement?_of_permissive permitted s, ?_, ?_, ?_⟩
  · rw [rootAttrs, wholeAttrs]
  · rw [wholeAttrs, drawnAttrs]
    exact (shown.keys_mapValues _).trans (shown.keys_mapValues _).symm
  · have same : shown.mapValues Value.display = shown.mapValues
        (Value.display ∘ Value.painted options.roundAlpha) ↔
        ∀ value ∈ shown.values, options.roundAlpha = true ∨ ∀ c, value = .color c →
          numberText (Binary.roundHalfUp c.a) = numberText c.a := by
      rw [OrderedMap.mapValues_eq_iff]
      exact forall₂_congr fun value _ =>
        value.display_eq_display_painted_iff options.roundAlpha
    rw [rootAttrs, drawnAttrs, List.cons_inj_right]
    refine (Iff.intro OrderedMap.ext (congrArg _)).trans (same.trans ?_)
    constructor
    · intro each
      by_cases whole : options.roundAlpha = true
      · exact .inl whole
      · exact .inr fun c member => ((each _ member).resolve_left whole) c rfl
    · rintro (whole | plain) value member
      · exact .inl whole
      · exact .inr fun c is => plain c (is ▸ member)

theorem surface_attrs_of_group_whole :
    let red : Value := .color ⟨255, 0, 0, 1⟩
    let options : Options := { roundAlpha := false }
    let s := Shape.group [] (.ofList [("fill", red), ("stroke", .null),
      ("strokeDasharray", .list [.number 1, .color ⟨0, 0, 0, 0.5⟩])])
    options.strict = false ∧ "xmlns" ∉ options.extraAttributes ∧ s.kind = .group ∧
      (∀ key ∈ "origin" :: transformKeys, s.attr? key = none) ∧
      ∃ root drawn : Element,
        (surface s.attrs options).rootElement? = some root ∧
        s.rootElement? options = some drawn ∧
        root.writtenAttrs = ("xmlns", svgNamespace) :: drawn.writtenAttrs := by
  intro red options s
  have still : ∀ key ∈ "origin" :: transformKeys, s.attr? key = none := by decide
  have permissive : options.strict = false := rfl
  obtain ⟨root, drawn, whole, made, found, -, -, -, same⟩ :=
    surface_attrs_of_group permissive List.not_mem_nil s rfl still
  refine ⟨permissive, List.not_mem_nil, rfl, still, root, drawn, made, found, same.mpr (.inr ?_)⟩
  intro c member
  have given : .color c ∈ [red, .null, .list [.number 1, .color ⟨0, 0, 0, 0.5⟩]] :=
    Options.mem_of_mem_shownValues member
  obtain rfl : c = ⟨255, 0, 0, 1⟩ := by simpa [red] using given
  decide +kernel

/-- An opacity of a half is rounded on a canvas and not in a group. -/
theorem surface_rounds_opacity :
    let options : Options := { roundAlpha := false }
    let s := Shape.group [] (.ofList [("fill", .color ⟨0, 0, 0, 0.5⟩)])
    options.strict = false ∧ "xmlns" ∉ options.extraAttributes ∧
      (∀ key ∈ "origin" :: transformKeys, s.attr? key = none) ∧
      (surface s.attrs options).rootElement?.map Element.writtenAttrs =
        some [("xmlns", svgNamespace), ("fill", "rgba(0,0,0,1)")] ∧
      (s.rootElement? options).map Element.writtenAttrs =
        some [("fill", "rgba(0,0,0,0.5)")] := by
  intro options s
  have permissive : options.strict = false := rfl
  have drawn := Shape.rootElement?_of_permissive permissive s
  refine ⟨permissive, List.not_mem_nil, by decide, ?_, ?_⟩
  · rw [rootElement?, surface_eq]
    decide +kernel
  · rw [drawn]
    decide +kernel

end Svg.Canvas
end Tracery
