import Tracery.Proofs.Drawing.Names
import Tracery.Proofs.NormalForm.Presence

/-! Attributes that options are told to draw. Their values come through the normal form, and they
are drawn if their names are such as drawings have. -/

namespace Tracery

namespace Kind

/-- The attributes that outlining a kind may leave out or change, also if they are there and not
null. -/
def recastKeys : Kind → List String
  | .rect => ["w", "h", "cx", "cy", "width", "height"]
  | .line => ["start", "end", "x1", "y1", "x2", "y2"]
  | .polygon | .polyline => ["points"]
  | _ => []

def rewrittenKeys (kind : Kind) : List String := kind.recastKeys ++ "transform" :: transformKeys

end Kind

namespace OrderedMap

variable {attrs : Attrs} {key : String} {value : Value}

theorem present?_placeEdge (there : attrs.present? key = some value) (edge length : String)
    (center : Option Value) : (attrs.placeEdge edge length center).present? key = some value := by
  by_cases same : key = edge
  · subst same
    rw [placeEdge_of_present there, there]
  · rw [present?, get?_placeEdge_of_ne _ _ _ same]
    exact there

theorem present?_cornered (there : attrs.present? key = some value)
    (kept : key ∉ Kind.recastKeys .rect) : attrs.cornered.present? key = some value := by
  simp only [Kind.recastKeys, List.mem_cons, List.not_mem_nil, or_false, not_or] at kept
  obtain ⟨w, h, cx, cy, width, height⟩ := kept
  apply present?_placeEdge
  apply present?_placeEdge
  simp [present?_eraseAll, present?_rename_of_ne, w, h, cx, cy, width, height, there]

theorem present?_withEnds (there : attrs.present? key = some value)
    (kept : key ∉ Kind.recastKeys .line) : attrs.withEnds.present? key = some value := by
  simp only [Kind.recastKeys, List.mem_cons, List.not_mem_nil, or_false, not_or] at kept
  obtain ⟨start, last, x1, y1, x2, y2⟩ := kept
  unfold withEnds
  split <;> simp [present?_insert, present?_eraseAll, start, last, x1, y1, x2, y2, there]

theorem present?_withPointText (there : attrs.present? key = some value)
    (kept : key ∉ Kind.recastKeys .polygon) : attrs.withPointText.present? key = some value := by
  have other : key ≠ "points" := List.ne_of_not_mem_cons kept
  unfold withPointText
  split <;> simp [present?_insert, other, there]

theorem present?_withPathData (there : attrs.present? key = some value) :
    attrs.withPathData.present? key = some value := by
  obtain ⟨known, solid⟩ := present?_eq_some_iff.mp there
  rw [present?_eq_some_iff, withPathData, get?_merge, known]
  exact ⟨rfl, solid⟩

end OrderedMap

namespace Shape

variable {s : Shape} {key : String} {value : Value}

theorem present?_outlined (there : s.attrs.present? key = some value)
    (kept : key ∉ s.kind.recastKeys) : s.outlined.attrs.present? key = some value := by
  obtain ⟨kind, attrs, body⟩ := s
  cases kind with
  | rect => exact OrderedMap.present?_cornered there kept
  | line => exact OrderedMap.present?_withEnds there kept
  | polygon | polyline => exact OrderedMap.present?_withPointText there kept
  | roundedPolygon => exact OrderedMap.present?_withPathData there
  | _ => exact there

theorem attr?_normalForm_of_kept (given : s.attr? key = some value)
    (present : value.isNull = false) (kept : key ∉ s.kind.rewrittenKeys) (roundAlpha : Bool) :
    (s.normalForm roundAlpha).attr? key = some (value.painted roundAlpha) := by
  rw [Kind.rewrittenKeys, List.mem_append, List.mem_cons, not_or, not_or] at kept
  obtain ⟨outlineKept, other, transformKept⟩ := kept
  have there : s.attrs.present? key = some value :=
    OrderedMap.present?_eq_some_iff.mpr ⟨given, present⟩
  have outlined : s.outlined.attr? key = some value :=
    (OrderedMap.present?_eq_some_iff.mp (present?_outlined there outlineKept)).1
  rw [attr?_normalForm other, if_neg transformKept, outlined, Option.map_some]

end Shape

/-- A configured attribute that the normal form keeps is drawn on the node of its shape, under its
own name, if drawings have such names. Otherwise no node gets an attribute of that name, and it is
drawn under the name that its own is turned into exactly if that name is allowed too. -/
theorem compile_sets_configured {options : Options} (permissive : options.strict = false)
    (s : Shape) (t : Transcript) {part : Shape} {node : Nat}
    (placed : (part, node) ∈ s.preorder.zipIdx t.nextNode) {key : String} {value : Value}
    (configured : key ∈ options.extraAttributes) (kept : key ∉ part.kind.rewrittenKeys)
    (given : part.attr? key = some value) (present : value.isNull = false) :
    let text := (value.painted options.roundAlpha).display
    ∃ calls, Backend.compile options s t = (.ok t.nextNode, t.extend calls s.size) ∧
      (IsDrawnName key → .setAttribute node key text ∈ calls) ∧
      (¬ IsDrawnName key → ∀ other content, .setAttribute other key content ∉ calls) ∧
      (.setAttribute node (drawnName key) text ∈ calls ↔
        options.allows (drawnName key) = true) := by
  intro text
  have drawn : .setAttribute node (drawnName key) text ∈ s.calls options t.nextNode ↔
      options.allows (drawnName key) = true := by
    rw [(Shape.setAttribute_mem_calls_iff options _ _ node).1]
    constructor
    · rintro ⟨_, -, set⟩
      obtain ⟨_, _, -, -, allowed, -⟩ := Options.mem_drawnAttributes.mp set
      exact allowed
    · intro allowed
      refine ⟨part, placed, Options.mem_drawnAttributes.mpr ⟨key, _, ?_, ?_, allowed, rfl, rfl⟩⟩
      · exact Shape.attr?_normalForm_of_kept given present kept options.roundAlpha
      · rw [Value.isNull_painted, present]
  refine ⟨s.calls options t.nextNode, ?_, ?_, ?_, drawn⟩
  · exact Backend.compile_of_accepted options options.strict s
      (fun part _ => Options.refusal?_permissive permissive part) t
  · intro own
    have allowed : options.allows key = true := Options.allows_iff.mpr (.inr configured)
    rw [drawnName_eq_self_iff.mpr own] at drawn
    exact drawn.mpr allowed
  · intro foreign other content set
    obtain ⟨_, -, set⟩ := ((Shape.setAttribute_mem_calls_iff options _ _ other).1 s _).mp set
    obtain ⟨source, _, -, -, -, rfl, -⟩ := Options.mem_drawnAttributes.mp set
    exact foreign (isDrawnName_drawnName source)

theorem compile_sets_configured_nested :
    let options : Options := { roundAlpha := false, extraAttributes := ["data-tint"] }
    let tint := Value.color ⟨0, 0, 0, 0.5⟩
    let part := Shape.new .path (.ofList [("data-tint", tint)])
    let s := Shape.group [part] .empty
    options.strict = false ∧ (part, 1) ∈ s.preorder.zipIdx 0 ∧
      "data-tint" ∈ options.extraAttributes ∧ "data-tint" ∉ part.kind.rewrittenKeys ∧
      part.attr? "data-tint" = some tint ∧ tint.isNull = false ∧
      .setAttribute 1 "data-tint" "rgba(0,0,0,0.5)" ∈
        (Backend.compile options s ({} : Transcript)).2.calls := by
  intro options tint part s
  have placed : (part, 1) ∈ s.preorder.zipIdx ({} : Transcript).nextNode :=
    List.mem_cons_of_mem _ List.mem_cons_self
  have kept : "data-tint" ∉ part.kind.rewrittenKeys := by decide
  have shown : (tint.painted false).display = "rgba(0,0,0,0.5)" := by decide +kernel
  have permissive : options.strict = false := rfl
  obtain ⟨calls, drawn, set, -⟩ := compile_sets_configured permissive s {} placed
    List.mem_cons_self kept rfl rfl
  refine ⟨permissive, placed, List.mem_cons_self, kept, rfl, rfl, ?_⟩
  have call := set (by decide +kernel)
  rw [shown] at call
  rw [drawn]
  exact Array.mem_append.mpr (.inr (List.mem_toArray.mpr call))

/-- A configured name with capitals in it is not drawn. -/
theorem compile_drops_capitals :
    let options : Options := { extraAttributes := ["preserveAspectRatio"] }
    let s := Shape.group [] (.ofList [("preserveAspectRatio", .text "none")])
    options.strict = false ∧ "preserveAspectRatio" ∈ options.extraAttributes ∧
      "preserveAspectRatio" ∉ s.kind.rewrittenKeys ∧
      s.attr? "preserveAspectRatio" = some (.text "none") ∧
      Backend.compile options s ({} : Transcript) =
        (.ok 0, { calls := #[.create 0 .group], nextNode := 1 }) := by
  intro options s
  refine ⟨rfl, List.mem_cons_self, by decide, rfl, ?_⟩
  rw [Backend.compile_of_accepted options options.strict s fun part _ =>
    Options.refusal?_permissive rfl part]
  decide

end Tracery
