import Tracery.Proofs.NormalForm.Transform

/-! Rectangles in several spellings. The lengths go by long and short names, and the place is given
by the center or by the corner. All spellings of a box have one normal form, in which a corner that
is given wins over a center. -/

namespace Tracery

def lowEdge? (edge center length : Option Value) : Option Value :=
  match center with
  | none => edge
  | some center =>
      if edge.any (!·.isNull) then edge
      else some (.number (center.number?.getD (0 / 0) -
        (length.bind Value.number?).getD (0 / 0) / 2))

theorem lowEdge?_of_present {edge : Value} (present : edge.isNull = false)
    (center length : Option Value) : lowEdge? (some edge) center length = some edge := by
  cases center with
  | none => rfl
  | some center => simp [lowEdge?, present]

structure BoxAxis where
  edge : String
  center : String
  length : String
  short : String

def BoxAxis.all : List BoxAxis := [⟨"x", "cx", "width", "w"⟩, ⟨"y", "cy", "height", "h"⟩]

/-- A box that is given by its center. -/
structure Box where
  cx : Float
  cy : Float
  width : Float
  height : Float

namespace Box

def corner (b : Box) : List (String × Value) :=
  [("x", .number (b.cx - b.width / 2)), ("y", .number (b.cy - b.height / 2)),
    ("width", .number b.width), ("height", .number b.height)]

/-- A box by its center, the lengths being named one way or the other, and by its corner. -/
def spellings (b : Box) : List (List (String × Value)) :=
  [[("cx", .number b.cx), ("cy", .number b.cy), ("w", .number b.width), ("h", .number b.height)],
    [("cx", .number b.cx), ("cy", .number b.cy), ("width", .number b.width),
      ("height", .number b.height)],
    b.corner]

def placedIn (b : Box) (base : Attrs) (body : Body Shape) : Shape :=
  ⟨.rect, base.insertAll b.corner, body⟩

end Box

namespace OrderedMap

theorem get?_placeEdge_self (attrs : Attrs) (edge length : String) (center : Option Value) :
    (attrs.placeEdge edge length center).get? edge =
      lowEdge? (attrs.get? edge) center (attrs.get? length) := by
  unfold placeEdge lowEdge?
  cases center with
  | none => rfl
  | some center =>
      simp only
      split
      · rfl
      · rw [get?_insert, if_pos rfl, numberOr]

theorem get?_cornered_length {axis : BoxAxis} (listed : axis ∈ BoxAxis.all) (attrs : Attrs) :
    attrs.cornered.get? axis.length =
      (attrs.get? axis.short).or (attrs.get? axis.length) := by
  simp only [BoxAxis.all, List.mem_cons, List.not_mem_nil, or_false] at listed
  rcases listed with rfl | rfl <;>
    simp [cornered, get?_placeEdge_of_ne, get?_rename_of_ne, get?_rename_new]

theorem get?_cornered_edge {axis : BoxAxis} (listed : axis ∈ BoxAxis.all) (attrs : Attrs) :
    attrs.cornered.get? axis.edge = lowEdge? (attrs.get? axis.edge) (attrs.get? axis.center)
      ((attrs.get? axis.short).or (attrs.get? axis.length)) := by
  simp only [BoxAxis.all, List.mem_cons, List.not_mem_nil, or_false] at listed
  rcases listed with rfl | rfl
  · rw [cornered, get?_placeEdge_of_ne _ _ _ (by decide), get?_placeEdge_self]
    simp [get?_rename_of_ne, get?_rename_new]
  · rw [cornered, get?_placeEdge_self, get?_placeEdge_of_ne _ _ _ (by decide),
      get?_placeEdge_of_ne _ _ _ (by decide)]
    simp [get?_rename_of_ne, get?_rename_new]

theorem get?_cornered_of_ne {key : String} (attrs : Attrs) (other : key ∉ Kind.outlineKeys .rect) :
    attrs.cornered.get? key = attrs.get? key :=
  Shape.attr?_outlined (s := ⟨.rect, attrs, .empty⟩) other

theorem get?_cornered_ext {attrs target : Attrs}
    (drafts : ∀ key ∈ Kind.draftKeys .rect, target.get? key = none)
    (lengths : ∀ axis ∈ BoxAxis.all,
      attrs.cornered.get? axis.length = target.get? axis.length)
    (edges : ∀ axis ∈ BoxAxis.all, attrs.cornered.get? axis.edge = target.get? axis.edge)
    (rest : ∀ key, key ∉ Kind.outlineKeys .rect → attrs.get? key = target.get? key)
    (key : String) : attrs.cornered.get? key = target.get? key := by
  simp only [BoxAxis.all, List.forall_mem_cons] at lengths edges
  by_cases other : key ∉ Kind.outlineKeys .rect
  · rw [attrs.get?_cornered_of_ne other, rest key other]
  · -- What a box is written with is drafts, which are gone, and its lengths and edges.
    have split : Kind.outlineKeys .rect =
        Kind.draftKeys .rect ++ ["width", "height", "x", "y"] := rfl
    rw [not_not, split, List.mem_append] at other
    rcases other with draft | boxed
    · rw [attrs.get?_cornered_of_draft draft, drafts key draft]
    · simp only [List.mem_cons, List.not_mem_nil, or_false] at boxed
      rcases boxed with rfl | rfl | rfl | rfl
      · exact lengths.1
      · exact lengths.2.1
      · exact edges.1
      · exact edges.2.1

theorem get?_cornered_congr {a b : Attrs} (same : ∀ key, a.get? key = b.get? key) (key : String) :
    a.cornered.get? key = b.cornered.get? key := by
  apply get?_cornered_ext
  case drafts => exact fun _ draft => b.get?_cornered_of_draft draft
  case lengths =>
    intro axis listed
    simp only [get?_cornered_length listed, same]
  case edges =>
    intro axis listed
    simp only [get?_cornered_edge listed, same]
  case rest =>
    intro key other
    rw [b.get?_cornered_of_ne other, same]

theorem get?_cornered_spelling {base : Attrs}
    (free : ∀ key ∈ Kind.outlineKeys .rect, base.get? key = none) {b : Box}
    {spelling : List (String × Value)} (listed : spelling ∈ b.spellings) (key : String) :
    (base.insertAll spelling).cornered.get? key = (base.insertAll b.corner).get? key := by
  simp only [Kind.outlineKeys, List.forall_mem_cons] at free
  obtain ⟨w, h, cx, cy, width, height, x, y, -⟩ := free
  simp only [Box.spellings, List.mem_cons, List.not_mem_nil, or_false] at listed
  apply get?_cornered_ext
  case drafts => simp [Kind.draftKeys, Box.corner, w, h, cx, cy]
  case lengths =>
    intro axis among
    rw [get?_cornered_length among]
    simp only [BoxAxis.all, List.mem_cons, List.not_mem_nil, or_false] at among
    rcases among with rfl | rfl <;> rcases listed with rfl | rfl | rfl <;>
      simp [Box.corner, w, h, width, height]
  case edges =>
    intro axis among
    rw [get?_cornered_edge among]
    simp only [BoxAxis.all, List.mem_cons, List.not_mem_nil, or_false] at among
    rcases among with rfl | rfl <;> rcases listed with rfl | rfl | rfl <;>
      simp [Box.corner, lowEdge?, Value.number?, w, h, cx, cy, x, y]
  case rest =>
    intro key other
    simp only [Kind.outlineKeys, List.mem_cons, List.not_mem_nil, or_false, not_or] at other
    rcases listed with rfl | rfl | rfl <;> simp [Box.corner, other]

theorem get?_cornered_erase_center {attrs : Attrs} {axis : BoxAxis}
    (listed : axis ∈ BoxAxis.all) {corner : Value} (given : attrs.get? axis.edge = some corner)
    (present : corner.isNull = false) (key : String) :
    (attrs.erase axis.center).cornered.get? key = attrs.cornered.get? key := by
  apply get?_cornered_ext
  case drafts => exact fun _ draft => attrs.get?_cornered_of_draft draft
  case lengths =>
    intro other among
    rw [get?_cornered_length among, get?_cornered_length among]
    simp only [BoxAxis.all, List.mem_cons, List.not_mem_nil, or_false] at listed among
    rcases listed with rfl | rfl <;> rcases among with rfl | rfl <;> simp
  case edges =>
    intro other among
    rw [get?_cornered_edge among, get?_cornered_edge among]
    simp only [BoxAxis.all, List.mem_cons, List.not_mem_nil, or_false] at listed among
    rcases listed with rfl | rfl <;> rcases among with rfl | rfl <;>
      simp [given, lowEdge?_of_present present]
  case rest =>
    intro key other
    rw [attrs.get?_cornered_of_ne other]
    simp only [BoxAxis.all, List.mem_cons, List.not_mem_nil, or_false] at listed
    simp only [Kind.outlineKeys, List.mem_cons, List.not_mem_nil, or_false, not_or] at other
    rcases listed with rfl | rfl <;> simp [other]

end OrderedMap

namespace Shape

theorem perm_normalForm {s t : Shape} (same : ∀ key, s.outlined.attr? key = t.outlined.attr? key)
    (roundAlpha : Bool) :
    (s.normalForm roundAlpha).attrs.entries.Perm (t.normalForm roundAlpha).attrs.entries := by
  rw [OrderedMap.perm_iff_get?_eq]
  intro key
  simp only [normalForm, attrs_withAttrs, OrderedMap.get?_mapValues,
    OrderedMap.get?_withTransform_congr same]

theorem attr?_outlined_corner {base : Attrs}
    (free : ∀ key ∈ Kind.outlineKeys .rect, base.get? key = none) (b : Box) (body : Body Shape)
    (key : String) :
    (b.placedIn base body).outlined.attr? key = (base.insertAll b.corner).get? key := by
  have listed : b.corner ∈ b.spellings := by simp [Box.spellings]
  exact OrderedMap.get?_cornered_spelling free listed key

theorem attr?_normalForm_corner {base : Attrs}
    (free : ∀ key ∈ Kind.outlineKeys .rect, base.get? key = none) (b : Box) (body : Body Shape)
    (roundAlpha : Bool) :
    ∀ entry ∈ b.corner,
      ((b.placedIn base body).normalForm roundAlpha).attr? entry.1 = some entry.2 := by
  have held (key : String) (other : key ∉ "transform" :: transformKeys) :
      ((b.placedIn base body).normalForm roundAlpha).attr? key =
        ((base.insertAll b.corner).get? key).map (Value.painted roundAlpha) := by
    rw [List.mem_cons, not_or] at other
    rw [attr?_normalForm other.1, if_neg other.2, attr?_outlined_corner free]
  simp only [Box.corner, List.forall_mem_cons]
  refine ⟨?_, ?_, ?_, ?_, List.forall_mem_nil _⟩ <;>
    rw [held _ (by decide)] <;> simp [Box.corner, Value.painted]

end Shape

/-- All spellings of a box next to other attributes have one normal form, which has the corner.
A center is not looked at beside an edge that is there. -/
theorem normalize_rect_spellings {options : Options} (permissive : options.strict = false)
    {base : Attrs} (free : ∀ key ∈ Kind.outlineKeys .rect, base.get? key = none) (b : Box)
    (body : Body Shape) :
    (∃ final : Attrs, (∀ entry ∈ b.corner, final.get? entry.1 = some entry.2) ∧
      ∀ spelling ∈ b.spellings, ∀ attrs : Attrs,
        attrs.entries.Perm (base.entries ++ spelling) →
        ∃ normal, normalize options ⟨.rect, attrs, body⟩ = .ok normal ∧
          normal.attrs.entries.Perm final.entries) ∧
    ∀ axis ∈ BoxAxis.all, ∀ (attrs others : Attrs) (corner : Value),
      attrs.get? axis.edge = some corner → corner.isNull = false →
      others.entries.Perm (attrs.erase axis.center).entries →
      ∃ normal other, normalize options ⟨.rect, attrs, body⟩ = .ok normal ∧
        normalize options ⟨.rect, others, body⟩ = .ok other ∧
        normal.attrs.entries.Perm other.attrs.entries := by
  constructor
  · refine ⟨((b.placedIn base body).normalForm options.roundAlpha).attrs,
      Shape.attr?_normalForm_corner free b body _, ?_⟩
    intro spelling listed attrs perm
    refine ⟨_, normalize_permissive permissive _, Shape.perm_normalForm ?_ _⟩
    intro key
    calc attrs.cornered.get? key
      _ = (base.insertAll spelling).cornered.get? key :=
          OrderedMap.get?_cornered_congr (OrderedMap.get?_of_perm_append perm) key
      _ = (base.insertAll b.corner).get? key := OrderedMap.get?_cornered_spelling free listed key
      _ = (b.placedIn base body).outlined.attr? key :=
          (Shape.attr?_outlined_corner free b body key).symm
  · intro axis listed attrs others corner given present perm
    refine ⟨_, _, normalize_permissive permissive _, normalize_permissive permissive _,
      Shape.perm_normalForm ?_ _⟩
    intro key
    calc attrs.cornered.get? key
      _ = (attrs.erase axis.center).cornered.get? key :=
          (OrderedMap.get?_cornered_erase_center listed given present key).symm
      _ = others.cornered.get? key :=
          (OrderedMap.get?_cornered_congr (OrderedMap.perm_iff_get?_eq.mp perm) key).symm

/-- A turned rectangle that is spelled around its other attributes, and one with a corner that makes
its center idle. -/
theorem normalize_rect_spellings_turned :
    let b : Box := ⟨5, 7, 4, 2⟩
    let base : Attrs := .ofList [("fill", .text "red"), ("rotate", .text "45")]
    let centered : Attrs := .ofList [("cx", .number 5), ("cy", .number 7), ("fill", .text "red"),
      ("rotate", .text "45"), ("w", .number 4), ("h", .number 2)]
    let cornered : Attrs := .ofList [("cx", .number 5), ("x", .text "0"), ("w", .number 4)]
    ({} : Options).strict = false ∧ (∀ key ∈ Kind.outlineKeys .rect, base.get? key = none) ∧
      (∃ spelling ∈ b.spellings, centered.entries.Perm (base.entries ++ spelling)) ∧
      (∃ normal, normalize {} ⟨.rect, centered, .empty⟩ = .ok normal ∧
        normal.attr? "x" = some (.number (5 - 4 / 2))) ∧
      BoxAxis.mk "x" "cx" "width" "w" ∈ BoxAxis.all ∧ cornered.get? "x" = some (.text "0") ∧
      (Value.text "0").isNull = false ∧
      ∃ normal other, normalize {} ⟨.rect, cornered, .empty⟩ = .ok normal ∧
        normalize {} ⟨.rect, cornered.erase "cx", .empty⟩ = .ok other ∧
        normal.attrs.entries.Perm other.attrs.entries := by
  intro b base centered cornered
  have permissive : ({} : Options).strict = false := rfl
  have free : ∀ key ∈ Kind.outlineKeys .rect, base.get? key = none := by
    simp only [Kind.outlineKeys, List.forall_mem_cons]
    exact ⟨rfl, rfl, rfl, rfl, rfl, rfl, rfl, rfl, List.forall_mem_nil _⟩
  have around : centered.entries.Perm (base.entries ++
      [("cx", .number 5), ("cy", .number 7), ("w", .number 4), ("h", .number 2)]) :=
    (@List.perm_append_comm _ [_, _] base.entries).append_right [_, _]
  obtain ⟨⟨final, held, spelled⟩, idle⟩ :=
    normalize_rect_spellings permissive free b Body.empty
  obtain ⟨normal, normalized, perm⟩ := spelled _ List.mem_cons_self centered around
  have edge : normal.attr? "x" = some (.number (5 - 4 / 2)) :=
    (OrderedMap.perm_iff_get?_eq.mp perm "x").trans (held _ List.mem_cons_self)
  exact ⟨permissive, free, ⟨_, List.mem_cons_self, around⟩, ⟨normal, normalized, edge⟩,
    List.mem_cons_self, rfl, rfl,
    idle _ List.mem_cons_self cornered _ (.text "0") rfl rfl (List.Perm.refl _)⟩

end Tracery
