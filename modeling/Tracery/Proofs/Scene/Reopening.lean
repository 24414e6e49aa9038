import Tracery.Proofs.NormalForm.Likeness
import Tracery.Proofs.NumberText
import Tracery.Proofs.Scene.Encoding

/-! Scenes that are drawn from their files. Numbers that are not finite are written by
name and look like their names, so that a scene is drawn as the tree it was written from,
but for lists that are read as a color and for a list of points that is read as one point. -/

namespace Tracery

theorem numberText_ne_rgb {x : Float} (large : Binary.isFinite x = false) :
    numberText x ≠ "rgb" := by
  apply Binary.infinite_cases _ _ large
  · decide +kernel
  · decide +kernel

namespace Value

mutual
/-- A value with the numbers that are not finite replaced by their names. -/
def named : Value → Value
  | .number x => if Binary.isFinite x then .number x else .text (numberText x)
  | .list items => .list (namedAll items)
  | value => value
termination_by structural value => value

def namedAll : List Value → List Value
  | [] => []
  | item :: rest => item.named :: namedAll rest
termination_by structural items => items
end

@[simp] theorem namedAll_eq_map (items : List Value) : namedAll items = items.map named := by
  induction items with
  | nil => rfl
  | cons item rest ih => rw [namedAll, ih, List.map_cons]

theorem json_named (value : Value) : value.named.json = value.json := by
  induction value using induction_items with
  | number x =>
      rw [named, json]
      split
      next finite => rw [json, if_pos finite]
      next => rw [json]
  | list items ih =>
      rw [named, json, json, namedAll_eq_map, jsonAll_eq_map, jsonAll_eq_map, List.map_map]
      exact congrArg Json.array (List.map_congr_left ih)
  | null | text | vector | color => rfl

def spellsColor : List Value → Bool
  | [.text "rgb", .number r, .number g, .number b] => [r, g, b].all Binary.isFinite
  | [.text "rgb", .number r, .number g, .number b, .number a] =>
      [r, g, b, a].all Binary.isFinite
  | _ => false

mutual
/-- Whether no list in a value is read as a color, and all coordinates and channels in it are
finite. -/
def survives : Value → Bool
  | .null | .number _ | .text _ => true
  | .vector v => [v.x, v.y].all Binary.isFinite
  | .color c => [c.r, c.g, c.b, c.a].all Binary.isFinite
  | .list items => !spellsColor items && survivesAll items
termination_by structural value => value

def survivesAll : List Value → Bool
  | [] => true
  | item :: rest => item.survives && survivesAll rest
termination_by structural items => items
end

@[simp] theorem survivesAll_eq_all (items : List Value) :
    survivesAll items = items.all survives := by
  induction items with
  | nil => rfl
  | cons item rest ih => rw [survivesAll, ih, List.all_cons]

def reopened (value : Value) : Value := value.named.reread

theorem isFinite_of_mem_numbers_named {value : Value} (survives : value.survives = true) :
    ∀ x ∈ value.named.numbers, x ∈ value.numbers ∧ Binary.isFinite x = true := by
  induction value using induction_items with
  | null | text => simp [named, numbers]
  | number y =>
      rw [named]
      split
      next finite => simp [numbers, finite]
      next => simp [numbers]
  | vector v =>
      rw [Value.survives, List.all_eq_true] at survives
      exact fun x member => ⟨member, survives x member⟩
  | color c =>
      rw [Value.survives, List.all_eq_true] at survives
      exact fun x member => ⟨member, survives x member⟩
  | list items ih =>
      rw [Value.survives, survivesAll_eq_all, Bool.and_eq_true, List.all_eq_true] at survives
      intro x member
      rw [named, namedAll_eq_map, numbers, mem_numbersAll] at member
      obtain ⟨_, mapped, inside⟩ := member
      obtain ⟨item, known, rfl⟩ := List.mem_map.mp mapped
      obtain ⟨there, finite⟩ := ih item known (survives.2 item known) x inside
      exact ⟨mem_numbersAll.mpr ⟨item, known, there⟩, finite⟩

theorem reopened_eq_number {value : Value} {x : Float} (is : value.reopened = .number x) :
    value = .number x ∧ Binary.isFinite x = true := by
  have is := reread_eq_number is
  cases value with
  | number y =>
      rw [named] at is
      split at is
      next finite => cases is; exact ⟨rfl, finite⟩
      next => cases is
  | _ => cases is

theorem reopened_eq_rgb {value : Value} (is : value.reopened = .text "rgb") :
    value = .text "rgb" := by
  have is := reread_eq_text is
  cases value with
  | number y =>
      rw [named] at is
      split at is
      next => cases is
      next large =>
        exact absurd (Value.text.inj is) (numberText_ne_rgb (Bool.eq_false_of_not_eq_true large))
  | text content => exact is
  | _ => cases is

theorem reopened_list {items : List Value} (plain : spellsColor items = false) :
    (∃ x y, items = [.number x, .number y] ∧ Binary.isFinite x = true ∧
      Binary.isFinite y = true ∧ (list items).reopened = .vector ⟨x, y⟩) ∨
    (list items).reopened = .list (items.map reopened) := by
  have opened : (list items).reopened = taken (items.map reopened) := by
    rw [reopened, named, namedAll_eq_map, ← taken_map_reread, List.map_map]
    rfl
  rw [opened]
  unfold taken
  split
  next x y looks =>
    simp only [List.map_eq_cons_iff, List.map_eq_nil_iff] at looks
    obtain ⟨_, _, rfl, first, _, _, rfl, second, rfl⟩ := looks
    obtain ⟨rfl, left⟩ := reopened_eq_number first
    obtain ⟨rfl, right⟩ := reopened_eq_number second
    exact .inl ⟨x, y, rfl, left, right, rfl⟩
  next r g b looks =>
    simp only [List.map_eq_cons_iff, List.map_eq_nil_iff] at looks
    obtain ⟨_, _, rfl, space, _, _, rfl, red, _, _, rfl, green, _, _, rfl, blue, rfl⟩ := looks
    obtain rfl := reopened_eq_rgb space
    obtain ⟨rfl, finiteRed⟩ := reopened_eq_number red
    obtain ⟨rfl, finiteGreen⟩ := reopened_eq_number green
    obtain ⟨rfl, finiteBlue⟩ := reopened_eq_number blue
    simp [spellsColor, finiteRed, finiteGreen, finiteBlue] at plain
  next r g b a looks =>
    simp only [List.map_eq_cons_iff, List.map_eq_nil_iff] at looks
    obtain ⟨_, _, rfl, space, _, _, rfl, red, _, _, rfl, green, _, _, rfl, blue, _, _, rfl,
      alpha, rfl⟩ := looks
    obtain rfl := reopened_eq_rgb space
    obtain ⟨rfl, finiteRed⟩ := reopened_eq_number red
    obtain ⟨rfl, finiteGreen⟩ := reopened_eq_number green
    obtain ⟨rfl, finiteBlue⟩ := reopened_eq_number blue
    obtain ⟨rfl, finiteAlpha⟩ := reopened_eq_number alpha
    simp [spellsColor, finiteRed, finiteGreen, finiteBlue, finiteAlpha] at plain
  next => exact .inr rfl

theorem looksLike_reopened (value : Value) (survives : value.survives = true) :
    value.LooksLike value.reopened := by
  induction value using induction_items with
  | null | text | vector | color => exact .refl _
  | number x =>
      rw [reopened, named]
      split
      next => exact .refl _
      next large =>
        have spelled := readNumber?_numberText x
        rw [Binary.unsigned_of_infinite (Bool.eq_false_of_not_eq_true large)] at spelled
        exact ⟨rfl, spelled.symm, rfl, fun _ => rfl, fun _ => rfl⟩
  | list items ih =>
      rw [Value.survives, survivesAll_eq_all, Bool.and_eq_true, List.all_eq_true,
        Bool.not_eq_true'] at survives
      have each : (list items).LooksLike (.list (items.map reopened)) := by
        apply LooksLike.list
        rw [List.forall₂_map_right_iff, List.forall₂_same]
        exact fun item member => ih item member (survives.2 item member)
      rcases reopened_list survives.1 with ⟨x, y, rfl, -, -, vector⟩ | list
      · exact vector ▸ .vector_list x y
      · exact list ▸ each

def isLonePoint : Value → Bool
  | .list [.number x, .number y] => Binary.isFinite x && Binary.isFinite y
  | _ => false

theorem pointText?_reopened {value : Value} (survives : value.survives = true)
    (many : value.isLonePoint = false) : value.reopened.pointText? = value.pointText? := by
  cases value with
  | null | text | vector | color => rfl
  | number x =>
      rw [reopened, named]
      split <;> rfl
  | list items =>
      rw [Value.survives, survivesAll_eq_all, Bool.and_eq_true, List.all_eq_true,
        Bool.not_eq_true'] at survives
      rcases reopened_list survives.1 with ⟨x, y, rfl, left, right, -⟩ | list
      · simp [isLonePoint, left, right] at many
      · rw [list, pointText?, pointText?, List.map_map]
        congr 2
        apply List.map_congr_left
        intro item member
        exact (looksLike_reopened item (survives.2 item member)).display.symm

theorem readsAs_reopened {read : Literal → Float} {value : Value}
    (survives : value.survives = true)
    (same : ∀ x ∈ value.numbers, Binary.isFinite x = true →
      read (Layout.scene.literal x) = x) : value.ReadsAs read value.reopened := by
  have keeps : ∀ x ∈ value.named.numbers, Json.Keeps read x := by
    intro x member
    obtain ⟨known, finite⟩ := isFinite_of_mem_numbers_named survives x member
    exact ⟨finite, same x known finite⟩
  have reads := readsAs_reread keeps
  rwa [ReadsAs, json_named] at reads

end Value

namespace Shape

theorem mapValues_eq_mapAttrs (f : Value → Value) :
    (∀ s : Shape, s.mapValues f = s.mapAttrs (·.mapValues f)) ∧
      ∀ shapes : List Shape, mapValuesAll f shapes = mapAttrsAll (·.mapValues f) shapes := by
  apply induction_both
  case shape =>
    rintro ⟨kind, attrs, body⟩ below
    cases body with
    | empty | text => rfl
    | children shapes =>
        have below : mapValuesAll f shapes = mapAttrsAll (·.mapValues f) shapes := below
        rw [mapValues, mapAttrs, below]
  case nil => rfl
  case cons =>
    intro s rest first others
    rw [mapValuesAll, mapAttrsAll, first, others]

/-- Whether a scene file tells what a shape looks like: the values survive, and points are not
taken for one point. -/
structure Survives (s : Shape) : Prop where
  values : ∀ value ∈ s.attrs.values, value.survives = true
  points : s.kind = .polygon ∨ s.kind = .polyline →
    ∀ value, s.attr? "points" = some value → value.isLonePoint = false

theorem looksLike_reopened {s : Shape} (survives : s.Survives) :
    s.kind.LooksLike s.attrs (s.attrs.mapValues Value.reopened) where
  attrs := by
    rw [OrderedMap.LooksLike, OrderedMap.mapValues, List.forall₂_map_right_iff,
      List.forall₂_same]
    exact fun entry member => ⟨rfl, entry.2.looksLike_reopened
      (survives.values _ (List.mem_map_of_mem member))⟩
  points := by
    intro polygon
    rw [OrderedMap.get?_mapValues]
    cases given : s.attrs.get? "points" with
    | none => rfl
    | some value =>
        have known : value ∈ s.attrs.values := OrderedMap.mem_values_iff.mpr ⟨_, given⟩
        exact (Value.pointText?_reopened (survives.values value known)
          (survives.points polygon value given)).symm

end Shape

/-- A scene file gives a tree that is drawn as the one it was written from, with any options
and into any drawing: with every number read as the nearest double, and with any other reading
that keeps the finite numbers of the tree. -/
theorem compile_ofJsonText (s : Shape) (agreeing : ∀ part ∈ s.preorder, part.Agrees)
    (survive : ∀ part ∈ s.preorder, part.Survives)
    (nesting : (Scene.ofShape s).json.nesting ≤ Json.nestingLimit) :
    ∃ t, Shape.ofJsonText Literal.toFloat s.sceneText = .ok t ∧
      (∀ read, (∀ x ∈ s.attributeNumbers, Binary.isFinite x = true →
          read (Layout.scene.literal x) = x) → Shape.ofJsonText read s.sceneText = .ok t) ∧
      ∀ (options : Options) {σ Node : Type} [Backend σ Node] (drawing : σ),
        Backend.compile options t drawing = Backend.compile options s drawing := by
  have reads (read) (same : ∀ x ∈ s.attributeNumbers, Binary.isFinite x = true →
      read (Layout.scene.literal x) = x) :
      Shape.ofJsonText read s.sceneText = .ok (s.mapValues Value.reopened) := by
    apply Shape.ofJsonText_of_reads agreeing _ nesting
    intro value member
    obtain ⟨part, known, held⟩ := List.mem_flatMap.mp member
    exact Value.readsAs_reopened ((survive part known).values value held)
      fun x inside => same x (List.mem_flatMap.mpr ⟨value, member, inside⟩)
  have alike : s.Matches Kind.LooksLike (s.mapValues Value.reopened) := by
    rw [(Shape.mapValues_eq_mapAttrs _).1]
    exact Shape.matches_mapAttrs.1 s fun part known => Shape.looksLike_reopened (survive part known)
  refine ⟨s.mapValues Value.reopened, ?_, reads, ?_⟩
  · exact reads _ fun x _ finite => (Json.keeps_nearest finite).same
  · intro options σ Node _ drawing
    exact (Backend.compile_of_looksLike options alike drawing).symm

theorem compile_ofJsonText_infinite :
    let one := Value.number (Binary.ofNat 1)
    let far := Value.number (Binary.ofRank true Binary.infinityRank)
    let s := Shape.group
      [.new .circle (.ofList [("r", .number (0 / 0)), ("cx", far)]),
        .new .polygon (.ofList [("points", .list [.list [one, one], .list [far, one]])])]
      (.ofList [("translate", .vector ⟨Binary.ofNat 1, Binary.ofNat 1⟩)])
    (∀ part ∈ s.preorder, part.Agrees) ∧ (∀ part ∈ s.preorder, part.Survives) ∧
      (Scene.ofShape s).json.nesting ≤ Json.nestingLimit ∧
      ∃ t, Shape.ofJsonText Literal.toFloat s.sceneText = .ok t ∧
        ∀ (options : Options) (drawing : Transcript),
          Backend.compile options t drawing = Backend.compile options s drawing := by
  intro one far s
  have agreeing : ∀ part ∈ s.preorder, part.Agrees := by
    rintro part (_ | ⟨_, _ | ⟨_, _ | ⟨_, ⟨⟩⟩⟩⟩)
    · rfl
    · exact ⟨rfl, by decide⟩
    · exact ⟨rfl, by decide⟩
  have survive : ∀ part ∈ s.preorder, part.Survives := by
    rintro part (_ | ⟨_, _ | ⟨_, _ | ⟨_, ⟨⟩⟩⟩⟩)
    · refine ⟨?_, by rintro (is | is) <;> cases is⟩
      rintro value (_ | ⟨_, ⟨⟩⟩)
      decide +kernel
    · refine ⟨?_, by rintro (is | is) <;> cases is⟩
      rintro value (_ | ⟨_, _ | ⟨_, ⟨⟩⟩⟩) <;> rfl
    · refine ⟨?_, ?_⟩
      · rintro value (_ | ⟨_, ⟨⟩⟩)
        decide +kernel
      · rintro - value given
        obtain rfl := Option.some.inj given
        rfl
  have nesting : (Scene.ofShape s).json.nesting ≤ Json.nestingLimit := by decide +kernel
  obtain ⟨t, opened, -, same⟩ := compile_ofJsonText s agreeing survive nesting
  exact ⟨agreeing, survive, nesting, t, opened, fun options drawing => same options drawing⟩

/-- Two numbers for points are joined by a blank, and by a comma once they are read as one
point. -/
theorem compile_ofSceneText_lonePoint :
    let s := Shape.new .polygon
      (.ofList [("points", .list [.number (Binary.ofNat 1), .number (Binary.ofNat 2)])])
    (∀ part ∈ s.preorder, part.Agrees) ∧
      (Scene.ofShape s).json.nesting ≤ Json.nestingLimit ∧
      (Backend.compile {} s ({} : Transcript)).2.calls =
        #[.create 0 .polygon, .setAttribute 0 "points" "1 2"] ∧
      ∃ t, Shape.ofSceneText s.sceneText = .ok t ∧
        (Backend.compile {} t ({} : Transcript)).2.calls =
          #[.create 0 .polygon, .setAttribute 0 "points" "1,2"] := by
  intro s
  have agreeing : ∀ part ∈ s.preorder, part.Agrees := by
    rintro part (_ | ⟨_, ⟨⟩⟩)
    exact ⟨rfl, by decide⟩
  have nesting : (Scene.ofShape s).json.nesting ≤ Json.nestingLimit := by decide +kernel
  have reads : ∀ value ∈ s.attributeValues,
      value.ReadsAs Literal.scaledFloat value.reread := by
    rintro value (_ | ⟨_, ⟨⟩⟩)
    apply Value.readsAs_reread
    have each : ∀ x ∈ [Binary.ofNat 1, Binary.ofNat 2], Binary.isFinite x = true ∧
        Literal.scaledFloat (Layout.scene.literal x) = x := by decide +kernel
    exact fun x member => ⟨(each x member).1, (each x member).2⟩
  refine ⟨agreeing, nesting, ?_, s.reread, Shape.ofJsonText_of_reads agreeing reads nesting, ?_⟩
  · rw [Backend.calls_compile_empty rfl]
    decide +kernel
  · rw [Backend.calls_compile_empty rfl]
    decide +kernel

end Tracery
