import Tracery.Proofs.Json.Reading
import Tracery.Scene.Decode
import Tracery.Scene.Encode

/-! Values through JSON. Every value made of finite numbers comes back as it was,
but for lists that look like a vector or a color. -/

namespace Tracery

theorem Layout.exact_scene : Layout.scene.Exact := by
  intro digits given
  obtain rfl : ['0'] = digits := Option.some.inj given
  exact ⟨List.cons_ne_nil _ _, fun c member => List.mem_singleton.mp member⟩

namespace Json

mutual
def nesting : Json → Nat
  | .null | .bool _ | .number _ | .string _ => 0
  | .array items => nestingAll items + 1
  | .object fields => nestingOfFields fields + 1
termination_by structural json => json

def nestingAll : List Json → Nat
  | [] => 0
  | item :: rest => max item.nesting (nestingAll rest)
termination_by structural items => items

def nestingOfFields : List (Option String × Json) → Nat
  | [] => 0
  | (_, item) :: rest => max item.nesting (nestingOfFields rest)
termination_by structural fields => fields
end

theorem nestingAll_le_iff {items : List Json} {n : Nat} :
    nestingAll items ≤ n ↔ ∀ item ∈ items, item.nesting ≤ n := by
  induction items with
  | nil => simp [nestingAll]
  | cons item rest ih => simp [nestingAll, ih]

theorem nestingOfFields_le_iff {fields : List (Option String × Json)} {n : Nat} :
    nestingOfFields fields ≤ n ↔ ∀ field ∈ fields, field.2.nesting ≤ n := by
  induction fields with
  | nil => simp [nestingOfFields]
  | cons field rest ih => simp [nestingOfFields, ih]

theorem mem_literalsAll {items : List Json} {l : Literal} :
    l ∈ literalsAll items ↔ ∃ item ∈ items, l ∈ item.literals := by
  induction items with
  | nil => simp [literalsAll]
  | cons item rest ih => simp [literalsAll, ih]

theorem mem_literalsOfFields {fields : List (Option String × Json)} {l : Literal} :
    l ∈ literalsOfFields fields ↔ ∃ field ∈ fields, l ∈ field.2.literals := by
  induction fields with
  | nil => simp [literalsOfFields]
  | cons field rest ih => simp [literalsOfFields, ih]

theorem allSound_iff {read : Literal → Float} {levels : Nat} {items : List Json} :
    allSound read levels items = true ↔
      ∀ item ∈ items, item.isSound read levels = true := by
  induction items with
  | nil => simp [allSound]
  | cons item rest ih => simp [allSound, ih]

theorem fieldsSound_iff {read : Literal → Float} {levels : Nat}
    {fields : List (Option String × Json)} :
    fieldsSound read levels fields = true ↔
      ∀ field ∈ fields, field.1.isSome = true ∧ field.2.isSound read levels = true := by
  induction fields with
  | nil => simp [fieldsSound]
  | cons field rest ih => simp [fieldsSound, ih, and_assoc]

/-- A double that is written as a number and read as itself. -/
structure Keeps (read : Literal → Float) (x : Float) : Prop where
  finite : Binary.isFinite x = true
  same : read (Layout.scene.literal x) = x

theorem keeps_nearest {x : Float} (finite : Binary.isFinite x = true) :
    Keeps Literal.toFloat x :=
  ⟨finite, Layout.toFloat_literal Layout.exact_scene finite (.inl rfl)⟩

theorem canonical_ofFloat (x : Float) : ∀ l ∈ (ofFloat x).literals, l.Canonical := by
  rw [ofFloat]
  split
  next finite =>
    intro l member
    obtain rfl : l = Layout.scene.literal x := by simpa [literals] using member
    exact Layout.canonical_literal Layout.exact_scene finite
  next => simp [literals]

variable {read : Literal → Float} {x : Float}

theorem Keeps.ofFloat_eq (keeps : Keeps read x) :
    ofFloat x = .number (Layout.scene.literal x) := by
  rw [ofFloat, if_pos keeps.finite]

theorem Keeps.float? (keeps : Keeps read x) : (ofFloat x).float? read = some x := by
  rw [keeps.ofFloat_eq, Json.float?, keeps.same]

theorem Keeps.isSound (keeps : Keeps read x) (levels : Nat) :
    (ofFloat x).isSound read levels = true := by
  rw [keeps.ofFloat_eq, Json.isSound, keeps.same, keeps.finite]

end Json

namespace Value

open Json (Keeps)

mutual
/-- A value as it comes back from JSON: a list of two numbers is a vector, and
numbers behind `rgb` are a color. -/
def reread : Value → Value
  | .list [.number x, .number y] => .vector ⟨x, y⟩
  | .list [.text "rgb", .number r, .number g, .number b] => .color ⟨r, g, b, 1⟩
  | .list [.text "rgb", .number r, .number g, .number b, .number a] => .color ⟨r, g, b, a⟩
  | .list items => .list (rereadAll items)
  | value => value
termination_by structural value => value

def rereadAll : List Value → List Value
  | [] => []
  | item :: rest => item.reread :: rereadAll rest
termination_by structural items => items
end

/-- What an array is taken for whose items are read as these values. -/
def taken : List Value → Value
  | [.number x, .number y] => .vector ⟨x, y⟩
  | [.text "rgb", .number r, .number g, .number b] => .color ⟨r, g, b, 1⟩
  | [.text "rgb", .number r, .number g, .number b, .number a] => .color ⟨r, g, b, a⟩
  | items => .list items

mutual
def numbers : Value → List Float
  | .null | .text _ => []
  | .number x => [x]
  | .vector v => [v.x, v.y]
  | .color c => [c.r, c.g, c.b, c.a]
  | .list items => numbersAll items
termination_by structural value => value

def numbersAll : List Value → List Float
  | [] => []
  | item :: rest => item.numbers ++ numbersAll rest
termination_by structural items => items
end

@[simp] theorem jsonAll_eq_map (items : List Value) : jsonAll items = items.map json := by
  induction items with
  | nil => rfl
  | cons item rest ih => rw [jsonAll, ih, List.map_cons]

@[simp] theorem rereadAll_eq_map (items : List Value) :
    rereadAll items = items.map reread := by
  induction items with
  | nil => rfl
  | cons item rest ih => rw [rereadAll, ih, List.map_cons]

theorem reread_eq_number {value : Value} {x : Float} (is : value.reread = .number x) :
    value = .number x := by
  cases value with
  | list items =>
      unfold reread at is
      split at is <;> simp_all
  | number y => exact is
  | _ => cases is

theorem reread_eq_text {value : Value} {content : String}
    (is : value.reread = .text content) : value = .text content := by
  cases value with
  | list items =>
      unfold reread at is
      split at is <;> simp_all
  | text content => exact is
  | _ => cases is

theorem taken_map_reread (items : List Value) :
    taken (items.map reread) = (list items).reread := by
  conv_rhs => unfold reread
  split
  next same => cases same; rfl
  next same => cases same; rfl
  next same => cases same; rfl
  next noVector noColor noOpacity same =>
    cases same
    rw [rereadAll_eq_map]
    unfold taken
    split
    next x y looks =>
      simp only [List.map_eq_cons_iff, List.map_eq_nil_iff] at looks
      obtain ⟨_, _, rfl, first, _, _, rfl, second, rfl⟩ := looks
      rw [reread_eq_number first, reread_eq_number second] at noVector
      exact (noVector x y rfl).elim
    next r g b looks =>
      simp only [List.map_eq_cons_iff, List.map_eq_nil_iff] at looks
      obtain ⟨_, _, rfl, space, _, _, rfl, red, _, _, rfl, green, _, _, rfl, blue, rfl⟩ := looks
      rw [reread_eq_text space, reread_eq_number red, reread_eq_number green,
        reread_eq_number blue] at noColor
      exact (noColor r g b rfl).elim
    next r g b a looks =>
      simp only [List.map_eq_cons_iff, List.map_eq_nil_iff] at looks
      obtain ⟨_, _, rfl, space, _, _, rfl, red, _, _, rfl, green, _, _, rfl, blue, _, _, rfl,
        alpha, rfl⟩ := looks
      rw [reread_eq_text space, reread_eq_number red, reread_eq_number green,
        reread_eq_number blue, reread_eq_number alpha] at noOpacity
      exact (noOpacity r g b a rfl).elim
    next => rfl
  next other => exact absurd rfl (other items)

theorem mem_numbersAll {items : List Value} {x : Float} :
    x ∈ numbersAll items ↔ ∃ item ∈ items, x ∈ item.numbers := by
  induction items with
  | nil => simp [numbersAll]
  | cons item rest ih => simp [numbersAll, ih]

theorem canonical_json (value : Value) : ∀ l ∈ value.json.literals, l.Canonical := by
  induction value using induction_items with
  | null => simp [json, Json.literals]
  | number x =>
      rw [json]
      split
      · exact Json.canonical_ofFloat x
      · simp [Json.text, Json.literals]
  | text content => simp [json, Json.text, Json.literals]
  | vector v =>
      simp only [json, Json.literals, Json.mem_literalsAll, List.mem_cons, List.not_mem_nil,
        or_false]
      rintro l ⟨item, rfl | rfl, inside⟩
      all_goals exact Json.canonical_ofFloat _ l inside
  | color c =>
      simp only [json, Color.json, Json.literals, Json.mem_literalsOfFields, List.mem_cons,
        List.not_mem_nil, or_false]
      rintro l ⟨field, rfl | rfl | rfl | rfl | rfl, inside⟩
      · simp [Json.text, Json.literals] at inside
      all_goals exact Json.canonical_ofFloat _ l inside
  | list items ih =>
      simp only [json, Json.literals, Json.mem_literalsAll, jsonAll_eq_map]
      rintro l ⟨item, member, inside⟩
      obtain ⟨value, known, rfl⟩ := List.mem_map.mp member
      exact ih value known l inside

variable {read : Literal → Float}

theorem ofJson?_eq_number {json : Json} {x : Float}
    (is : ofJson? read json = some (.number x)) : ∃ l, json = .number l ∧ read l = x := by
  unfold ofJson? at is
  split at is
  case h_3 l => exact ⟨l, rfl, by simpa using is⟩
  case h_6 => split at is <;> simp at is
  all_goals simp at is

theorem ofJson?_eq_text {json : Json} {content : String}
    (is : ofJson? read json = some (.text content)) : json = .text content := by
  unfold ofJson? at is
  split at is
  case h_4 spelled =>
    obtain ⟨_, rfl, same⟩ := Option.map_eq_some_iff.mp is
    rw [Value.text.inj same, Json.text]
  case h_6 => split at is <;> simp at is
  all_goals simp at is

theorem ofJson?_of_isRgbSpace {space : Json} (named : Color.isRgbSpace space = true)
    {value : Value} (is : ofJson? read space = some value) : value = .text "rgb" := by
  unfold Color.isRgbSpace at named
  split at named
  next content =>
    obtain rfl : content = some "rgb" := eq_of_beq named
    exact (Option.some.inj is).symm
  next key =>
    obtain rfl : key = "rgb" := eq_of_beq named
    have refused : ofJson? read (.object [(some "rgb", .null)]) = none := rfl
    rw [refused] at is
    cases is
  next => cases named

theorem exists_of_float? {json : Json} {x : Float} (is : json.float? read = some x) :
    ∃ l, json = .number l := by
  cases json with
  | number l => exact ⟨l, rfl⟩
  | _ => cases is

theorem exists_of_ofJsonItems? {jsons : List Json} {c : Color}
    (is : Color.ofJsonItems? read jsons = some c) :
    ∃ space r g b, Color.isRgbSpace space = true ∧
      (jsons = [space, .number r, .number g, .number b] ∨
        ∃ a, jsons = [space, .number r, .number g, .number b, .number a]) := by
  unfold Color.ofJsonItems? at is
  split at is
  next space r g b =>
    split at is
    next named =>
      simp only [Option.bind_eq_bind, Option.bind_eq_some_iff] at is
      obtain ⟨_, red, _, green, _, blue, -⟩ := is
      obtain ⟨r, rfl⟩ := exists_of_float? red
      obtain ⟨g, rfl⟩ := exists_of_float? green
      obtain ⟨b, rfl⟩ := exists_of_float? blue
      exact ⟨space, r, g, b, named, .inl rfl⟩
    next => cases is
  next space r g b a =>
    split at is
    next named =>
      simp only [Option.bind_eq_bind, Option.bind_eq_some_iff] at is
      obtain ⟨_, red, _, green, _, blue, _, alpha, -⟩ := is
      obtain ⟨r, rfl⟩ := exists_of_float? red
      obtain ⟨g, rfl⟩ := exists_of_float? green
      obtain ⟨b, rfl⟩ := exists_of_float? blue
      obtain ⟨a, rfl⟩ := exists_of_float? alpha
      exact ⟨space, r, g, b, named, .inr ⟨a, rfl⟩⟩
    next => cases is
  next => cases is

theorem ofJsonAll?_eq_nil_iff {jsons : List Json} :
    ofJsonAll? read jsons = some [] ↔ jsons = [] := by
  cases jsons with
  | nil => simp [ofJsonAll?]
  | cons json rest => simp [ofJsonAll?, Option.bind_eq_some_iff]

theorem ofJsonAll?_eq_cons_iff {jsons : List Json} {value : Value} {values : List Value} :
    ofJsonAll? read jsons = some (value :: values) ↔
      ∃ json rest, jsons = json :: rest ∧ ofJson? read json = some value ∧
        ofJsonAll? read rest = some values := by
  cases jsons with
  | nil => simp [ofJsonAll?]
  | cons json rest => simp [ofJsonAll?, Option.bind_eq_some_iff, and_left_comm]

/-- An array whose items can be read can be read itself, and the values of its
items say what it is taken for. -/
theorem ofJson?_array {jsons : List Json} {values : List Value}
    (items : ofJsonAll? read jsons = some values) :
    ofJson? read (.array jsons) = some (taken values) := by
  unfold taken
  split
  next x y =>
    simp only [ofJsonAll?_eq_cons_iff, ofJsonAll?_eq_nil_iff] at items
    obtain ⟨_, _, rfl, first, _, _, rfl, second, rfl⟩ := items
    obtain ⟨_, rfl, rfl⟩ := ofJson?_eq_number first
    obtain ⟨_, rfl, rfl⟩ := ofJson?_eq_number second
    rfl
  next r g b =>
    simp only [ofJsonAll?_eq_cons_iff, ofJsonAll?_eq_nil_iff] at items
    obtain ⟨_, _, rfl, space, _, _, rfl, red, _, _, rfl, green, _, _, rfl, blue, rfl⟩ := items
    obtain rfl := ofJson?_eq_text space
    obtain ⟨_, rfl, rfl⟩ := ofJson?_eq_number red
    obtain ⟨_, rfl, rfl⟩ := ofJson?_eq_number green
    obtain ⟨_, rfl, rfl⟩ := ofJson?_eq_number blue
    rfl
  next r g b a =>
    simp only [ofJsonAll?_eq_cons_iff, ofJsonAll?_eq_nil_iff] at items
    obtain ⟨_, _, rfl, space, _, _, rfl, red, _, _, rfl, green, _, _, rfl, blue, _, _, rfl,
      alpha, rfl⟩ := items
    obtain rfl := ofJson?_eq_text space
    obtain ⟨_, rfl, rfl⟩ := ofJson?_eq_number red
    obtain ⟨_, rfl, rfl⟩ := ofJson?_eq_number green
    obtain ⟨_, rfl, rfl⟩ := ofJson?_eq_number blue
    obtain ⟨_, rfl, rfl⟩ := ofJson?_eq_number alpha
    rfl
  next noVector noColor noOpacity =>
    -- A color would come from items that are read as `rgb` and numbers.
    have colorless : Color.ofJsonItems? read jsons = none := by
      by_contra colored
      obtain ⟨c, colored⟩ := Option.ne_none_iff_exists'.mp colored
      obtain ⟨space, r, g, b, named, written⟩ := exists_of_ofJsonItems? colored
      rcases written with rfl | ⟨a, rfl⟩
      all_goals
        obtain ⟨first, spaceRead, others⟩ := Option.bind_eq_some_iff.mp items
        obtain rfl := ofJson?_of_isRgbSpace named spaceRead
        simp [ofJsonAll?, ofJson?] at others
      · exact noColor _ _ _ others.symm
      · exact noOpacity _ _ _ _ others.symm
    rw [ofJson?, colorless]
    · simp [items]
    · rintro x y rfl
      exact noVector (read x) (read y) (by simpa [ofJsonAll?, ofJson?] using items.symm)

theorem ofJsonAll?_map {f : Value → Value} {items : List Value}
    (each : ∀ item ∈ items, ofJson? read item.json = some (f item)) :
    ofJsonAll? read (items.map json) = some (items.map f) := by
  induction items with
  | nil => rfl
  | cons item rest ih =>
      obtain ⟨first, others⟩ := List.forall_mem_cons.mp each
      simp only [List.map_cons, ofJsonAll?, first, ih others, Option.bind_eq_bind,
        Option.bind_some]
      rfl

theorem ofJson?_json (value : Value) (keeps : ∀ x ∈ value.numbers, Keeps read x) :
    ofJson? read value.json = some value.reread := by
  induction value using induction_items with
  | null => rfl
  | number x =>
      have kept : Keeps read x := keeps x (by simp [numbers])
      rw [json, if_pos kept.finite, kept.ofFloat_eq, ofJson?, kept.same]
      rfl
  | text content => rfl
  | vector v =>
      have left : Keeps read v.x := keeps v.x (by simp [numbers])
      have right : Keeps read v.y := keeps v.y (by simp [numbers])
      rw [json, left.ofFloat_eq, right.ofFloat_eq, ofJson?, left.same, right.same]
      rfl
  | color c =>
      have channels : ∀ x ∈ [c.r, c.g, c.b, c.a], (Json.ofFloat x).float? read = some x :=
        fun x member => (keeps x member).float?
      simp only [List.forall_mem_cons] at channels
      obtain ⟨red, green, blue, alpha, -⟩ := channels
      have colored : Color.ofJsonFields? read [(some "space", .text "rgb"),
          (some "r", .ofFloat c.r), (some "g", .ofFloat c.g), (some "b", .ofFloat c.b),
          (some "a", .ofFloat c.a)] = some c := by
        simp [Color.ofJsonFields?, List.lookup, red, green, blue, alpha, Color.isRgbSpace,
          Json.text]
      rw [json, Color.json, ofJson?, colored]
      rfl
  | list items ih =>
      have each : ∀ item ∈ items, ofJson? read item.json = some item.reread :=
        fun item member => ih item member fun x inside =>
          keeps x (mem_numbersAll.mpr ⟨item, member, inside⟩)
      rw [json, jsonAll_eq_map, ofJson?_array (ofJsonAll?_map each), taken_map_reread]

theorem isSound_json (value : Value) (keeps : ∀ x ∈ value.numbers, Keeps read x)
    {levels : Nat} (nesting : value.json.nesting ≤ levels) :
    value.json.isSound read levels = true := by
  induction value using induction_items generalizing levels with
  | null => rfl
  | number x =>
      have kept : Keeps read x := keeps x (by simp [numbers])
      rw [json, if_pos kept.finite]
      exact kept.isSound levels
  | text content => rfl
  | vector v =>
      have each : ∀ x ∈ [v.x, v.y], ∀ levels, (Json.ofFloat x).isSound read levels = true :=
        fun x member => (keeps x member).isSound
      simp only [List.forall_mem_cons] at each
      rw [json, Json.nesting] at nesting
      simp only [json, Json.isSound, Json.allSound, each.1, each.2.1, Bool.and_true,
        decide_eq_true_eq]
      exact Nat.zero_lt_of_lt nesting
  | color c =>
      have each : ∀ x ∈ [c.r, c.g, c.b, c.a], ∀ levels,
          (Json.ofFloat x).isSound read levels = true :=
        fun x member => (keeps x member).isSound
      simp only [List.forall_mem_cons] at each
      rw [json, Color.json, Json.nesting] at nesting
      simpa [json, Color.json, Json.isSound, Json.fieldsSound, each, Json.text]
        using Nat.zero_lt_of_lt nesting
  | list items ih =>
      rw [json, jsonAll_eq_map, Json.nesting] at nesting
      simp only [json, jsonAll_eq_map, Json.isSound, Json.allSound_iff, List.forall_mem_map,
        Bool.and_eq_true, decide_eq_true_eq]
      refine ⟨Nat.zero_lt_of_lt nesting, fun item member => ?_⟩
      apply ih item member fun x inside => keeps x (mem_numbersAll.mpr ⟨item, member, inside⟩)
      have each := Json.nestingAll_le_iff.mp (Nat.le_sub_one_of_lt nesting)
      exact each item.json (List.mem_map_of_mem member)

def ReadsAs (read : Literal → Float) (value other : Value) : Prop :=
  ∀ levels, value.json.nesting ≤ levels →
    ofSoundJson? read levels value.json = some other

theorem readsAs_reread {value : Value} (keeps : ∀ x ∈ value.numbers, Keeps read x) :
    value.ReadsAs read value.reread := by
  intro levels nesting
  rw [ofSoundJson?, if_pos (isSound_json value keeps nesting), ofJson?_json value keeps]

end Value
end Tracery
