import Tracery.Proofs.NormalForm.Order
import Tracery.Proofs.OrderedMap
import Tracery.Shape.Arrange

/-! Shapes that are edited in place. Edits of attributes agree on values and places and leave the
kind and the body alone; edits of all children by parameters keep each child in its place. -/

namespace Tracery

namespace Shape

theorem set_set (s : Shape) (key : String) (value second : Value) :
    (s.set key value).set key second = s.set key second :=
  congrArg s.withAttrs (s.attrs.insert_insert key value second)

theorem set_eq_merge (s : Shape) (key : String) (value : Value) :
    s.set key value = s.merge (.ofList [(key, value)]) := rfl

@[simp] theorem merge_empty (s : Shape) : s.merge .empty = s := by
  cases s
  rfl

theorem merge_merge (s : Shape) (a b : Attrs) : (s.merge a).merge b = s.merge (a.merge b) :=
  congrArg s.withAttrs (s.attrs.merge_assoc a b)

theorem without_merge (s : Shape) (a : Attrs) (keys : List String) :
    (s.merge a).without keys = (s.without keys).merge (a.eraseAll keys) :=
  congrArg s.withAttrs (s.attrs.eraseAll_merge a keys)

theorem without_keys_merge (s : Shape) (a : Attrs) :
    (s.merge a).without a.keys = s.without a.keys := by
  rw [without_merge, OrderedMap.eraseAll_keys, merge_empty]

theorem entries_without (s : Shape) (keys : List String) :
    (s.without keys).attrs.entries = s.attrs.entries.filter fun entry => entry.1 ∉ keys := by
  simp [without, OrderedMap.eraseAll, OrderedMap.restrict]

/-- Merging twice is merging the one map that the two make up, setting a value is merging one entry,
and leaving out what was merged is leaving it out of what was there before. A merge leaves every key
where it comes first, with the value that comes last, and what is left of attributes keeps its
order. -/
theorem edits_agree (s : Shape) (a b : Attrs) (key : String) (value : Value) :
    (s.merge a).merge b = s.merge (a.merge b) ∧
    s.set key value = s.merge (.ofList [(key, value)]) ∧
    (s.merge a).without a.keys = s.without a.keys ∧
    (a.merge b).entries = OrderedMap.settled (a.entries ++ b.entries) ∧
    (s.merge a).attrs.entries = OrderedMap.settled (s.attrs.entries ++ a.entries) ∧
    ((s.without a.keys).attrs.entries =
      s.attrs.entries.filter fun entry => entry.1 ∉ a.keys) ∧
    ((s.merge a).kind = s.kind ∧ (s.merge a).body = s.body) ∧
    (s.without a.keys).kind = s.kind ∧ (s.without a.keys).body = s.body := by
  refine ⟨s.merge_merge a b, s.set_eq_merge key value, s.without_keys_merge a, a.entries_merge b,
    s.attrs.entries_merge a, s.entries_without a.keys, ?_, ?_⟩
  · exact ⟨kind_withAttrs .., body_withAttrs ..⟩
  · exact ⟨kind_withAttrs .., body_withAttrs ..⟩

example :
    let s := new .rect (.ofList [("x", .text "1"), ("y", .text "2")])
    (s.merge (.ofList [("width", .text "3"), ("x", .text "9")])).attrs.entries =
      [("x", .text "9"), ("y", .text "2"), ("width", .text "3")] := rfl

end Shape

/-! Parameters spread over the children that are there. A child is kept as far as every parameter
has a value for its place. -/

namespace Param

def value? : Param → Nat → Option Value
  | .one value, _ => some value
  | .many values, i => values[i]?

/-- How many of a number of shapes there are values for. -/
def reach : Param → Nat → Nat
  | .one _, count => count
  | .many values, count => min count values.length

end Param

namespace Shape

section mapChildren

variable (f : Shape → Value → Shape) (s : Shape) (p : Param)

theorem mapChildren_of_leaf (leaf : s.isComposite = false) : s.mapChildren f p = s := by
  rw [mapChildren.eq_def, leaf]
  rfl

@[simp] theorem kind_mapChildren : (s.mapChildren f p).kind = s.kind := by
  obtain ⟨_, _, _ | _ | _⟩ := s <;> cases p <;> rfl

@[simp] theorem attrs_mapChildren : (s.mapChildren f p).attrs = s.attrs := by
  obtain ⟨_, _, _ | _ | _⟩ := s <;> cases p <;> rfl

@[simp] theorem isComposite_mapChildren : (s.mapChildren f p).isComposite = s.isComposite := by
  obtain ⟨_, _, _ | _ | _⟩ := s <;> cases p <;> rfl

@[simp] theorem text?_mapChildren : (s.mapChildren f p).text? = s.text? := by
  obtain ⟨_, _, _ | _ | _⟩ := s <;> cases p <;> rfl

theorem children_mapChildren :
    (s.mapChildren f p).children = match p with
      | .one value => s.children.map (f · value)
      | .many values => List.zipWith f s.children values := by
  obtain ⟨_, _, _ | _ | _⟩ := s <;> cases p <;> rfl

theorem length_children_mapChildren :
    (s.mapChildren f p).children.length = p.reach s.children.length := by
  rw [children_mapChildren]
  cases p with
  | one value => exact List.length_map ..
  | many values => exact List.length_zipWith

theorem getElem?_children_mapChildren (i : Nat) :
    (s.mapChildren f p).children[i]? =
      s.children[i]?.bind fun child => (p.value? i).map (f child) := by
  rw [children_mapChildren]
  cases p with
  | one value => exact List.getElem?_map.trans Option.map_eq_bind
  | many values =>
      refine List.getElem?_zipWith.trans ?_
      rw [Param.value?]
      cases s.children[i]? <;> cases values[i]? <;> rfl

end mapChildren

@[simp] theorem parametrizeIn_values (s : Shape) (key : String) (p : Param) :
    s.parametrizeIn key (.values p) = s.mapChildren (fun child => child.set key) p := rfl

theorem getElem?_children_parametrizeIn_twice (s : Shape) (key other : String) (p q : Param)
    (i : Nat) :
    ((s.parametrizeIn key (.values p)).parametrizeIn other (.values q)).children[i]? =
      s.children[i]?.bind fun child => (p.value? i).bind fun value =>
        (q.value? i).map fun second => (child.set key value).set other second := by
  rw [parametrizeIn_values, parametrizeIn_values, getElem?_children_mapChildren,
    getElem?_children_mapChildren]
  cases s.children[i]? <;> cases p.value? i <;> rfl

theorem parametrizeIn_comm (s : Shape) {key other : String} (different : key ≠ other)
    (p q : Param) :
    ((s.parametrizeIn key (.values p)).parametrizeIn other (.values q)).Reordered
      ((s.parametrizeIn other (.values q)).parametrizeIn key (.values p)) := by
  refine matches_iff.mpr ⟨by simp, by simp, by simp, by simp, allMatch_of_places fun i => ?_⟩
  rw [getElem?_children_parametrizeIn_twice, getElem?_children_parametrizeIn_twice]
  cases s.children[i]? with
  | none => exact .none
  | some child =>
      cases p.value? i <;> cases q.value? i
      case some.some value second =>
        exact .some (child.reordered_withAttrs
          (OrderedMap.perm_insert_comm different child.attrs value second))
      all_goals exact .none

/-- Two parameters for the children that are there may be given in either order. What is left are
the first children, as many as both have values for, with both values set; under one key the later
one stays. -/
theorem parametrizeIn_parametrizeIn (s : Shape) (key other : String) (p q : Param) :
    let varied := (s.parametrizeIn key (.values p)).parametrizeIn other (.values q)
    let swapped := (s.parametrizeIn other (.values q)).parametrizeIn key (.values p)
    (key ≠ other → varied.Reordered swapped ∧ (varied == swapped) = (varied == varied)) ∧
    (s.isComposite = false → varied = s) ∧
    (varied.kind = s.kind ∧ varied.attrs = s.attrs ∧ varied.isComposite = s.isComposite ∧
      varied.text? = s.text?) ∧
    varied.children.length = q.reach (p.reach s.children.length) ∧
    ∀ i child value second, s.children[i]? = some child → p.value? i = some value →
      q.value? i = some second →
        varied.children[i]? = some ((child.set key value).set other second) ∧
        (key = other → varied.children[i]? = some (child.set other second)) := by
  intro varied swapped
  refine ⟨fun different => ?_, fun leaf => ?_, ?_, ?_,
    fun i child value second here first last => ?_⟩
  · have reordered := s.parametrizeIn_comm different p q
    exact ⟨reordered, (reordered.sameAs_eq varied).symm⟩
  · simp only [varied, parametrizeIn_values, mapChildren_of_leaf _ _ _ leaf]
  · simp [varied]
  · simp only [varied, parametrizeIn_values, length_children_mapChildren]
  · have placed := s.getElem?_children_parametrizeIn_twice key other p q i
    rw [here, first, last] at placed
    refine ⟨placed, ?_⟩
    rintro rfl
    exact placed.trans (congrArg some (child.set_set key value second))

theorem parametrizeIn_parametrizeIn_labels :
    let first := label "a" .empty
    let s := group [first, label "b" .empty] .empty
    let p : Param := .many [.text "x"]
    let q : Param := .one (.text "red")
    let varied := (s.parametrizeIn "id" (.values p)).parametrizeIn "fill" (.values q)
    let swapped := (s.parametrizeIn "fill" (.values q)).parametrizeIn "id" (.values p)
    let again := (s.parametrizeIn "id" (.values p)).parametrizeIn "id" (.values q)
    "id" ≠ "fill" ∧ varied.Reordered swapped ∧ first.isComposite = false ∧
      (first.parametrizeIn "id" (.values p)).parametrizeIn "fill" (.values q) = first ∧
      varied.children.length = 1 ∧
      varied.children[0]? = some ((first.set "id" (.text "x")).set "fill" (.text "red")) ∧
      again.children[0]? = some (first.set "id" (.text "red")) := by
  intro first s p q varied swapped again
  have different : "id" ≠ "fill" := by decide
  obtain ⟨commute, -, -, length, each⟩ := parametrizeIn_parametrizeIn s "id" "fill" p q
  obtain ⟨-, alone, -⟩ := parametrizeIn_parametrizeIn first "id" "fill" p q
  obtain ⟨-, -, -, -, same⟩ := parametrizeIn_parametrizeIn s "id" "id" p q
  exact ⟨different, (commute different).1, rfl, alone rfl, length,
    (each 0 first (.text "x") (.text "red") rfl rfl rfl).1,
    (same 0 first (.text "x") (.text "red") rfl rfl rfl).2 rfl⟩

end Shape
end Tracery
