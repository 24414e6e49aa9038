import Mathlib.Data.List.Forall2
import Mathlib.Data.List.Induction
import Tracery.Shape.Arrange

/-! Copies of copies. A shape that is spread along one series of values after the other becomes a
lattice, in which a copy is found by picking a value of each series. -/

namespace Tracery

structure Series where
  key : String
  values : List Value

namespace Shape

def descendant? (s : Shape) : List Nat → Option Shape
  | [] => some s
  | i :: path => s.children[i]?.bind fun child => child.descendant? path

/-- Spreads a shape along one series after the other, so that the first comes innermost. -/
def spread (s : Shape) (all : List Series) : Shape :=
  all.foldl (fun copies series => copies.parametrizeOn series.key (.many series.values)) s

/-- Whether a path takes, in copies along series with the outermost first, a copy for one of the
values each time, and goes on inside of the last one if it is longer. -/
def HasPlace (s : Shape) : List Series → List Nat → Prop
  | [], path => (s.descendant? path).isSome
  | _ :: _, [] => True
  | series :: inner, i :: path => i < series.values.length ∧ s.HasPlace inner path

private theorem zipWith_replicate_length {α β γ : Type} (f : α → β → γ) (a : α) (l : List β) :
    List.zipWith f (List.replicate l.length a) l = l.map (f a) := by
  induction l with
  | nil => rfl
  | cons b l ih =>
      rw [List.length_cons, List.replicate_succ, List.zipWith_cons_cons, ih, List.map_cons]

theorem parametrizeOn_many (s : Shape) (key : String) (values : List Value) :
    s.parametrizeOn key (.many values) = group (values.map (s.set key)) .empty :=
  congrArg (group · .empty) (zipWith_replicate_length ..)

theorem spread_concat (s : Shape) (all : List Series) (series : Series) :
    s.spread (all ++ [series]) =
      group (series.values.map ((s.spread all).set series.key)) .empty := by
  rw [spread, List.foldl_append, List.foldl_cons, List.foldl_nil, parametrizeOn_many, spread]

theorem exists_spread_eq_group (s : Shape) {all : List Series} (many : all ≠ []) :
    ∃ shapes, s.spread all = group shapes .empty := by
  obtain ⟨inner, series, rfl⟩ := all.eq_nil_or_concat'.resolve_left many
  exact ⟨_, s.spread_concat inner series⟩

theorem descendant?_group_cons (shapes : List Shape) (attrs : Attrs) (i : Nat) (path : List Nat) :
    (group shapes attrs).descendant? (i :: path) =
      shapes[i]?.bind fun child => child.descendant? path := rfl

theorem descendant?_set {path : List Nat} (below : path ≠ []) (s : Shape) (key : String)
    (value : Value) : (s.set key value).descendant? path = s.descendant? path := by
  cases path with
  | nil => exact absurd rfl below
  | cons i path => rfl

theorem isSome_descendant?_set (s : Shape) (key : String) (value : Value) (path : List Nat) :
    ((s.set key value).descendant? path).isSome = (s.descendant? path).isSome := by
  cases path <;> rfl

theorem descendant?_spread (s : Shape) (inner : List Series) (series : Series)
    {outer : List Series} {path : List Nat}
    (picked : List.Forall₂ (fun i level => i < level.values.length) path outer.reverse)
    (i : Nat) :
    (s.spread (inner ++ series :: outer)).descendant? (path ++ [i]) =
      series.values[i]?.map ((s.spread inner).set series.key) := by
  induction outer using List.reverseRecOn generalizing path with
  | nil =>
      cases picked
      rw [spread_concat, List.nil_append, descendant?_group_cons, List.getElem?_map]
      exact Option.bind_fun_some _
  | append_singleton outer last ih =>
      rw [List.reverse_concat] at picked
      cases picked with
      | cons inside picked =>
          rw [← List.cons_append, ← List.append_assoc, spread_concat, List.cons_append,
            descendant?_group_cons, List.getElem?_map, List.getElem?_eq_getElem inside,
            Option.map_some, Option.bind_some, descendant?_set (by simp), ih picked]

theorem isSome_descendant?_spread (s : Shape) (all : List Series) (path : List Nat) :
    ((s.spread all).descendant? path).isSome ↔ s.HasPlace all.reverse path := by
  induction all using List.reverseRecOn generalizing path with
  | nil => exact Iff.rfl
  | append_singleton all last ih =>
      cases path with
      | nil => simp [HasPlace, descendant?]
      | cons i path =>
          rw [spread_concat, List.reverse_concat, descendant?_group_cons, HasPlace, ← ih,
            List.getElem?_map]
          by_cases inside : i < last.values.length
          · simp [inside, isSome_descendant?_set]
          · simp [inside]

theorem set_group (shapes : List Shape) (key : String) (value : Value) :
    (group shapes .empty).set key value = group shapes (.ofList [(key, value)]) := rfl

theorem grid_many (s : Shape) (rows columns : List Value) :
    s.grid (.many rows) (some (.many columns)) =
      group (rows.map fun x =>
        group (columns.map (s.set "translateY")) (.ofList [("translateX", x)])) .empty := by
  rw [grid, Option.getD_some, row, column, parametrizeOn_many, parametrizeOn_many]
  rfl

/-- A shape that is spread along series of values becomes a complete lattice. Picking a value of
each series, from the outermost in, leads to a copy with the values that were picked, and every
other place is inside of a copy. A grid is a lattice of two series, and rows, columns and rings are
lattices of one. -/
theorem spread_lattice (s : Shape) {all : List Series} (many : all ≠ []) :
    (∃ shapes, s.spread all = group shapes .empty) ∧
    (∀ inner series outer, all = inner ++ series :: outer → ∀ path,
      List.Forall₂ (fun i level => i < level.values.length) path outer.reverse →
      ∀ i value, series.values[i]? = some value →
        (inner = [] → (s.spread all).descendant? (path ++ [i]) = some (s.set series.key value)) ∧
        (inner ≠ [] → ∃ shapes, (s.spread all).descendant? (path ++ [i]) =
          some (group shapes (.ofList [(series.key, value)])))) ∧
    (∀ path, ((s.spread all).descendant? path).isSome ↔ s.HasPlace all.reverse path) ∧
    (∀ rows columns, s.grid (.many rows) (some (.many columns)) =
        s.spread [⟨"translateY", columns⟩, ⟨"translateX", rows⟩] ∧
      s.grid (.many rows) (some (.many columns)) =
        group (rows.map fun x =>
          group (columns.map (s.set "translateY")) (.ofList [("translateX", x)])) .empty ∧
      s.grid (.many rows) none = s.grid (.many rows) (some (.many rows))) ∧
    (∀ values, s.row (.many values) = s.spread [⟨"translateX", values⟩] ∧
      s.column (.many values) = s.spread [⟨"translateY", values⟩]) ∧
    ∀ radius count center, s.ring radius count center =
      s.spread [⟨"translate", (ringPoints radius count center 0).map .vector⟩] ∧
        (ringPoints radius count center 0).length = count := by
  refine ⟨s.exists_spread_eq_group many, ?_, s.isSome_descendant?_spread all, ?_, ?_, ?_⟩
  · rintro inner series outer rfl path picked i value chosen
    have reached := s.descendant?_spread inner series picked i
    rw [chosen, Option.map_some] at reached
    refine ⟨?_, fun more => ?_⟩
    · rintro rfl
      exact reached
    · obtain ⟨shapes, copies⟩ := s.exists_spread_eq_group more
      rw [copies, set_group] at reached
      exact ⟨shapes, reached⟩
  · exact fun rows columns => ⟨rfl, s.grid_many rows columns, rfl⟩
  · exact fun values => ⟨rfl, rfl⟩
  · exact fun radius count center => ⟨rfl, length_ringPoints radius count center 0⟩

theorem spread_lattice_labels :
    let s := label "a" .empty
    let names : Series := ⟨"id", [.text "x"]⟩
    let classes : Series := ⟨"class", [.text "p", .text "q"]⟩
    let lattice := s.spread [names, classes]
    [names, classes] ≠ [] ∧
      List.Forall₂ (fun i (level : Series) => i < level.values.length) [1] [classes].reverse ∧
      lattice.descendant? [1, 0] = some (s.set "id" (.text "x")) ∧
      ∃ shapes, lattice.descendant? [1] =
        some (group shapes (.ofList [("class", .text "q")])) := by
  intro s names classes lattice
  have picked : List.Forall₂ (fun i (level : Series) => i < level.values.length) [1]
    [classes].reverse := .cons (by decide) .nil
  have many : [names, classes] ≠ [] := by simp
  obtain ⟨-, nodes, -⟩ := spread_lattice s many
  refine ⟨many, picked, ?_, ?_⟩
  · exact (nodes [] names [classes] rfl [1] picked 0 (.text "x") rfl).1 rfl
  · exact (nodes [names] classes [] rfl [] .nil 1 (.text "q") rfl).2 (by simp)

end Shape
end Tracery
