import Mathlib.Data.List.Induction
import Mathlib.Data.List.Rotate
import Tracery.Path.RoundedPolygon

/-! Polygons with their corners cut off. The path around one visits the vertices in order, each
between the edge that leads to it and the edge that leads on, and ends where it began. -/

namespace Tracery

theorem cornerCuts_eq_zipWith_rotate (radius : Float) (vertices : List Vec) :
    cornerCuts radius vertices =
      List.zipWith (Corner.between radius) vertices (vertices.rotate 1) := by
  cases vertices with
  | nil => rfl
  | cons first rest => rw [cornerCuts, List.rotate_eq_drop_append_take (by simp)]

@[simp] theorem length_cornerCuts (radius : Float) (vertices : List Vec) :
    (cornerCuts radius vertices).length = vertices.length := by
  simp [cornerCuts_eq_zipWith_rotate]

/-- A closed polygon, its vertices numbered in order. The radius is how far along an edge a corner
is cut off. -/
structure CutPolygon where
  sides : Nat
  vertex : Nat → Vec
  radius : Float

namespace CutPolygon

def regular (center : Vec) (width : Float) (sides : Nat) (radius : Float) : CutPolygon where
  sides := sides
  vertex i := circlePoint (pi * 2 / Binary.ofNat sides * Binary.ofNat i + radians 90)
    (width / Float.sqrt 3) center
  radius := radius

variable (p : CutPolygon)

def vertices : List Vec := (List.range p.sides).map p.vertex

def target (i : Nat) : Vec := p.vertex ((i + 1) % p.sides)

/-- What an edge is cut short by, at both of its ends. -/
def inset (i : Nat) : Vec := (p.target i - p.vertex i).unit * p.radius

def leave (i : Nat) : Vec := p.vertex i + p.inset i

def arrive (i : Nat) : Vec := p.target i - p.inset i

def turn (i : Nat) : List PathCommand :=
  [.quadTo (p.vertex i) (p.leave i), .lineTo (p.arrive i)]

/-- From the end of the last edge around all vertices, and back. -/
def walk : List PathCommand :=
  .moveTo (p.arrive (p.sides - 1)) :: (List.range p.sides).flatMap p.turn ++ [.close]

theorem cornerCuts_vertices :
    cornerCuts p.radius p.vertices =
      (List.range p.sides).map fun i => ⟨p.vertex i, p.leave i, p.arrive i⟩ := by
  apply List.ext_getElem
  · simp [vertices]
  · intro i left right
    simp only [cornerCuts_eq_zipWith_rotate, vertices, List.getElem_zipWith, List.getElem_rotate,
      List.getElem_map, List.getElem_range, List.length_map, List.length_range]
    rfl

theorem length_turns (n : Nat) : ((List.range n).flatMap p.turn).length = 2 * n := by
  induction n with
  | zero => rfl
  | succ n ih =>
      rw [List.range_succ, List.flatMap_append, List.length_append, ih, List.flatMap_singleton]
      exact (Nat.mul_succ 2 n).symm

theorem turn_at {n i : Nat} (inside : i < n) :
    ((List.range n).flatMap p.turn)[2 * i]? = some (.quadTo (p.vertex i) (p.leave i)) ∧
      ((List.range n).flatMap p.turn)[2 * i + 1]? = some (.lineTo (p.arrive i)) := by
  induction n with
  | zero => cases inside
  | succ n ih =>
      rw [List.range_succ, List.flatMap_append, List.flatMap_singleton]
      rcases Nat.lt_succ_iff_lt_or_eq.mp inside with earlier | rfl
      · rw [List.getElem?_append_left (by rw [length_turns]; omega),
          List.getElem?_append_left (by rw [length_turns]; omega)]
        exact ih earlier
      · rw [List.getElem?_append_right (by rw [length_turns]),
          List.getElem?_append_right (by rw [length_turns]; omega), length_turns]
        simp [turn]

theorem length_walk : p.walk.length = 2 * p.sides + 2 := by
  rw [walk, List.length_append, List.length_cons, length_turns, List.length_singleton]

theorem walk_succ {place : Nat} (inside : place < 2 * p.sides) :
    p.walk[place + 1]? = ((List.range p.sides).flatMap p.turn)[place]? := by
  rw [walk, List.cons_append, List.getElem?_cons_succ,
    List.getElem?_append_left (by rwa [length_turns])]

theorem walk_at {i : Nat} (inside : i < p.sides) :
    p.walk[2 * i + 1]? = some (.quadTo (p.vertex i) (p.leave i)) ∧
      p.walk[2 * i + 2]? = some (.lineTo (p.arrive i)) := by
  rw [p.walk_succ (by omega), p.walk_succ (by omega)]
  exact p.turn_at inside

theorem walk_closed (sided : p.sides ≠ 0) :
    ∃ start, p.walk[0]? = some (.moveTo start) ∧ p.walk[2 * p.sides]? = some (.lineTo start) := by
  refine ⟨p.arrive (p.sides - 1), rfl, ?_⟩
  obtain ⟨n, count⟩ := Nat.exists_eq_succ_of_ne_zero sided
  have last := (p.walk_at (i := n) (by omega)).2
  have place : 2 * p.sides = 2 * n + 2 := by omega
  rw [place, last, count, Nat.succ_sub_one]

theorem walk_approaches {i : Nat} (inside : i < p.sides) :
    ∃ edge stop, edge < p.sides ∧ (edge + 1) % p.sides = i ∧
      stop = p.vertex i - p.inset edge ∧
      (p.walk[2 * i]? = some (.moveTo stop) ∨ p.walk[2 * i]? = some (.lineTo stop)) := by
  -- The first vertex is where the last edge leads to, and only there the path has been moved.
  cases i with
  | zero =>
      have next : (p.sides - 1 + 1) % p.sides = 0 := by
        rw [Nat.sub_add_cancel inside, Nat.mod_self]
      refine ⟨p.sides - 1, p.arrive (p.sides - 1), by omega, next, ?_, .inl rfl⟩
      rw [arrive, target, next]
  | succ i =>
      have next : (i + 1) % p.sides = i + 1 := Nat.mod_eq_of_lt inside
      refine ⟨i, p.arrive i, by omega, next, ?_, .inr (p.walk_at (by omega)).2⟩
      rw [arrive, target, next]

end CutPolygon

theorem roundedPolygon_eq (center : Vec) (width : Float) (sides : Nat) (radius : Float) :
    roundedPolygon center width sides radius =
      if sides = 0 then [] else (CutPolygon.regular center width sides radius).walk := by
  let p := CutPolygon.regular center width sides radius
  have corners : cornerCuts radius (ringPoints (width / Float.sqrt 3) sides center 90) = _ :=
    p.cornerCuts_vertices
  have sided : p.sides = sides := rfl
  simp only [roundedPolygon, corners, sided, List.getLast?_map, List.getLast?_range]
  split
  next bare => rw [if_pos (by simpa using bare)]
  next last found =>
    obtain ⟨many, rfl⟩ : sides ≠ 0 ∧ _ = last := by simpa using found
    rw [if_neg many, CutPolygon.walk, List.flatMap_map]
    rfl

/-- The path of a rounded polygon starts an inset short of its first vertex, goes around each
vertex of the ring and along the edge from it, and closes at the very point that it started at. A
curve leaves its vertex along the edge from it, by the same inset that the edge ends short of the
next one, and is bent at the vertex that the path has just stopped short of. -/
theorem roundedPolygon_walk (center : Vec) (width : Float) (sides : Nat) (radius : Float) :
    let p := CutPolygon.regular center width sides radius
    let commands := roundedPolygon center width sides radius
    p.vertices = ringPoints (width / Float.sqrt 3) sides center 90 ∧
      commands = (if sides = 0 then [] else p.walk) ∧
      commands.length = (if sides = 0 then 0 else 2 * sides + 2) ∧
      (sides ≠ 0 → ∃ start, commands[0]? = some (.moveTo start) ∧
        commands[2 * sides]? = some (.lineTo start)) ∧
      ∀ i < sides, ∃ edge stop, edge < sides ∧ (edge + 1) % sides = i ∧
        stop = p.vertex i - p.inset edge ∧
        (commands[2 * i]? = some (.moveTo stop) ∨ commands[2 * i]? = some (.lineTo stop)) ∧
        commands[2 * i + 1]? = some (.quadTo (p.vertex i) (p.leave i)) := by
  intro p commands
  have walked : commands = if sides = 0 then [] else p.walk :=
    roundedPolygon_eq center width sides radius
  refine ⟨rfl, walked, ?_, fun sided => ?_, fun i inside => ?_⟩
  · rw [walked]
    split
    · rfl
    · exact p.length_walk
  · rw [walked, if_neg sided]
    exact p.walk_closed sided
  · rw [walked, if_neg (Nat.ne_zero_of_lt inside)]
    obtain ⟨edge, stop, before, next, short, reached⟩ := p.walk_approaches inside
    exact ⟨edge, stop, before, next, short, reached, (p.walk_at inside).1⟩

theorem roundedPolygon_walk_twice :
    let p := CutPolygon.regular .zero 10 2 1
    let commands := roundedPolygon .zero 10 2 1
    2 ≠ 0 ∧ 1 < 2 ∧ commands.length = 6 ∧
      (∃ start, commands[0]? = some (.moveTo start) ∧ commands[4]? = some (.lineTo start)) ∧
      ∃ stop, stop = p.vertex 1 - p.inset 0 ∧
        (commands[2]? = some (.moveTo stop) ∨ commands[2]? = some (.lineTo stop)) ∧
        commands[3]? = some (.quadTo (p.vertex 1) (p.leave 1)) := by
  intro p commands
  obtain ⟨-, -, length, closed, turned⟩ := roundedPolygon_walk .zero 10 2 1
  obtain ⟨edge, stop, before, next, short, turn⟩ := turned 1 (by decide)
  obtain rfl : edge = 0 := by omega
  exact ⟨by decide, by decide, length, closed (by decide), stop, short, turn⟩

/-- An edge by its number, cut at both ends; nothing where there is no vertex at one of them. -/
def cornerAt? (radius : Float) (vertices : List Vec) (i : Nat) : Option Corner := do
  let v ← vertices[i]?
  let w ← vertices[(i + 1) % vertices.length]?
  return Corner.between radius v w

theorem cornerAt?_eq_getElem (radius : Float) {vertices : List Vec} {i : Nat}
    (inside : i < (cornerCuts radius vertices).length) :
    cornerAt? radius vertices i = some (cornerCuts radius vertices)[i] := by
  have here : i < vertices.length := length_cornerCuts radius vertices ▸ inside
  have next : (i + 1) % vertices.length < vertices.length :=
    Nat.mod_lt _ (Nat.zero_lt_of_lt here)
  simp only [cornerAt?, List.getElem?_eq_getElem here, List.getElem?_eq_getElem next,
    Option.bind_eq_bind, Option.bind_some, cornerCuts_eq_zipWith_rotate, List.getElem_zipWith,
    List.getElem_rotate]
  rfl

theorem mapM_range_eq_some {α : Type} {f : Nat → Option α} (items : List α)
    (each : ∀ (i : Nat) (inside : i < items.length), f i = some items[i]) :
    (List.range items.length).mapM f = some items := by
  induction items using List.reverseRecOn with
  | nil => rfl
  | append_singleton items item ih =>
      have before : (List.range items.length).mapM f = some items := by
        apply ih
        intro i inside
        rw [each i (by simp; omega), List.getElem_append_left inside]
      have last : f items.length = some item := by
        rw [each items.length (by simp), List.getElem_append_right le_rfl]
        simp
      rw [List.length_append, List.length_singleton, List.range_succ, List.mapM_append, before]
      simp [last]

/-- Which vertex is the first does not matter: the edges of a polygon that is numbered from another
vertex are numbered from there. Walking over the edges by their numbers never misses a vertex, and
gives the cut edges. -/
theorem cornerCuts_rotate (radius : Float) (vertices : List Vec) (k : Nat) :
    cornerCuts radius (vertices.rotate k) = (cornerCuts radius vertices).rotate k ∧
      (List.range vertices.length).mapM (cornerAt? radius vertices) =
        some (cornerCuts radius vertices) := by
  constructor
  · -- Every vertex is paired with the next one, and both lists are turned alike.
    rw [cornerCuts_eq_zipWith_rotate, cornerCuts_eq_zipWith_rotate, List.rotate_rotate,
      Nat.add_comm, ← List.rotate_rotate]
    exact (List.zipWith_rotate_distrib _ _ _ k (List.length_rotate ..).symm).symm
  · have numbered := mapM_range_eq_some (cornerCuts radius vertices)
      fun i inside => cornerAt?_eq_getElem radius inside
    rwa [length_cornerCuts] at numbered

end Tracery
