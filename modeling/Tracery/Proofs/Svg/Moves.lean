import Mathlib.Logic.Relation
import Tracery.Proofs.Svg.Serialization

/-! Elements that are moved. The parents of an element are what the lists of children lead down
from, and an append moves an element wherever that closes no circle. -/

namespace Tracery.Svg

namespace Document

/-- Whether the lists of children lead from one element down to another. -/
def Above (d : Document) (ancestor id : Nat) : Prop :=
  Relation.TransGen (fun parent child => child ∈ d.childrenOf parent) ancestor id

def CanMove (d : Document) (parent child : Nat) : Prop :=
  (d.get? parent).isSome ∧ (d.get? child).isSome ∧ child ≠ parent ∧ ¬ d.Above child parent

structure Moved (d e : Document) (parent child : Nat) : Prop where
  parent_eq : e.parent? child = some parent
  children_eq : e.childrenOf parent = (d.childrenOf parent).filter (· != child) ++ [child]
  former : ∀ old, d.parent? child = some old → old ≠ parent →
    e.childrenOf old = (d.childrenOf old).filter (· != child)
  others : ∀ id, d.parent? child ≠ some id → id ≠ parent → e.childrenOf id = d.childrenOf id
  parents : ∀ id, id ≠ child → e.parent? id = d.parent? id
  contents : ∀ id, (e.get? id).map (fun x => { x with children := [], parent := none }) =
    (d.get? id).map fun x => { x with children := [], parent := none }

namespace Forest

variable {d : Document}

theorem above_iff (forest : d.Forest) (ancestor id : Nat) :
    d.Above ancestor id ↔ ∃ steps, d.climb (steps + 1) id = some ancestor := by
  constructor
  · -- A link down to a child is the first step of the walk up from it.
    intro above
    induction above with
    | single listed =>
        refine ⟨0, ?_⟩
        rw [climb, (forest.mem_children_iff _ _).mp listed]
        rfl
    | tail _ listed ih =>
        obtain ⟨steps, climbed⟩ := ih
        refine ⟨steps + 1, ?_⟩
        rw [climb, (forest.mem_children_iff _ _).mp listed]
        exact climbed
  · rintro ⟨steps, climbed⟩
    induction steps generalizing id with
    | zero =>
        rw [climb_succ] at climbed
        exact .single ((forest.mem_children_iff _ _).mpr climbed)
    | succ steps ih =>
        rw [climb] at climbed
        obtain ⟨parent, next, climbed⟩ := Option.bind_eq_some_iff.mp climbed
        exact (ih parent climbed).tail ((forest.mem_children_iff _ _).mpr next)

theorem isAncestor_iff_above (forest : d.Forest) (ancestor id : Nat) :
    d.isAncestor ancestor id = true ↔ ancestor = id ∨ d.Above ancestor id := by
  rw [forest.isAncestor_iff, forest.above_iff]
  constructor
  · rintro ⟨steps, climbed⟩
    cases steps with
    | zero => exact .inl (Option.some.inj climbed).symm
    | succ steps => exact .inr ⟨steps, climbed⟩
  · rintro (rfl | ⟨steps, climbed⟩)
    · exact ⟨0, rfl⟩
    · exact ⟨steps + 1, climbed⟩

theorem accepts_iff (forest : d.Forest) (parent child : Nat) :
    d.Accepts parent child ↔ d.CanMove parent child := by
  rw [Accepts, CanMove, ← Bool.not_eq_true, forest.isAncestor_iff_above, not_or]

theorem childrenOf_append_of_ne (forest : d.Forest) {parent child id : Nat}
    (accepted : d.Accepts parent child) (other : id ≠ parent) :
    (d.append parent child).childrenOf id = (d.childrenOf id).filter (· != child) := by
  rw [forest.childrenOf_append accepted, if_neg other, List.append_nil]

theorem moved_append (forest : d.Forest) {parent child : Nat}
    (possible : d.CanMove parent child) : d.Moved (d.append parent child) parent child := by
  have accepted := (forest.accepts_iff parent child).mpr possible
  constructor
  case parent_eq => rw [parent?_append accepted, if_pos rfl]
  case children_eq => rw [forest.childrenOf_append accepted, if_pos rfl]
  case former =>
    intro old _ other
    exact forest.childrenOf_append_of_ne accepted other
  case others =>
    intro id notParent other
    have unlisted : child ∉ d.childrenOf id := by
      rwa [forest.mem_children_iff]
    rw [forest.childrenOf_append_of_ne accepted other, List.filter_eq_self]
    intro listed member
    simpa using fun same : listed = child => unlisted (same ▸ member)
  case parents =>
    intro id other
    rw [parent?_append accepted, if_neg other]
  case contents => exact map_get?_append _ (fun _ _ _ => rfl) d parent child

end Forest

/-- Whatever was done to a document, an append moves an element if both exist and the element is
neither the new parent nor above it, and otherwise does nothing. -/
theorem append_edited (edits : List Edit) :
    let d := edited edits
    (∀ parent child, d.CanMove parent child → d.Moved (d.append parent child) parent child) ∧
    (∀ parent child, ¬ d.CanMove parent child → d.append parent child = d) ∧
    ∀ ancestor id, d.isAncestor ancestor id = true ↔ ancestor = id ∨ d.Above ancestor id := by
  intro d
  have forest : d.Forest := edited_forest edits
  refine ⟨fun _ _ => forest.moved_append, ?_, forest.isAncestor_iff_above⟩
  intro parent child impossible
  rw [← forest.accepts_iff] at impossible
  exact append_of_not_accepts impossible

theorem append_edited_nested :
    let d := edited [.createElement "g", .createElement "g", .createElement "g", .append 0 1,
      .append 1 2]
    d.CanMove 0 2 ∧ d.Moved (d.append 0 2) 0 2 ∧ ¬ d.CanMove 2 0 ∧ d.append 2 0 = d := by
  intro d
  obtain ⟨moved, ignored, ancestors⟩ := append_edited [.createElement "g", .createElement "g",
    .createElement "g", .append 0 1, .append 1 2]
  have apart : ¬ d.Above 2 0 := by
    intro above
    have found : d.isAncestor 2 0 = true := (ancestors 2 0).mpr (.inr above)
    exact absurd found (by decide)
  have possible : d.CanMove 0 2 := ⟨by decide, by decide, by decide, apart⟩
  have impossible : ¬ d.CanMove 2 0 := by
    rintro ⟨-, -, -, notAbove⟩
    rcases (ancestors 0 2).mp (by decide) with same | above
    · cases same
    · exact notAbove above
  exact ⟨possible, moved 0 2 possible, impossible, ignored 2 0 impossible⟩

end Document

end Tracery.Svg
