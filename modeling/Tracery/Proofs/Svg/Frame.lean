import Tracery.Proofs.Drawing.Replay
import Tracery.Proofs.Svg.Rendering
import Tracery.Proofs.Svg.Serialization

/-! What drawing leaves alone. All that a document held stays as it was, also if
drawing fails midway: what was added is linked to nothing that was there before.
-/

namespace Tracery.Svg.Document

/-- A document that was added to. The elements ahead are as they were, and no
element behind them has one of them as its parent. -/
structure Grown (d e : Document) : Prop where
  size_le : d.elements.size ≤ e.elements.size
  kept : ∀ id, id < d.elements.size → e.get? id = d.get? id
  apart : ∀ id parent, d.elements.size ≤ id → e.parent? id = some parent →
    d.elements.size ≤ parent

namespace Grown

variable {d e : Document}

theorem refl (d : Document) : d.Grown d where
  size_le := Nat.le_refl _
  kept _ _ := rfl
  apart id parent new above := by
    have := lt_size_of_exists (exists_of_parent? above)
    omega

theorem of_get? (grown : d.Grown e) {id : Nat} {x : Element}
    (found : d.get? id = some x) : e.get? id = some x := by
  rw [grown.kept id (lt_size_of_exists (by simp [found])), found]

theorem extend (grown : d.Grown e) {x : Element} (loose : x.parent = none) :
    d.Grown (e.extend [x]) where
  size_le := by
    have := grown.size_le
    simp only [size_extend, List.length_singleton]
    omega
  kept id old := by
    have inside : id < e.elements.size := Nat.lt_of_lt_of_le old grown.size_le
    rw [← grown.kept id old]
    simp [get?, Document.extend, Array.getElem?_push, inside.ne]
  apart id parent new above := by
    have place : (e.extend [x]).get? id =
        if id = e.elements.size then some x else e.get? id := by
      simp [get?, Document.extend, Array.getElem?_push]
    rw [parent?, place] at above
    split at above
    next => simp [loose] at above
    next => exact grown.apart id parent new above

theorem update (grown : d.Grown e) {id : Nat} (new : d.elements.size ≤ id)
    {change : Element → Element} (still : ∀ x, (change x).parent = x.parent) :
    d.Grown (e.update id change) where
  size_le := by
    rw [size_update]
    exact grown.size_le
  kept other old := by
    rw [get?_update, if_neg (by omega)]
    exact grown.kept other old
  apart other parent otherNew above := by
    apply grown.apart other parent otherNew
    rwa [parent?_update still] at above

theorem append (grown : d.Grown e) {parent child : Nat}
    (parentNew : d.elements.size ≤ parent) (childNew : d.elements.size ≤ child) :
    d.Grown (e.append parent child) := by
  by_cases accepted : e.Accepts parent child
  · constructor
    · rw [size_append]
      exact grown.size_le
    · intro id old
      have former : e.parent? child ≠ some id := by
        intro above
        have := grown.apart child id childNew above
        omega
      have notParent : id ≠ parent := by omega
      have notChild : id ≠ child := by omega
      rw [get?_append accepted, grown.kept id old]
      simp [former, notParent, notChild]
    · intro id above new found
      rw [parent?_append accepted] at found
      split at found
      next => exact Option.some.inj found ▸ parentNew
      next => exact grown.apart id above new found
  · rwa [append_of_not_accepts accepted]

theorem placeOrigin (grown : d.Grown e) {node : Nat}
    (new : d.elements.size ≤ node) (origin : Option String) :
    d.Grown (Backend.placeOrigin e node origin) := by
  cases origin with
  | none => exact grown
  | some origin =>
      have boxed : d.Grown (e.setStyle node "transform-box" "fill-box") :=
        grown.update new fun _ => rfl
      exact boxed.update new fun _ => rfl

private theorem draws (d : Document) (options : Options) :
    (∀ (s : Shape) (e : Document), d.Grown e →
      d.Grown (Backend.compile options s e).2 ∧
      ∀ root, (Backend.compile options s e).1 = .ok root →
        d.elements.size ≤ root) ∧
    ∀ (shapes : List Shape) (parent : Nat) (e : Document),
      d.elements.size ≤ parent → d.Grown e →
        d.Grown (Backend.drawAll options shapes parent e).2 := by
  apply Shape.induction_both
  case shape =>
    intro s below e grown
    rw [Backend.compile_eq]
    cases options.refusal? s with
    | some error => exact ⟨grown, fun _ failed => nomatch failed⟩
    | none =>
        rw [Backend.place_document]
        have placed : d.Grown (e.extend [s.bareElement options]) := grown.extend rfl
        have drawn := below e.elements.size _ grown.size_le placed
        rcases outcome : Backend.drawAll options s.children e.elements.size
          (e.extend [s.bareElement options]) with ⟨_ | error, after⟩
        · rw [outcome] at drawn
          refine ⟨drawn.placeOrigin grown.size_le s.origin?, ?_⟩
          rintro root ⟨⟩
          exact grown.size_le
        · rw [outcome] at drawn
          exact ⟨drawn, fun _ failed => nomatch failed⟩
  case nil =>
    intro parent e _ grown
    rwa [Backend.drawAll_nil]
  case cons =>
    intro s rest first others parent e parentNew grown
    obtain ⟨drawn, rootNew⟩ := first e grown
    rw [Backend.drawAll_cons]
    rcases outcome : Backend.compile options s e with ⟨error | node, after⟩
    · rwa [outcome] at drawn
    · rw [outcome] at drawn rootNew
      exact others parent _ parentNew (drawn.append parentNew (rootNew node rfl))

theorem compile (options : Options) (s : Shape) (d : Document) :
    d.Grown (Backend.compile options s d).2 :=
  ((draws d options).1 s d (.refl d)).1

end Grown

/-! Nothing of a forest that is added to comes to stand below a new element. -/

theorem Forest.climb_exists {d : Document} (forest : d.Forest) {id ancestor steps : Nat}
    (existing : (d.get? id).isSome) (climbed : d.climb steps id = some ancestor) :
    (d.get? ancestor).isSome := by
  cases steps with
  | zero =>
      obtain rfl : id = ancestor := Option.some.inj climbed
      exact existing
  | succ steps =>
      rw [climb_succ] at climbed
      obtain ⟨below, -, above⟩ := Option.bind_eq_some_iff.mp climbed
      exact forest.parent_exists below ancestor above

namespace Grown

variable {d e : Document}

theorem climb_eq (grown : d.Grown e) (forest : d.Forest) {id : Nat}
    (existing : (d.get? id).isSome) (steps : Nat) :
    e.climb steps id = d.climb steps id := by
  induction steps generalizing id with
  | zero => rfl
  | succ steps ih =>
      have same : e.parent? id = d.parent? id := by
        rw [parent?, grown.kept id (lt_size_of_exists existing), parent?]
      rw [climb, climb, same]
      cases above : d.parent? id with
      | none => rfl
      | some parent => exact ih (forest.parent_exists id parent above)

theorem not_below_new (grown : d.Grown e) (forest : d.Forest) {id ancestor : Nat}
    (existing : (d.get? id).isSome) (new : d.elements.size ≤ ancestor) (steps : Nat) :
    e.climb steps id ≠ some ancestor := by
  intro climbed
  rw [grown.climb_eq forest existing] at climbed
  have := lt_size_of_exists (forest.climb_exists existing climbed)
  omega

end Grown

/-! What markup shows of an element depends on nothing but what stands below it. -/

theorem ShowsAll.append {d : Document} {ids others : List Nat} {trees more : List Tree}
    (shows : d.ShowsAll ids trees) (later : d.ShowsAll others more) :
    d.ShowsAll (ids ++ others) (trees ++ more) := by
  induction ids generalizing trees with
  | nil =>
      cases shows
      exact later
  | cons id rest ih =>
      cases shows with
      | cons first below => exact .cons first (ih below)

mutual
theorem Shows.of_agree {d e : Document} (forest : d.Forest) {id : Nat} {tree : Tree}
    (shows : d.Shows id tree)
    (agree : ∀ other x steps, d.climb steps other = some id →
      d.get? other = some x → e.get? other = some x) : e.Shows id tree := by
  cases shows with
  | @element _ x children found below =>
      apply Shows.element (agree id x 0 rfl found)
      apply below.of_agree forest
      intro child listed other y steps climbed present
      exact agree other y (steps + 1)
        (forest.climb_succ_iff.mpr ⟨child, childrenOf_eq found ▸ listed, climbed⟩) present

theorem ShowsAll.of_agree {d e : Document} (forest : d.Forest) {ids : List Nat}
    {trees : List Tree} (shows : d.ShowsAll ids trees)
    (agree : ∀ id ∈ ids, ∀ other x steps, d.climb steps other = some id →
      d.get? other = some x → e.get? other = some x) : e.ShowsAll ids trees := by
  cases shows with
  | nil => exact .nil
  | cons first rest =>
      apply ShowsAll.cons
      · exact first.of_agree forest (agree _ List.mem_cons_self)
      · exact rest.of_agree forest fun id listed => agree id (List.mem_cons_of_mem _ listed)
end

theorem Grown.markup_eq {d e : Document} (grown : d.Grown e) (before : d.Forest)
    (after : e.Forest) {id : Nat} (existing : (d.get? id).isSome) :
    e.markup id = d.markup id := by
  obtain ⟨tree, shows⟩ := before.exists_shows existing
  have still : e.Shows id tree :=
    shows.of_agree before fun _ _ _ _ found => grown.of_get? found
  rw [before.markup_eq shows, after.markup_eq still]

private theorem climb_elements (options : Options) (d : Document) :
    (∀ (s : Shape) (parent : Option Nat) (node : Nat),
      d.Holds node (s.elements options parent node) →
      ∀ id, node ≤ id → id < node + s.size → ∃ steps, d.climb steps id = some node) ∧
    ∀ (shapes : List Shape) (parent next : Nat),
      d.Holds next (Shape.elementsBelow options shapes parent next) →
      ∀ id, next ≤ id → id < next + Shape.sizeAll shapes →
        ∃ steps, d.climb steps id = some parent := by
  apply Shape.induction_both
  case shape =>
    intro s below parent node holds id low high
    rw [Shape.elements_eq] at holds
    rw [Shape.size_eq] at high
    by_cases root : id = node
    · exact ⟨0, congrArg some root⟩
    · exact below node (node + 1) holds.tail id (by omega) (by omega)
  case nil =>
    intro parent next _ id low high
    rw [Shape.sizeAll_nil] at high
    omega
  case cons =>
    intro s rest first others parent next holds id low high
    rw [Shape.elementsBelow_cons] at holds
    rw [Shape.sizeAll_cons] at high
    by_cases inside : id < next + s.size
    · obtain ⟨steps, climbed⟩ := first (some parent) next holds.left id low inside
      have root : d.get? next = some (s.element options _ (some parent)) :=
        (s.elements_eq options (some parent) next ▸ holds.left).head
      refine ⟨steps + 1, ?_⟩
      rw [climb_succ, climbed, Option.bind_some, parent?, root]
      rfl
    · have later := holds.right
      rw [Shape.length_elements] at later
      exact others parent (next + s.size) later id (by omega) (by omega)

theorem compile_root {options : Options} {s : Shape} {d : Document} (forest : d.Forest)
    {root : Nat} (drawn : (Backend.compile options s d).1 = .ok root) :
    let after := (Backend.compile options s d).2
    root = d.elements.size ∧
    (∃ x, after.get? root = some x ∧ x.parent = none ∧
      x.tag = (s.normalForm options.roundAlpha).kind.tag) ∧
    ∀ id, (after.get? id).isSome →
      (d.get? id = none ↔ ∃ steps, after.climb steps id = some root) := by
  have accepted := (Backend.compile_isOk_iff options s d).mp ⟨root, drawn⟩
  have grown := Grown.compile options s d
  rw [Backend.compile_document options s accepted d] at drawn grown ⊢
  obtain rfl := Except.ok.inj drawn
  have holds := d.holds_extend (s.elements options none d.elements.size)
  have first := holds
  rw [Shape.elements_eq] at first
  refine ⟨rfl, ⟨_, s.elements_eq options none _ ▸ first.head, rfl, rfl⟩, ?_⟩
  intro id existing
  constructor
  · intro new
    have low : d.elements.size ≤ id := by simpa [get?] using new
    have high := lt_size_of_exists existing
    rw [size_extend, Shape.length_elements] at high
    exact (climb_elements options _).1 s none _ holds id low high
  · rintro ⟨steps, climbed⟩
    cases old : d.get? id with
    | none => rfl
    | some x =>
        exact absurd climbed (grown.not_below_new forest (by simp [old]) (Nat.le_refl _) steps)

end Tracery.Svg.Document
