import Mathlib.Data.Finset.Card
import Tracery.Proofs.Drawing.Recursion
import Tracery.Svg.Document

/-! Documents as forests. What an element lists as its children are exactly the
elements that name it as their parent, and no element stands above itself. -/

namespace Tracery.Svg

namespace Document

def childrenOf (d : Document) (id : Nat) : List Nat :=
  ((d.get? id).map Element.children).getD []

/-- The ancestor that is so many steps above an element, if there is one. -/
def climb (d : Document) : Nat → Nat → Option Nat
  | 0, id => some id
  | steps + 1, id => (d.parent? id).bind (d.climb steps)

structure Forest (d : Document) : Prop where
  mem_children_iff : ∀ parent child,
    child ∈ d.childrenOf parent ↔ d.parent? child = some parent
  children_nodup : ∀ parent, (d.childrenOf parent).Nodup
  parent_exists : ∀ child parent,
    d.parent? child = some parent → (d.get? parent).isSome
  acyclic : ∀ id steps, d.climb (steps + 1) id ≠ some id

theorem exists_of_parent? {d : Document} {id parent : Nat}
    (above : d.parent? id = some parent) : (d.get? id).isSome := by
  unfold parent? at above
  cases found : d.get? id with
  | none => simp [found] at above
  | some _ => rfl

theorem lt_size_of_exists {d : Document} {id : Nat}
    (existing : (d.get? id).isSome) : id < d.elements.size := by
  simpa [get?] using existing

theorem climb_add (d : Document) (first second id : Nat) :
    d.climb (first + second) id = (d.climb first id).bind (d.climb second) := by
  induction first generalizing id with
  | zero => simp [climb]
  | succ first ih =>
      rw [Nat.succ_add]
      cases above : d.parent? id with
      | none => simp [climb, above]
      | some parent => simpa [climb, above] using ih parent

theorem climb_congr {d e : Document}
    (parents : ∀ id, e.parent? id = d.parent? id) (steps id : Nat) :
    e.climb steps id = d.climb steps id := by
  induction steps generalizing id with
  | zero => rfl
  | succ steps ih =>
      have same : e.climb steps = d.climb steps := funext ih
      rw [climb, climb, parents, same]

theorem mem_lineage_iff (d : Document) (limit id ancestor : Nat) :
    ancestor ∈ d.lineage limit id ↔
      ∃ steps < limit, d.climb steps id = some ancestor := by
  induction limit generalizing id with
  | zero => simp [lineage]
  | succ limit ih =>
      rw [lineage, List.mem_cons]
      constructor
      · rintro (rfl | above)
        · exact ⟨0, Nat.succ_pos limit, rfl⟩
        · cases next : d.parent? id with
          | none => simp [next] at above
          | some parent =>
              rw [next] at above
              obtain ⟨steps, bound, climbed⟩ := (ih parent).mp above
              exact ⟨steps + 1, by omega, by simpa [climb, next] using climbed⟩
      · rintro ⟨steps, bound, climbed⟩
        cases steps with
        | zero => exact .inl (Option.some.inj climbed).symm
        | succ steps =>
            right
            cases next : d.parent? id with
            | none => simp [climb, next] at climbed
            | some parent =>
                exact (ih parent).mpr
                  ⟨steps, by omega, by simpa [climb, next] using climbed⟩

namespace Forest

variable {d : Document}

theorem child_exists (forest : d.Forest) {parent child : Nat}
    (listed : child ∈ d.childrenOf parent) : (d.get? child).isSome :=
  exists_of_parent? ((forest.mem_children_iff parent child).mp listed)

theorem climb_injective (forest : d.Forest) {id ancestor low high : Nat}
    (lower : d.climb low id = some ancestor)
    (upper : d.climb high id = some ancestor) : low = high := by
  wlog ordered : low ≤ high generalizing low high
  · exact (this upper lower (by omega)).symm
  obtain ⟨distance, rfl⟩ := Nat.exists_eq_add_of_le ordered
  cases distance with
  | zero => rfl
  | succ distance =>
      rw [climb_add, lower, Option.bind_some] at upper
      exact absurd upper (forest.acyclic ancestor distance)

/-- No element has more ancestors than there are elements. -/
theorem steps_le_size (forest : d.Forest) {id ancestor steps : Nat}
    (climbed : d.climb steps id = some ancestor) : steps ≤ d.elements.size := by
  have reached : ∀ step < steps, ∃ element, d.climb step id = some element ∧
      element < d.elements.size := by
    intro step below
    obtain ⟨distance, rfl⟩ := Nat.exists_eq_add_of_lt below
    rw [Nat.add_assoc, climb_add] at climbed
    cases here : d.climb step id with
    | none => simp [here] at climbed
    | some element =>
        refine ⟨element, rfl, ?_⟩
        cases above : d.parent? element with
        | none => simp [here, climb, above] at climbed
        | some parent => exact lt_size_of_exists (exists_of_parent? above)
  have bound := Finset.card_le_card_of_injOn
    (s := Finset.range steps) (t := Finset.range d.elements.size)
    (fun step => (d.climb step id).getD 0) ?_ ?_
  · simpa using bound
  · intro step inside
    obtain ⟨element, here, existing⟩ := reached step (by simpa using inside)
    simpa [here] using existing
  · intro low lowInside high highInside same
    obtain ⟨lower, lowHere, -⟩ := reached low (by simpa using lowInside)
    obtain ⟨upper, highHere, -⟩ := reached high (by simpa using highInside)
    have equal : lower = upper := by simpa [lowHere, highHere] using same
    exact forest.climb_injective lowHere (equal ▸ highHere)

theorem climb_past_size (forest : d.Forest) (id : Nat) :
    d.climb (d.elements.size + 1) id = none := by
  cases climbed : d.climb (d.elements.size + 1) id with
  | none => rfl
  | some ancestor =>
      have := forest.steps_le_size climbed
      omega

theorem isAncestor_iff (forest : d.Forest) (ancestor id : Nat) :
    d.isAncestor ancestor id = true ↔
      ∃ steps, d.climb steps id = some ancestor := by
  rw [isAncestor, List.contains_iff_mem, mem_lineage_iff]
  constructor
  · rintro ⟨steps, -, climbed⟩
    exact ⟨steps, climbed⟩
  · rintro ⟨steps, climbed⟩
    exact ⟨steps, by have := forest.steps_le_size climbed; omega, climbed⟩

/-- What changes no link between elements, and takes none away, keeps a
forest. -/
theorem of_links (forest : d.Forest) {e : Document}
    (parents : ∀ id, e.parent? id = d.parent? id)
    (children : ∀ id, e.childrenOf id = d.childrenOf id)
    (kept : ∀ id, (d.get? id).isSome → (e.get? id).isSome) : e.Forest where
  mem_children_iff parent child := by
    rw [children, parents]
    exact forest.mem_children_iff parent child
  children_nodup parent := by
    rw [children]
    exact forest.children_nodup parent
  parent_exists child parent above := by
    rw [parents] at above
    exact kept parent (forest.parent_exists child parent above)
  acyclic id steps := by
    rw [climb_congr parents]
    exact forest.acyclic id steps

end Forest

theorem get?_update_eq_map (d : Document) (id other : Nat)
    (change : Element → Element) :
    (d.update id change).get? other =
      (d.get? other).map fun e => if other = id then change e else e := by
  rw [get?_update]
  by_cases here : other = id <;> simp [here]

theorem map_get?_update {β : Type} (view : Element → β) {change : Element → Element}
    (still : ∀ e, view (change e) = view e) (d : Document) (id other : Nat) :
    ((d.update id change).get? other).map view = (d.get? other).map view := by
  rw [get?_update_eq_map, Option.map_map]
  congr 1
  funext e
  by_cases here : other = id <;> simp [here, still]

theorem parent?_update {change : Element → Element}
    (still : ∀ e, (change e).parent = e.parent) (d : Document) (id other : Nat) :
    (d.update id change).parent? other = d.parent? other := by
  have joined (found : Option Element) :
      (found.map Element.parent).join = found.bind Element.parent := by
    cases found <;> rfl
  rw [parent?, parent?, ← joined, ← joined, map_get?_update Element.parent still]

theorem childrenOf_update {change : Element → Element}
    (still : ∀ e, (change e).children = e.children) (d : Document) (id other : Nat) :
    (d.update id change).childrenOf other = d.childrenOf other := by
  rw [childrenOf, childrenOf, map_get?_update Element.children still]

/-! An append is taken up if both elements exist and it closes no circle. -/

def Accepts (d : Document) (parent child : Nat) : Prop :=
  (d.get? parent).isSome ∧ (d.get? child).isSome ∧
    d.isAncestor child parent = false

theorem append_of_not_accepts {d : Document} {parent child : Nat}
    (ignored : ¬ d.Accepts parent child) : d.append parent child = d := by
  unfold append
  cases above : d.get? parent with
  | none => rfl
  | some _ =>
      cases below : d.get? child with
      | none => rfl
      | some moved =>
          cases circular : d.isAncestor child parent with
          | true => simp
          | false => exact absurd ⟨by simp [above], by simp [below], circular⟩ ignored

theorem get?_append {d : Document} {parent child : Nat}
    (accepted : d.Accepts parent child) (id : Nat) :
    (d.append parent child).get? id = (d.get? id).map fun e =>
      { e with
        children :=
          (if d.parent? child = some id then e.children.filter (· != child)
            else e.children) ++ (if id = parent then [child] else [])
        parent := if id = child then some parent else e.parent } := by
  obtain ⟨parentExists, childExists, circular⟩ := accepted
  obtain ⟨_, above⟩ := Option.isSome_iff_exists.mp parentExists
  obtain ⟨moved, below⟩ := Option.isSome_iff_exists.mp childExists
  have former : d.parent? child = moved.parent := by simp [parent?, below]
  unfold append
  simp only [above, below, circular, former, Bool.false_eq_true, if_false]
  cases moved.parent with
  | none =>
      simp only [get?_update_eq_map, Option.map_map]
      congr 1
      funext e
      simp only [Function.comp_apply]
      split_ifs <;> simp_all
  | some old =>
      simp only [get?_update_eq_map, Option.map_map]
      congr 1
      funext e
      simp only [Function.comp_apply, Option.some.injEq, eq_comm (a := old)]
      split_ifs <;> simp_all

theorem map_get?_append {β : Type} (view : Element → β)
    (still : ∀ (e : Element) children parent, view { e with children, parent } = view e)
    (d : Document) (parent child id : Nat) :
    ((d.append parent child).get? id).map view = (d.get? id).map view := by
  by_cases accepted : d.Accepts parent child
  · rw [get?_append accepted, Option.map_map]
    exact congrArg (Option.map · _) (funext fun e => still e _ _)
  · rw [append_of_not_accepts accepted]

theorem parent?_append {d : Document} {parent child : Nat}
    (accepted : d.Accepts parent child) (id : Nat) :
    (d.append parent child).parent? id =
      if id = child then some parent else d.parent? id := by
  rw [parent?, get?_append accepted]
  cases found : d.get? id with
  | some e =>
      have former : d.parent? id = e.parent := by simp [parent?, found]
      by_cases atChild : id = child <;> simp [atChild, former]
  | none =>
      have elsewhere : id ≠ child := by
        rintro rfl
        simpa [found] using accepted.2.1
      simp [elsewhere, parent?, found]

theorem Forest.childrenOf_append {d : Document} (forest : d.Forest)
    {parent child : Nat} (accepted : d.Accepts parent child) (id : Nat) :
    (d.append parent child).childrenOf id =
      (d.childrenOf id).filter (· != child) ++
        if id = parent then [child] else [] := by
  rw [childrenOf, get?_append accepted]
  cases found : d.get? id with
  | none =>
      have elsewhere : id ≠ parent := by
        rintro rfl
        simpa [found] using accepted.1
      simp [childrenOf, found, elsewhere]
  | some e =>
      have children : d.childrenOf id = e.children := by simp [childrenOf, found]
      by_cases old : d.parent? child = some id
      · simp [children, old]
      · -- Only the former parent lists the child.
        have absent : child ∉ e.children := by
          rw [← children, forest.mem_children_iff]
          exact old
        have untouched : e.children.filter (· != child) = e.children := by
          rw [List.filter_eq_self]
          intro other member
          have : other ≠ child := by
            rintro rfl
            exact absent member
          simpa using this
        simp [children, old, untouched]

theorem get?_isSome_append {d : Document} {parent child id : Nat}
    (existing : (d.get? id).isSome) :
    ((d.append parent child).get? id).isSome := by
  by_cases accepted : d.Accepts parent child
  · rw [get?_append accepted]
    simpa using existing
  · rwa [append_of_not_accepts accepted]

/-- Below no element that moves, the line of ancestors stays what it was. -/
theorem climb_append_of_avoids {d : Document} {parent child : Nat}
    (accepted : d.Accepts parent child) {id : Nat}
    (avoids : ∀ steps, d.climb steps id ≠ some child) (steps : Nat) :
    (d.append parent child).climb steps id = d.climb steps id := by
  induction steps generalizing id with
  | zero => rfl
  | succ steps ih =>
      have elsewhere : id ≠ child := by
        rintro rfl
        exact avoids 0 rfl
      rw [climb, climb, parent?_append accepted, if_neg elsewhere]
      cases above : d.parent? id with
      | none => rfl
      | some next =>
          apply ih
          intro more climbed
          exact avoids (more + 1) (by simpa [climb, above] using climbed)

theorem exists_climb_append {d : Document} {parent child : Nat}
    (accepted : d.Accepts parent child) {id steps : Nat}
    (climbed : d.climb steps id = some child) :
    ∃ more, (d.append parent child).climb more id = some child := by
  induction steps generalizing id with
  | zero => exact ⟨0, climbed⟩
  | succ steps ih =>
      by_cases here : id = child
      · exact ⟨0, congrArg some here⟩
      · cases above : d.parent? id with
        | none => simp [climb, above] at climbed
        | some next =>
            have onward : d.climb steps next = some child := by
              simpa [climb, above] using climbed
            obtain ⟨more, reached⟩ := ih onward
            refine ⟨more + 1, ?_⟩
            rw [climb, parent?_append accepted, if_neg here, above]
            exact reached

theorem Forest.append_acyclic {d : Document} (forest : d.Forest)
    {parent child : Nat} (accepted : d.Accepts parent child) (id steps : Nat) :
    (d.append parent child).climb (steps + 1) id ≠ some id := by
  intro circle
  have avoids : ∀ steps, d.climb steps parent ≠ some child := by
    intro steps climbed
    have above := (forest.isAncestor_iff child parent).mpr ⟨steps, climbed⟩
    rw [accepted.2.2] at above
    contradiction
  by_cases apart : ∀ steps, d.climb steps id ≠ some child
  · rw [climb_append_of_avoids accepted apart] at circle
    exact forest.acyclic id steps circle
  · -- The circle leads through the moved element, hence through its parent.
    obtain ⟨before, below⟩ : ∃ before, d.climb before id = some child := by
      simpa using apart
    obtain ⟨ahead, reached⟩ := exists_climb_append accepted below
    have around : (d.append parent child).climb (steps + 1) child = some child := by
      calc
        (d.append parent child).climb (steps + 1) child =
            (d.append parent child).climb (ahead + (steps + 1)) id := by
          rw [climb_add _ ahead, reached, Option.bind_some]
        _ = (d.append parent child).climb (steps + 1 + ahead) id := by
          rw [Nat.add_comm]
        _ = some child := by
          rw [climb_add _ (steps + 1), circle, Option.bind_some, reached]
    rw [climb, parent?_append accepted, if_pos rfl, Option.bind_some,
      climb_append_of_avoids accepted avoids] at around
    exact avoids steps around

theorem Forest.append {d : Document} (forest : d.Forest) (parent child : Nat) :
    (d.append parent child).Forest := by
  by_cases accepted : d.Accepts parent child
  · constructor
    · intro listing listed
      rw [forest.childrenOf_append accepted, parent?_append accepted,
        List.mem_append, List.mem_filter, forest.mem_children_iff]
      by_cases moved : listed = child
      · simp [moved, eq_comm]
      · by_cases here : listing = parent <;> simp [moved, here]
    · intro listing
      rw [forest.childrenOf_append accepted]
      apply List.Nodup.append
      · exact (forest.children_nodup listing).filter _
      · by_cases here : listing = parent <;> simp [here]
      · by_cases here : listing = parent <;> simp [here]
    · intro listed listing above
      rw [parent?_append accepted] at above
      apply get?_isSome_append
      by_cases moved : listed = child
      · rw [if_pos moved] at above
        exact Option.some.inj above ▸ accepted.1
      · rw [if_neg moved] at above
        exact forest.parent_exists listed listing above
    · exact forest.append_acyclic accepted
  · rwa [append_of_not_accepts accepted]

theorem forest_empty : ({} : Document).Forest where
  mem_children_iff _ _ := by simp [childrenOf, parent?, get?]
  children_nodup _ := by simp [childrenOf, get?]
  parent_exists _ _ above := by simp [parent?, get?] at above
  acyclic _ _ := by simp [climb, parent?, get?]

theorem Forest.update {d : Document} (forest : d.Forest) (id : Nat)
    (change : Element → Element)
    (parent : ∀ e, (change e).parent = e.parent)
    (children : ∀ e, (change e).children = e.children) :
    (d.update id change).Forest := by
  apply forest.of_links
  · exact parent?_update parent d id
  · exact childrenOf_update children d id
  · intro other existing
    rw [get?_update_eq_map]
    simpa using existing

theorem Forest.createElement {d : Document} (forest : d.Forest) (tag : String) :
    (d.createElement tag).2.Forest := by
  have fresh : d.get? d.elements.size = none := by simp [get?]
  apply forest.of_links
  · intro id
    rw [parent?, get?_createElement, parent?]
    by_cases new : id = d.elements.size
    · rw [if_pos new, new, fresh]
      rfl
    · rw [if_neg new]
  · intro id
    rw [childrenOf, get?_createElement, childrenOf]
    by_cases new : id = d.elements.size
    · rw [if_pos new, new, fresh]
      rfl
    · rw [if_neg new]
  · intro id existing
    have old : id ≠ d.elements.size := by
      have := lt_size_of_exists existing
      omega
    rwa [get?_createElement, if_neg old]

theorem forest_invariant : Backend.Invariant Forest where
  create _ kind forest := forest.createElement kind.tag
  setAttribute _ node _ _ forest := forest.update node _ (fun _ => rfl) fun _ => rfl
  append _ parent child forest := forest.append parent child
  setText _ node _ forest := forest.update node _ (fun _ => rfl) fun _ => rfl
  setStyle _ node _ _ forest := forest.update node _ (fun _ => rfl) fun _ => rfl

end Document

/-- One operation on a document. Numbers need not be those of elements, and
drawing a shape may fail. -/
inductive Edit where
  | createElement (tag : String)
  | createNode (kind : Kind)
  | setAttribute (id : Nat) (name value : String)
  | setStyle (id : Nat) (property value : String)
  | setText (id : Nat) (content : String)
  | append (parent child : Nat)
  | compile (options : Options) (s : Shape)

def Edit.apply (d : Document) : Edit → Document
  | .createElement tag => (d.createElement tag).2
  | .createNode kind => (Backend.create d kind).2
  | .setAttribute id name value => d.setAttribute id name value
  | .setStyle id property value => d.setStyle id property value
  | .setText id content => d.setText id content
  | .append parent child => d.append parent child
  | .compile options s => (Backend.compile options s d).2

def Document.edited (edits : List Edit) : Document := edits.foldl Edit.apply {}

theorem Document.Forest.apply {d : Document} (forest : d.Forest) (edit : Edit) :
    (edit.apply d).Forest := by
  cases edit with
  | createElement tag => exact forest.createElement tag
  | createNode kind => exact forest_invariant.create d kind forest
  | setAttribute id name value =>
      exact forest_invariant.setAttribute d id name value forest
  | setStyle id property value =>
      exact forest_invariant.setStyle d id property value forest
  | setText id content => exact forest_invariant.setText d id content forest
  | append parent child => exact forest.append parent child
  | compile options s => exact forest_invariant.compile options s d forest

theorem Document.forest_foldl {d : Document} (forest : d.Forest)
    (edits : List Edit) : (edits.foldl Edit.apply d).Forest := by
  induction edits generalizing d with
  | nil => exact forest
  | cons edit rest ih => exact ih (forest.apply edit)

/-- Whatever is done to a document, its elements form a forest, links lead to
elements that exist, and the walk to the ancestors of an element ends, so that
it answers for all of them. -/
theorem Document.forest_edited (edits : List Edit) :
    (edited edits).Forest ∧
    (∀ parent child, child ∈ (edited edits).childrenOf parent →
      ((edited edits).get? parent).isSome ∧ ((edited edits).get? child).isSome) ∧
    (∀ id, (edited edits).climb ((edited edits).elements.size + 1) id = none) ∧
    ∀ ancestor id, (edited edits).isAncestor ancestor id = true ↔
      ∃ steps, (edited edits).climb steps id = some ancestor := by
  have forest : (edited edits).Forest := forest_foldl forest_empty edits
  refine ⟨forest, ?_, forest.climb_past_size, forest.isAncestor_iff⟩
  intro parent child listed
  have above := (forest.mem_children_iff parent child).mp listed
  exact ⟨forest.parent_exists child parent above, forest.child_exists listed⟩

end Tracery.Svg
