import Tracery.Proofs.Svg.Canvas

/-! Where a canvas has what was drawn: what was rendered and the definitions below
the root, what was defined below the definitions, all in the order of the calls. -/

namespace Tracery.Svg

namespace Document

variable {d e : Document} {parent : Nat} {child : Option Nat}

theorem Gains.get?_of (gains : d.Gains parent child e) {id : Nat} {x : Element}
    (found : d.get? id = some x) :
    e.get? id = some { x with
      children := x.children ++ if id = parent then child.toList else [] } := by
  by_cases here : id = parent
  · subst here
    rw [if_pos rfl]
    exact gains.listed x found
  · rw [if_neg here, List.append_nil]
    exact gains.kept id x here found

theorem Gains.childrenOf (gains : d.Gains parent child e) {id : Nat}
    (existing : (d.get? id).isSome) :
    e.childrenOf id = d.childrenOf id ++ if id = parent then child.toList else [] := by
  obtain ⟨x, found⟩ := Option.isSome_iff_exists.mp existing
  rw [childrenOf_eq found, childrenOf_eq (gains.get?_of found)]

theorem Gains.tag? (gains : d.Gains parent child e) {id : Nat}
    (existing : (d.get? id).isSome) : e.tag? id = d.tag? id := by
  obtain ⟨x, found⟩ := Option.isSome_iff_exists.mp existing
  rw [tag?_of_get? found, tag?_of_get? (gains.get?_of found)]

theorem Gains.parent? (gains : d.Gains parent child e) {id : Nat}
    (existing : (d.get? id).isSome) : e.parent? id = d.parent? id := by
  obtain ⟨x, found⟩ := Option.isSome_iff_exists.mp existing
  rw [Document.parent?, Document.parent?, found, gains.get?_of found]
  rfl

end Document

namespace Canvas

namespace Outcome

def rendered? : Outcome → Option Nat
  | .rendered result => result.toOption
  | _ => none

def defined? : Outcome → Option Nat
  | .defined result => result.toOption
  | _ => none

/-- Whether something was to be defined, be it in vain. -/
def isDefinition : Outcome → Bool
  | .defined _ => true
  | _ => false

@[simp] theorem rendered?_rendered (result : Except Error Nat) :
    (rendered result).rendered? = result.toOption := rfl

@[simp] theorem rendered?_defined (result : Except Error Nat) :
    (defined result).rendered? = none := rfl

@[simp] theorem rendered?_adjusted : adjusted.rendered? = none := rfl

@[simp] theorem defined?_rendered (result : Except Error Nat) :
    (rendered result).defined? = none := rfl

@[simp] theorem defined?_defined (result : Except Error Nat) :
    (defined result).defined? = result.toOption := rfl

@[simp] theorem defined?_adjusted : adjusted.defined? = none := rfl

theorem defined?_eq_none {outcome : Outcome} (other : outcome.isDefinition = false) :
    outcome.defined? = none := by
  cases outcome with
  | defined result => cases other
  | _ => rfl

end Outcome

/-- The children of a root: what was rendered, and the definitions where they were
first asked for. -/
def rootRow (definitions : Nat) : List Outcome → List Nat
  | [] => []
  | outcome :: rest =>
      if outcome.isDefinition then definitions :: rest.filterMap Outcome.rendered?
      else outcome.rendered?.toList ++ rootRow definitions rest

private theorem filterMap_cons_eq {α β : Type} (f : α → Option β) (first : α)
    (rest : List α) :
    (first :: rest).filterMap f = (f first).toList ++ rest.filterMap f := by
  rw [List.filterMap_cons]
  cases f first <;> rfl

def performAll (canvas : Canvas) : List Action → List Outcome × Canvas
  | [] => ([], canvas)
  | action :: rest =>
      let (outcome, canvas) := canvas.perform action
      let (outcomes, canvas) := canvas.performAll rest
      (outcome :: outcomes, canvas)

/-- A canvas with these children of its root, of which at most one is the element for
definitions, and with these children of that. -/
structure Arranged (canvas : Canvas) (row : List Nat) (definitions : Option Nat)
    (defined : List Nat) : Prop where
  sound : canvas.Sound
  top : canvas.document.parent? canvas.root = none
  row_eq : canvas.document.childrenOf canvas.root = row
  tagged : ∀ child ∈ row,
    canvas.document.tag? child = some "defs" ↔ definitions = some child
  listed : ∀ node ∈ definitions, node ∈ row
  defined_eq : ∀ node ∈ definitions, canvas.document.childrenOf node = defined

namespace Arranged

variable {canvas : Canvas} {row defined : List Nat} {definitions : Option Nat}

theorem surface (attrs : Attrs) (options : Options) :
    Arranged (surface attrs options) [] none [] where
  sound := sound_surface attrs options
  top := by rw [surface_eq]; rfl
  row_eq := by rw [surface_eq]; rfl
  tagged _ member := nomatch member
  listed _ member := nomatch member
  defined_eq _ member := nomatch member

theorem exists_of_mem (arranged : Arranged canvas row definitions defined) {child : Nat}
    (member : child ∈ row) : (canvas.document.get? child).isSome :=
  arranged.sound.forest.child_exists (arranged.row_eq ▸ member)

theorem ne_root (arranged : Arranged canvas row definitions defined) {child : Nat}
    (member : child ∈ row) : child ≠ canvas.root := by
  rintro rfl
  have above := (arranged.sound.forest.mem_children_iff _ _).mp (arranged.row_eq ▸ member)
  rw [arranged.top] at above
  cases above

theorem findChild?_eq (arranged : Arranged canvas row definitions defined) :
    canvas.document.findChild? canvas.root "defs" = definitions := by
  cases found : canvas.document.findChild? canvas.root "defs" with
  | some child =>
      obtain ⟨member, tag⟩ := Document.of_findChild?_eq_some found
      rw [arranged.row_eq] at member
      exact ((arranged.tagged child member).mp tag).symm
  | none =>
      cases given : definitions with
      | none => rfl
      | some node =>
          have member := arranged.listed node given
          refine absurd ⟨node, ?_, ?_⟩ (Document.findChild?_eq_none_iff.mp found)
          · rwa [arranged.row_eq]
          · exact (arranged.tagged node member).mpr given

theorem gain_root (arranged : Arranged canvas row definitions defined) {after : Canvas}
    (sound : after.Sound) (same : after.root = canvas.root) {child : Option Nat}
    (gains : canvas.document.Gains canvas.root child after.document)
    (plain : ∀ node ∈ child, after.document.tag? node ≠ some "defs") :
    Arranged after (row ++ child.toList) definitions defined := by
  have root := arranged.sound.exists_root
  refine ⟨sound, ?_, ?_, ?_, ?_, ?_⟩
  · rw [same, gains.parent? root, arranged.top]
  · rw [same, gains.childrenOf root, if_pos rfl, arranged.row_eq]
  · intro node member
    rcases List.mem_append.mp member with old | new
    · rw [gains.tag? (arranged.exists_of_mem old)]
      exact arranged.tagged node old
    · have named : node ∈ child := by simpa using new
      refine iff_of_false (plain node named) fun given => ?_
      have existing := arranged.exists_of_mem (arranged.listed node given)
      simp [gains.fresh node named] at existing
  · intro node given
    exact List.mem_append_left _ (arranged.listed node given)
  · intro node given
    have member := arranged.listed node given
    rw [gains.childrenOf (arranged.exists_of_mem member),
      if_neg (arranged.ne_root member), List.append_nil]
    exact arranged.defined_eq node given

theorem render (arranged : Arranged canvas row definitions defined) (s : Shape) :
    Arranged (canvas.render s).2 (row ++ (canvas.render s).1.toOption.toList)
      definitions defined := by
  obtain ⟨gains, plain⟩ := gains_drawInto arranged.sound.forest arranged.sound.exists_root s
  apply arranged.gain_root (arranged.sound.perform (.render s))
    (root_drawInto canvas canvas.root s) gains
  intro node given
  apply plain node
  generalize (canvas.drawInto canvas.root s).1 = result at given
  cases result with
  | error error => cases given
  | ok made => exact congrArg Except.ok (Option.some.inj given)

theorem gain_definitions {node : Nat} (arranged : Arranged canvas row (some node) defined)
    {after : Canvas} (sound : after.Sound) (same : after.root = canvas.root)
    {child : Option Nat} (gains : canvas.document.Gains node child after.document) :
    Arranged after row (some node) (defined ++ child.toList) := by
  have root := arranged.sound.exists_root
  have member := arranged.listed node rfl
  refine ⟨sound, ?_, ?_, ?_, arranged.listed, ?_⟩
  · rw [same, gains.parent? root, arranged.top]
  · rw [same, gains.childrenOf root, if_neg (arranged.ne_root member).symm,
      List.append_nil, arranged.row_eq]
  · intro other listed
    rw [gains.tag? (arranged.exists_of_mem listed)]
    exact arranged.tagged other listed
  · rintro _ ⟨⟩
    rw [gains.childrenOf (arranged.exists_of_mem member), if_pos rfl,
      arranged.defined_eq node rfl]

theorem define_of_some {node : Nat} (arranged : Arranged canvas row (some node) defined)
    (s : Shape) :
    Arranged (canvas.define s).2 row (some node)
      (defined ++ (canvas.define s).1.toOption.toList) := by
  have existing := arranged.exists_of_mem (arranged.listed node rfl)
  have same : canvas.define s = canvas.drawInto node s := by
    rw [define, definitions_of_some arranged.findChild?_eq]
  rw [same]
  exact arranged.gain_definitions (arranged.sound.drawInto existing s)
    (root_drawInto canvas node s) (gains_drawInto arranged.sound.forest existing s).1

theorem first_definitions (arranged : Arranged canvas row none defined) :
    Arranged canvas.definitions.2 (row ++ [canvas.definitions.1])
      (some canvas.definitions.1) [] := by
  have absent := arranged.findChild?_eq
  obtain ⟨gains, made⟩ := arranged.sound.gains_definitions absent
  have same : canvas.definitions.2.root = canvas.root := by
    rw [definitions_of_none absent]
  have root := arranged.sound.exists_root
  refine ⟨arranged.sound.definitions.1, ?_, ?_, ?_, ?_, ?_⟩
  · rw [same, gains.parent? root, arranged.top]
  · rw [same, gains.childrenOf root, if_pos rfl, arranged.row_eq]
    rfl
  · intro node member
    rcases List.mem_append.mp member with old | new
    · have existing := arranged.exists_of_mem old
      rw [gains.tag? existing, arranged.tagged node old]
      refine iff_of_false (fun given => nomatch given) ?_
      rintro ⟨⟩
      simp [gains.fresh _ rfl] at existing
    · obtain rfl := List.mem_singleton.mp new
      exact iff_of_true (Document.tag?_of_get? made) rfl
  · rintro _ ⟨⟩
    simp
  · rintro _ ⟨⟩
    exact Document.childrenOf_eq made

theorem define_of_none (arranged : Arranged canvas row none defined) (s : Shape) :
    Arranged (canvas.define s).2 (row ++ [canvas.definitions.1])
      (some canvas.definitions.1) (canvas.define s).1.toOption.toList := by
  have ready := arranged.first_definitions
  have existing := ready.exists_of_mem (ready.listed _ rfl)
  exact ready.gain_definitions (ready.sound.drawInto existing s)
    (root_drawInto _ _ s) (gains_drawInto ready.sound.forest existing s).1

theorem update (arranged : Arranged canvas row definitions defined) (id : Nat)
    {change : Element → Element} (still : ∀ x, (change x).tag = x.tag ∧
      (change x).children = x.children ∧ (change x).parent = x.parent) :
    Arranged { canvas with document := canvas.document.update id change } row definitions
      defined := by
  have sound : Sound { canvas with document := canvas.document.update id change } := by
    refine ⟨arranged.sound.forest.update id change (fun x => (still x).2.2)
      fun x => (still x).2.1, ?_⟩
    rw [Document.get?_update_eq_map, Option.isSome_map]
    exact arranged.sound.exists_root
  refine ⟨sound, ?_, ?_, ?_, arranged.listed, ?_⟩
  · rw [Document.parent?_update fun x => (still x).2.2, arranged.top]
  · rw [Document.childrenOf_update fun x => (still x).2.1, arranged.row_eq]
  · intro child member
    rw [Document.tag?, Document.map_get?_update Element.tag fun x => (still x).1]
    exact arranged.tagged child member
  · intro node given
    rw [Document.childrenOf_update fun x => (still x).2.1, arranged.defined_eq node given]

theorem centerView (arranged : Arranged canvas row definitions defined)
    (width height : Float) :
    Arranged (canvas.centerView width height) row definitions defined :=
  arranged.update canvas.root fun _ => ⟨rfl, rfl, rfl⟩

theorem turnAroundCenter (arranged : Arranged canvas row definitions defined)
    (node : Nat) : Arranged (canvas.turnAroundCenter node) row definitions defined := by
  have styled : ∀ {canvas : Canvas}, Arranged canvas row definitions defined →
      ∀ property value, Arranged
        { canvas with document := canvas.document.setStyle node property value } row
        definitions defined :=
    fun arranged _ _ => arranged.update node fun _ => ⟨rfl, rfl, rfl⟩
  exact styled (styled arranged "transform-box" "fill-box") "transform-origin" "center"

/-! Runs. Once there are definitions, they stay where they are. -/

theorem perform_of_some {node : Nat} (arranged : Arranged canvas row (some node) defined)
    (action : Action) :
    Arranged (canvas.perform action).2
      (row ++ (canvas.perform action).1.rendered?.toList) (some node)
      (defined ++ (canvas.perform action).1.defined?.toList) := by
  cases action with
  | render s => simpa [perform] using arranged.render s
  | define s => simpa [perform] using arranged.define_of_some s
  | centerView width height => simpa [perform] using arranged.centerView width height
  | turnAroundCenter turned => simpa [perform] using arranged.turnAroundCenter turned

theorem perform_of_none (arranged : Arranged canvas row none []) {action : Action}
    (other : (canvas.perform action).1.isDefinition = false) :
    Arranged (canvas.perform action).2
      (row ++ (canvas.perform action).1.rendered?.toList) none [] := by
  cases action with
  | render s => exact arranged.render s
  | define s => cases other
  | centerView width height => simpa [perform] using arranged.centerView width height
  | turnAroundCenter turned => simpa [perform] using arranged.turnAroundCenter turned

theorem perform_of_first (arranged : Arranged canvas row none []) {action : Action}
    (first : (canvas.perform action).1.isDefinition = true) :
    Arranged (canvas.perform action).2 (row ++ [canvas.definitions.1])
      (some canvas.definitions.1) (canvas.perform action).1.defined?.toList := by
  cases action with
  | define s => exact arranged.define_of_none s
  | _ => cases first

theorem performAll_of_some {node : Nat}
    (arranged : Arranged canvas row (some node) defined) (actions : List Action) :
    Arranged (canvas.performAll actions).2
      (row ++ (canvas.performAll actions).1.filterMap Outcome.rendered?) (some node)
      (defined ++ (canvas.performAll actions).1.filterMap Outcome.defined?) := by
  induction actions generalizing canvas row defined with
  | nil => simpa [performAll] using arranged
  | cons action rest ih =>
      rw [performAll, filterMap_cons_eq, filterMap_cons_eq, ← List.append_assoc,
        ← List.append_assoc]
      exact ih (arranged.perform_of_some action)

theorem performAll_of_none (arranged : Arranged canvas row none []) (actions : List Action) :
    ∃ node, Arranged (canvas.performAll actions).2
      (row ++ rootRow node (canvas.performAll actions).1)
      (if (canvas.performAll actions).1.any Outcome.isDefinition then some node else none)
      ((canvas.performAll actions).1.filterMap Outcome.defined?) := by
  induction actions generalizing canvas row with
  | nil => exact ⟨0, by simpa [performAll, rootRow] using arranged⟩
  | cons action rest ih =>
      rw [performAll, filterMap_cons_eq, List.any_cons]
      simp only [rootRow]
      cases first : (canvas.perform action).1.isDefinition with
      | true =>
          have run := (arranged.perform_of_first first).performAll_of_some rest
          exact ⟨_, by simpa using run⟩
      | false =>
          obtain ⟨node, run⟩ := ih (arranged.perform_of_none first)
          have none : (canvas.perform action).1.defined? = none :=
            Outcome.defined?_eq_none first
          exact ⟨node, by simpa [none] using run⟩

end Arranged

/-! The view of a canvas is an attribute of its root, which drawing leaves alone. -/

def view? (canvas : Canvas) : Option String :=
  (canvas.document.get? canvas.root).bind (·.attrs.get? "viewBox")

def Action.isCenterView : Action → Bool
  | .centerView .. => true
  | _ => false

variable {canvas : Canvas}

theorem view?_of_gains {after : Canvas} {parent : Nat} {child : Option Nat}
    (sound : canvas.Sound) (same : after.root = canvas.root)
    (gains : canvas.document.Gains parent child after.document) :
    after.view? = canvas.view? := by
  obtain ⟨x, found⟩ := Option.isSome_iff_exists.mp sound.exists_root
  rw [view?, view?, same, found, gains.get?_of found]
  rfl

theorem Sound.view?_drawInto (sound : canvas.Sound) {parent : Nat}
    (existing : (canvas.document.get? parent).isSome) (s : Shape) :
    (canvas.drawInto parent s).2.view? = canvas.view? :=
  view?_of_gains sound (root_drawInto canvas parent s)
    (gains_drawInto sound.forest existing s).1

theorem Sound.view?_definitions (sound : canvas.Sound) :
    canvas.definitions.2.view? = canvas.view? := by
  cases found : canvas.document.findChild? canvas.root "defs" with
  | some node => rw [definitions_of_some found]
  | none =>
      apply view?_of_gains sound _ (sound.gains_definitions found).1
      rw [definitions_of_none found]

theorem Sound.view?_perform (sound : canvas.Sound) {action : Action}
    (other : action.isCenterView = false) :
    (canvas.perform action).2.view? = canvas.view? := by
  cases action with
  | render s => exact sound.view?_drawInto sound.exists_root s
  | define s =>
      obtain ⟨ready, existing⟩ := sound.definitions
      exact (ready.view?_drawInto existing s).trans sound.view?_definitions
  | centerView width height => cases other
  | turnAroundCenter node =>
      obtain ⟨x, found⟩ := Option.isSome_iff_exists.mp sound.exists_root
      simp only [Canvas.perform, Canvas.turnAroundCenter, Backend.placeOrigin,
        Backend.setStyle, Document.setStyle, view?, Document.get?_update_eq_map, found,
        Option.map_some, Option.bind_some]
      split_ifs <;> rfl

theorem Sound.view?_performAll (sound : canvas.Sound) {actions : List Action}
    (others : ∀ action ∈ actions, action.isCenterView = false) :
    (canvas.performAll actions).2.view? = canvas.view? := by
  induction actions generalizing canvas with
  | nil => rfl
  | cons action rest ih =>
      obtain ⟨other, later⟩ := List.forall_mem_cons.mp others
      exact (ih (sound.perform action) later).trans (sound.view?_perform other)

theorem Sound.view?_centerView (sound : canvas.Sound) (width height : Float) :
    (canvas.centerView width height).view? = some (" ".intercalate
      [numberText (-width / 2), numberText (-height / 2), numberText width,
        numberText height]) := by
  obtain ⟨x, found⟩ := Option.isSome_iff_exists.mp sound.exists_root
  simp [view?, centerView, Document.setAttribute, Document.get?_update_eq_map, found]

theorem performAll_append (canvas : Canvas) (actions others : List Action) :
    (canvas.performAll (actions ++ others)).2 =
      ((canvas.performAll actions).2.performAll others).2 := by
  induction actions generalizing canvas with
  | nil => rfl
  | cons action rest ih => exact ih (canvas.perform action).2

theorem Sound.performAll (sound : canvas.Sound) (actions : List Action) :
    (canvas.performAll actions).2.Sound := by
  induction actions generalizing canvas with
  | nil => exact sound
  | cons action rest ih => exact ih (sound.perform action)

/-- Whatever is done with a new canvas, its root has no parent and lists what was
rendered, with one element for definitions where one was first asked for, which lists
what was defined. The last centering of the view is the one that stays. -/
theorem row_performAll (attrs : Attrs) (options : Options) (actions : List Action) :
    let start := surface attrs options
    let outcomes := (start.performAll actions).1
    let canvas := (start.performAll actions).2
    canvas.document.parent? canvas.root = none ∧
    (∃ definitions,
      canvas.document.childrenOf canvas.root = rootRow definitions outcomes ∧
      (∀ child ∈ canvas.document.childrenOf canvas.root,
        canvas.document.tag? child = some "defs" ↔
          outcomes.any Outcome.isDefinition = true ∧ child = definitions) ∧
      (outcomes.any Outcome.isDefinition = true →
        canvas.document.childrenOf definitions =
          outcomes.filterMap Outcome.defined?)) ∧
    ∀ before width height after, actions = before ++ .centerView width height :: after →
      (∀ action ∈ after, action.isCenterView = false) →
        canvas.view? = some (" ".intercalate
          [numberText (-width / 2), numberText (-height / 2), numberText width,
            numberText height]) := by
  intro start outcomes canvas
  obtain ⟨definitions, arranged⟩ :=
    (Arranged.surface attrs options).performAll_of_none actions
  refine ⟨arranged.top, ⟨definitions, arranged.row_eq, ?_, ?_⟩, ?_⟩
  · intro child member
    rw [arranged.tagged child (arranged.row_eq ▸ member), Option.ite_none_right_eq_some,
      Option.some_inj, eq_comm (a := child)]
  · intro asked
    exact arranged.defined_eq definitions (if_pos asked)
  · rintro before width height after rfl others
    have ready := (sound_surface attrs options).performAll before
    have centered := ready.perform (.centerView width height)
    have stays := centered.view?_performAll others
    simp only [canvas, performAll_append]
    exact stays.trans (ready.view?_centerView width height)

end Canvas
end Tracery.Svg
