import Tracery.Proofs.Json.Reading
import Tracery.Scene.Decode

/-! Scenes of unknown kinds. A kind is looked up only where all the scenes around it are of
composite kinds, and the first one in preorder that is unknown there is the one reported. -/

namespace Tracery

namespace Kind

def compositeNames : List String := ["group", "g", "clipPath", "mask"]

def names : List String := "g" :: all.map name

theorem ofName?_eq_none_iff {given : String} : ofName? given = none ↔ given ∉ names := by
  rw [ofName?, names, List.mem_cons, not_or]
  split
  next same => simp [same]
  next other => simp [other, List.find?_eq_none]

theorem eq_of_ofName? {given : String} {kind : Kind} (known : ofName? given = some kind) :
    given = kind.name ∨ given = "g" ∧ kind = .group := by
  rw [ofName?] at known
  split at known
  next same => exact .inr ⟨same, (Option.some.inj known).symm⟩
  next =>
      have same := List.find?_some known
      exact .inl (eq_of_beq same).symm

theorem isComposite_iff_of_ofName? {given : String} {kind : Kind}
    (known : ofName? given = some kind) :
    kind.isComposite = true ↔ given ∈ compositeNames := by
  rcases eq_of_ofName? known with rfl | ⟨rfl, rfl⟩
  · cases kind <;> decide
  · decide

theorem eq_text_iff_of_ofName? {given : String} {kind : Kind}
    (known : ofName? given = some kind) : kind = .text ↔ given = "text" := by
  rcases eq_of_ofName? known with rfl | ⟨rfl, rfl⟩
  · cases kind <;> decide
  · decide

end Kind

namespace Scene

structure Place where
  scene : Scene
  above : List Scene

mutual
/-- All scenes of a tree in preorder, for a tree that is within the scenes above. -/
def placesWithin (above : List Scene) : Scene → List Place
  | ⟨kind, attributes, children, text⟩ =>
      ⟨⟨kind, attributes, children, text⟩, above⟩ ::
        placesWithinAll (⟨kind, attributes, children, text⟩ :: above) children
termination_by structural scene => scene

def placesWithinAll (above : List Scene) : List Scene → List Place
  | [] => []
  | scene :: rest => placesWithin above scene ++ placesWithinAll above rest
termination_by structural scenes => scenes
end

def places (scene : Scene) : List Place := placesWithin [] scene

theorem placesWithin_eq (above : List Scene) (scene : Scene) :
    placesWithin above scene =
      ⟨scene, above⟩ :: placesWithinAll (scene :: above) scene.children := by
  cases scene
  rw [placesWithin]

namespace Place

/-- Whether a scene within composite scenes alone is of no kind. -/
def Refused (place : Place) : Prop :=
  (∀ scene ∈ place.above, scene.kind ∈ Kind.compositeNames) ∧ place.scene.kind ∉ Kind.names

instance (place : Place) : Decidable place.Refused :=
  inferInstanceAs (Decidable (_ ∧ _))

def error (place : Place) : Error := .unknownKind place.scene.kind

end Place

mutual
/-- The shapes of scenes: a composite one has the shapes of its children in their order, and
what is below any other one is left out. -/
inductive Forms : Scene → Shape → Prop
  | composite {name : String} {kind : Kind} {attributes : Attrs} {children : List Scene}
      {shapes : List Shape} {text : Option String}
      (known : Kind.ofName? name = some kind) (composite : name ∈ Kind.compositeNames)
      (below : FormAll children shapes) :
      Forms ⟨name, attributes, children, text⟩ ⟨kind, attributes, .children shapes⟩
  | text {attributes : Attrs} {children : List Scene} {text : Option String} :
      Forms ⟨"text", attributes, children, text⟩ ⟨.text, attributes, .text (text.getD "")⟩
  | leaf {name : String} {kind : Kind} {attributes : Attrs} {children : List Scene}
      {text : Option String}
      (known : Kind.ofName? name = some kind) (simple : name ∉ Kind.compositeNames)
      (wordless : name ≠ "text") :
      Forms ⟨name, attributes, children, text⟩ ⟨kind, attributes, .empty⟩

inductive FormAll : List Scene → List Shape → Prop
  | nil : FormAll [] []
  | cons {scene : Scene} {s : Shape} {scenes : List Scene} {shapes : List Shape}
      (first : Forms scene s) (others : FormAll scenes shapes) :
      FormAll (scene :: scenes) (s :: shapes)
end

/-- A result decided by the first place that is refused, and of a certain form if there is none. -/
def Settled {α : Type} (places : List Place) (result : Except Error α) (formed : α → Prop) : Prop :=
  match places.find? (·.Refused) with
  | some place => result = .error place.error
  | none => ∃ a, result = .ok a ∧ formed a

namespace Settled

variable {α β : Type} {places : List Place} {result : Except Error α} {formed : α → Prop}

theorem of_refused {place : Place} (refused : place.Refused) :
    Settled (place :: places) (.error place.error : Except Error α) formed := by
  simp [Settled, refused]

theorem cons_iff {place : Place} (accepted : ¬ place.Refused) :
    Settled (place :: places) result formed ↔ Settled places result formed := by
  simp [Settled, accepted]

theorem of_accepted (accepted : ∀ place ∈ places, ¬ place.Refused) {a : α} (known : formed a) :
    Settled places (.ok a) formed := by
  have none : places.find? (·.Refused) = none := by simpa [List.find?_eq_none] using accepted
  rw [Settled, none]
  exact ⟨a, rfl, known⟩

theorem bind {others : List Place} {next : α → Except Error β} {whole : β → Prop}
    (first : Settled places result formed)
    (second : ∀ a, formed a → Settled others (next a) whole) :
    Settled (places ++ others) (result >>= next) whole := by
  unfold Settled at first ⊢
  rw [List.find?_append]
  cases found : places.find? (·.Refused) with
  | some place =>
      rw [found] at first
      have first : result = .error place.error := first
      rw [first]
      rfl
  | none =>
      rw [found] at first
      obtain ⟨a, rfl, known⟩ := first
      exact second a known

theorem map {next : α → β} {whole : β → Prop} (first : Settled places result formed)
    (second : ∀ a, formed a → whole (next a)) :
    Settled places (result >>= fun a => pure (next a)) whole := by
  rw [← List.append_nil places]
  exact first.bind fun a known => of_accepted (by simp) (second a known)

end Settled

mutual
theorem above_of_mem_placesWithin {above : List Scene} {place : Place} (scene : Scene)
    (member : place ∈ placesWithin above scene) : above ⊆ place.above := by
  obtain ⟨kind, attributes, children, text⟩ := scene
  rw [placesWithin_eq, List.mem_cons] at member
  rcases member with rfl | below
  · exact List.Subset.refl _
  · have beneath := above_of_mem_placesWithinAll children below
    exact fun other inside => beneath (List.mem_cons_of_mem _ inside)
termination_by structural scene

theorem above_of_mem_placesWithinAll {above : List Scene} {place : Place} (scenes : List Scene)
    (member : place ∈ placesWithinAll above scenes) : above ⊆ place.above := by
  cases scenes with
  | nil => cases member
  | cons scene rest =>
      rw [placesWithinAll, List.mem_append] at member
      rcases member with inside | later
      · exact above_of_mem_placesWithin scene inside
      · exact above_of_mem_placesWithinAll rest later
termination_by structural scenes
end

theorem not_refused_of_simple {scene : Scene} {above : List Scene}
    (simple : scene.kind ∉ Kind.compositeNames) (scenes : List Scene) :
    ∀ place ∈ placesWithinAll (scene :: above) scenes, ¬ place.Refused := by
  intro place member refused
  have inside := above_of_mem_placesWithinAll scenes member
  exact simple (refused.1 scene (inside List.mem_cons_self))

open Place (Refused)

mutual
theorem settled_shape {above : List Scene}
    (reached : ∀ scene ∈ above, scene.kind ∈ Kind.compositeNames) (scene : Scene) :
    Settled (placesWithin above scene) scene.shape scene.Forms := by
  obtain ⟨name, attributes, children, text⟩ := scene
  rw [placesWithin_eq, shape]
  cases known : Kind.ofName? name with
  | none =>
      have refused : Refused ⟨⟨name, attributes, children, text⟩, above⟩ :=
        ⟨reached, Kind.ofName?_eq_none_iff.mp known⟩
      exact Settled.of_refused refused
  | some kind =>
      have accepted : ¬ Refused ⟨⟨name, attributes, children, text⟩, above⟩ := fun refused =>
        Option.some_ne_none kind (known.symm.trans (Kind.ofName?_eq_none_iff.mpr refused.2))
      rw [Settled.cons_iff accepted]
      dsimp only
      split
      next isComposite =>
        have composite := (Kind.isComposite_iff_of_ofName? known).mp isComposite
        have inner : ∀ scene ∈ ⟨name, attributes, children, text⟩ :: above,
            scene.kind ∈ Kind.compositeNames := List.forall_mem_cons.mpr ⟨composite, reached⟩
        exact (settled_shapes inner children).map fun shapes formed =>
          .composite known composite formed
      next notComposite =>
        have simple : name ∉ Kind.compositeNames :=
          mt (Kind.isComposite_iff_of_ofName? known).mpr notComposite
        have dropped : ∀ place ∈
            placesWithinAll (⟨name, attributes, children, text⟩ :: above) children,
              ¬ place.Refused := not_refused_of_simple simple children
        split
        next word =>
          obtain rfl := (Kind.eq_text_iff_of_ofName? known).mp word
          exact Settled.of_accepted dropped .text
        next other =>
          have wordless := mt (Kind.eq_text_iff_of_ofName? known).mpr other
          rw [Shape.new, if_neg notComposite]
          exact Settled.of_accepted dropped (.leaf known simple wordless)
termination_by structural scene

theorem settled_shapes {above : List Scene}
    (reached : ∀ scene ∈ above, scene.kind ∈ Kind.compositeNames) (scenes : List Scene) :
    Settled (placesWithinAll above scenes) (shapes scenes) (FormAll scenes) := by
  cases scenes with
  | nil =>
      rw [placesWithinAll, shapes]
      exact Settled.of_accepted (by simp) .nil
  | cons scene rest =>
      rw [placesWithinAll, shapes]
      refine (settled_shape reached scene).bind fun s first => ?_
      exact (settled_shapes reached rest).map fun others formed => .cons first formed
termination_by structural scenes
end

end Scene

namespace Shape

open Scene (Place)

theorem settled_ofJsonText {read : Literal → Float} {text : String} {scene : Scene}
    (decoded : Scene.ofJsonText? read text = some scene) :
    Scene.Settled scene.places (ofJsonText read text) scene.Forms := by
  rw [ofJsonText, decoded]
  exact Scene.settled_shape (by simp) scene

/-- A text that is no scene is malformed, whatever kinds it names. A scene is refused exactly
if a scene within composite scenes alone is of no kind, for the first one in preorder that is,
and otherwise its shape has the children of composite scenes and nothing below other ones. -/
theorem ofJsonText_kinds (read : Literal → Float) (text : String) :
    (Scene.ofJsonText? read text = none → ofJsonText read text = .error .malformedScene) ∧
      ∀ scene, Scene.ofJsonText? read text = some scene →
        ((∃ error, ofJsonText read text = .error error) ↔
          ∃ place ∈ scene.places, place.Refused) ∧
        (∀ place, scene.places.find? (·.Refused) = some place →
          ofJsonText read text = .error (.unknownKind place.scene.kind)) ∧
        ∀ s, ofJsonText read text = .ok s → scene.Forms s := by
  refine ⟨fun malformed => by rw [ofJsonText, malformed], fun scene decoded => ?_⟩
  have settled := settled_ofJsonText decoded
  unfold Scene.Settled at settled
  cases found : scene.places.find? (·.Refused) with
  | some place =>
      rw [found] at settled
      have failed : ofJsonText read text = .error (.unknownKind place.scene.kind) := settled
      have refused : ∃ place ∈ scene.places, place.Refused := by
        simpa using List.find?_isSome.mp (Option.isSome_of_eq_some found)
      refine ⟨iff_of_true ⟨_, failed⟩ refused, ?_, ?_⟩
      · rintro other same
        obtain rfl := Option.some.inj same
        exact failed
      · intro s formed
        rw [failed] at formed
        cases formed
  | none =>
      rw [found] at settled
      obtain ⟨s, formed, forms⟩ := settled
      have accepted : ¬ ∃ place ∈ scene.places, place.Refused := by
        simpa [List.find?_eq_none] using found
      refine ⟨iff_of_false ?_ accepted, nofun, ?_⟩
      · rintro ⟨error, failed⟩
        rw [formed] at failed
        cases failed
      · intro other same
        rw [formed] at same
        exact Except.ok.inj same ▸ forms

theorem ofJsonText_kinds_hidden :
    let json := Json.array [.text "g", .object [], .array
      [.array [.text "circle", .object [], .array [.array [.text "cube"]]],
        .array [.text "mask", .object [], .array [.array [.text "blob"]]],
        .array [.text "orb"]]]
    let blob : Scene := ⟨"blob", .empty, [], none⟩
    let scene : Scene := ⟨"g", .empty,
      [⟨"circle", .empty, [⟨"cube", .empty, [], none⟩], none⟩, ⟨"mask", .empty, [blob], none⟩,
        ⟨"orb", .empty, [], none⟩], none⟩
    Scene.ofJsonText? Literal.scaledFloat json.written = some scene ∧
      ofSceneText json.written = .error (.unknownKind "blob") := by
  intro json blob scene
  have decoded : Scene.ofJsonText? Literal.scaledFloat json.written = some scene := by
    have none : json.literals = [] := rfl
    rw [Scene.ofJsonText?, Json.read?_written (by simp [none])]
    rfl
  have first := ((ofJsonText_kinds Literal.scaledFloat json.written).2 scene decoded).2.1
  exact ⟨decoded, first ⟨blob, _⟩ rfl⟩

end Shape
end Tracery
