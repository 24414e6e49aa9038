import Tracery.Proofs.Svg.Arrangement

/-! The attribute names in the start tags of a canvas. They are written from two stores, the
attributes and the style; both have every name once, so that a name can come twice only if the
attributes have one that is called like the style. -/

namespace Tracery.Svg

namespace Element

def writtenNames (e : Element) : List String := e.writtenAttrs.map Prod.fst

theorem writtenNames_eq (e : Element) :
    e.writtenNames = e.attrs.keys ++ if e.style.entries = [] then [] else ["style"] := by
  rw [writtenNames, writtenAttrs, styleText?, List.map_append]
  cases e.style.entries <;> rfl

/-- No name is written twice but that of the style, which is where both stores have it. -/
theorem two_le_count_writtenNames_iff (e : Element) (name : String) :
    2 ≤ e.writtenNames.count name ↔
      name = "style" ∧ "style" ∈ e.attrs.keys ∧ e.style.entries ≠ [] := by
  have once : e.attrs.keys.count name = if name ∈ e.attrs.keys then 1 else 0 :=
    e.attrs.nodup.count
  rw [writtenNames_eq, List.count_append, once]
  by_cases unstyled : e.style.entries = []
  · simp only [unstyled, if_true, List.count_nil, ne_eq, not_true, and_false, iff_false]
    split <;> omega
  · by_cases styled : name = "style"
    · subst styled
      by_cases listed : "style" ∈ e.attrs.keys <;> simp [unstyled, listed]
    · have other : List.count name ["style"] = 0 := by simp [Ne.symm styled]
      simp only [unstyled, if_false, other, styled, false_and, iff_false]
      split <;> omega

theorem nodup_writtenNames_iff (e : Element) :
    e.writtenNames.Nodup ↔ ("style" ∈ e.attrs.keys → e.style.entries = []) := by
  have twice : ∀ name, ¬ e.writtenNames.count name ≤ 1 ↔
      name = "style" ∧ "style" ∈ e.attrs.keys ∧ e.style.entries ≠ [] := by
    intro name
    rw [← two_le_count_writtenNames_iff]
    omega
  rw [List.nodup_iff_count_le_one]
  constructor
  · intro single listed
    by_contra styled
    exact (twice "style").mpr ⟨rfl, listed, styled⟩ (single "style")
  · intro exclusive name
    by_contra repeated
    obtain ⟨-, listed, styled⟩ := (twice name).mp repeated
    exact styled (exclusive listed)

end Element

namespace Document

def attrs? (d : Document) (id : Nat) : Option (OrderedMap String) := (d.get? id).map Element.attrs

def Named (allowed : String → Prop) (d : Document) : Prop :=
  ∀ id, ∀ attrs ∈ d.attrs? id, ∀ name ∈ attrs.keys, allowed name

variable {allowed : String → Prop} {d : Document}

theorem Named.of_attrs?_eq (named : d.Named allowed) {e : Document}
    (same : ∀ id, e.attrs? id = d.attrs? id) : e.Named allowed :=
  fun id => same id ▸ named id

theorem attrs?_append (d : Document) (parent child id : Nat) :
    (d.append parent child).attrs? id = d.attrs? id :=
  map_get?_append Element.attrs (fun _ _ _ => rfl) d parent child id

theorem attrs?_setStyle (d : Document) (node : Nat) (property value : String) (id : Nat) :
    (d.setStyle node property value).attrs? id = d.attrs? id := by
  unfold attrs? setStyle
  apply map_get?_update
  exact fun _ => rfl

theorem attrs?_placeOrigin (d : Document) (node : Nat) (origin : Option String) (id : Nat) :
    (Backend.placeOrigin d node origin).attrs? id = d.attrs? id := by
  cases origin with
  | none => rfl
  | some origin => exact (attrs?_setStyle _ node _ origin id).trans (d.attrs?_setStyle node _ _ id)

theorem attrs?_extend_singleton (d : Document) (e : Element) (id : Nat) :
    (d.extend [e]).attrs? id = if id = d.elements.size then some e.attrs else d.attrs? id := by
  have pushed : (d.extend [e]).get? id = if id = d.elements.size then some e else d.get? id := by
    simp [get?, extend, Array.getElem?_push]
  rw [attrs?, pushed]
  split <;> rfl

theorem Named.extend (named : d.Named allowed) {e : Element}
    (each : ∀ name ∈ e.attrs.keys, allowed name) : (d.extend [e]).Named allowed := by
  intro id attrs given
  rw [attrs?_extend_singleton] at given
  split at given
  next =>
    obtain rfl := Option.some.inj given
    exact each
  next => exact named id attrs given

theorem Named.setAttribute (named : d.Named allowed) {name : String} (known : allowed name)
    (node : Nat) (value : String) : (d.setAttribute node name value).Named allowed := by
  intro id attrs given other listed
  rw [attrs?, Document.setAttribute, get?_update] at given
  split at given
  next =>
    rw [Option.map_map] at given
    obtain ⟨e, found, rfl⟩ := Option.map_eq_some_iff.mp given
    rcases OrderedMap.mem_keys_insert.mp listed with rfl | old
    · exact known
    · exact named id e.attrs (congrArg (Option.map Element.attrs) found) other old
  next => exact named id attrs given other listed

end Document

/-- Names under which attributes are drawn, and that of the namespace of a root. -/
def AttributeName (options : Options) (name : String) : Prop :=
  name = "xmlns" ∨ options.allows name = true

theorem attributeName_of_drawn {options : Options} {attrs : Attrs} {name : String}
    (drawn : name ∈ (OrderedMap.ofList (options.drawnAttributes attrs)).keys) :
    AttributeName options name := by
  rw [OrderedMap.keys_ofList, List.mem_eraseDups] at drawn
  exact .inr (Options.allows_of_mem_drawnAttributes drawn)

theorem Document.named_keptByDrawing (options : Options) :
    Backend.KeptByDrawing options (Named (AttributeName options)) where
  place s d named := by
    rw [Backend.place_document]
    exact named.extend fun name => attributeName_of_drawn
  placeOrigin d node origin named := named.of_attrs?_eq (d.attrs?_placeOrigin node origin)
  append d parent child named := named.of_attrs?_eq (d.attrs?_append parent child)

namespace Canvas

variable {canvas : Canvas}

def Named (canvas : Canvas) : Prop :=
  canvas.document.Named (AttributeName canvas.options)

theorem named_surface (attrs : Attrs) (options : Options) : (surface attrs options).Named := by
  rw [surface_eq]
  have empty : ({} : Document).Named (AttributeName options) := fun id attrs given => nomatch given
  apply empty.extend
  intro name listed
  rw [OrderedMap.keys_ofList, List.mem_eraseDups, List.map_cons, List.mem_cons] at listed
  exact listed.imp_right Options.allows_of_mem_drawnAttributes

theorem Named.drawInto (named : canvas.Named) (parent : Nat) (s : Shape) :
    (canvas.drawInto parent s).2.Named := by
  have drawn := (Document.named_keptByDrawing canvas.options).compile s canvas.document named
  unfold Canvas.drawInto
  rcases outcome : Backend.compile canvas.options s canvas.document with ⟨error | node, after⟩
  · rwa [outcome] at drawn
  · rw [outcome] at drawn
    exact drawn.of_attrs?_eq (after.attrs?_append parent node)

theorem Named.definitions (named : canvas.Named) : canvas.definitions.2.Named := by
  cases found : canvas.document.findChild? canvas.root "defs" with
  | some definitions => rwa [definitions_of_some found]
  | none =>
      rw [definitions_of_none found, createElement_eq_extend]
      have made : (canvas.document.extend [{ tag := "defs" }]).Named
          (AttributeName canvas.options) :=
        Document.Named.extend named fun name listed => nomatch listed
      exact made.of_attrs?_eq (Document.attrs?_append _ _ _)

theorem Named.perform (named : canvas.Named) (action : Action) :
    (canvas.perform action).2.Named := by
  cases action with
  | render s => exact named.drawInto canvas.root s
  | define s => exact named.definitions.drawInto _ s
  | centerView width height => exact Document.Named.setAttribute named (.inr rfl) _ _
  | turnAroundCenter node =>
      exact Document.Named.of_attrs?_eq named (canvas.document.attrs?_placeOrigin node _)

theorem Named.performAll (named : canvas.Named) (actions : List Action) :
    (canvas.performAll actions).2.Named := by
  induction actions generalizing canvas with
  | nil => exact named
  | cons action rest ih => exact ih (named.perform action)

theorem options_drawInto (canvas : Canvas) (parent : Nat) (s : Shape) :
    (canvas.drawInto parent s).2.options = canvas.options := by
  unfold drawInto
  split <;> rfl

theorem options_definitions (canvas : Canvas) :
    canvas.definitions.2.options = canvas.options := by
  unfold definitions
  split <;> rfl

theorem options_perform (canvas : Canvas) (action : Action) :
    (canvas.perform action).2.options = canvas.options := by
  cases action with
  | render s => exact canvas.options_drawInto canvas.root s
  | define s =>
      exact (canvas.definitions.2.options_drawInto _ s).trans canvas.options_definitions
  | centerView width height => rfl
  | turnAroundCenter node => rfl

theorem options_performAll (canvas : Canvas) (actions : List Action) :
    (canvas.performAll actions).2.options = canvas.options := by
  induction actions generalizing canvas with
  | nil => rfl
  | cons action rest ih => exact (ih _).trans (canvas.options_perform action)

def tagNames (canvas : Canvas) : List (List String) :=
  (canvas.document.subtree canvas.root).filterMap fun id =>
    (canvas.document.get? id).map Element.writtenNames

theorem mem_tagNames {names : List String} (listed : names ∈ canvas.tagNames) :
    ∃ id e, canvas.document.get? id = some e ∧ e.writtenNames = names := by
  obtain ⟨id, -, found⟩ := List.mem_filterMap.mp listed
  exact ⟨id, Option.map_eq_some_iff.mp found⟩

theorem Named.nodup_tagNames (named : canvas.Named)
    (plain : "style" ∉ canvas.options.extraAttributes) :
    ∀ names ∈ canvas.tagNames, names.Nodup := by
  intro names listed
  obtain ⟨id, e, found, rfl⟩ := mem_tagNames listed
  rw [e.nodup_writtenNames_iff]
  intro stored
  have given : canvas.document.attrs? id = some e.attrs :=
    congrArg (Option.map Element.attrs) found
  rcases named id e.attrs given "style" stored with namespaced | allowed
  · exact absurd namespaced (by decide)
  · rcases Options.allows_iff.mp allowed with standard | extra
    · exact absurd standard (by decide)
    · exact absurd extra plain

theorem tagNames_turned {options : Options} (styled : "style" ∈ options.extraAttributes) :
    ((surface (.ofList [("style", .text "a")]) options).performAll
      [.turnAroundCenter 0]).2.tagNames = [["xmlns", "style", "style"]] := by
  have own : drawnName "style" = "style" := by decide
  have allowed : options.allows "style" = true := Options.allows_iff.mpr (.inr styled)
  have drawn : options.drawnAttributes (.ofList [("style", .text "a")]) = [("style", "a")] := by
    have solid : (Value.text "a").isNull = false := rfl
    simp [Options.drawnAttributes, OrderedMap.ofList, OrderedMap.put, OrderedMap.empty, own,
      allowed, solid, Value.display]
  rw [surface_eq, drawn]
  rfl

/-- Start tags are those of the elements that the markup of a canvas opens. No name is repeated
in them but that of the style, which is where the attributes of an element have it as well, and
that can happen exactly if the options draw an attribute of that name. -/
theorem nodup_tagNames_iff (options : Options) :
    (∀ attrs actions,
      let canvas := ((surface attrs options).performAll actions).2
      let d := canvas.document
      d.Writes [.element canvas.root] (d.subtree canvas.root) canvas.markup.toList ∧
      ∀ id ∈ d.subtree canvas.root, ∃ e, d.get? id = some e ∧
        ∀ name, 2 ≤ e.writtenNames.count name ↔
          name = "style" ∧ "style" ∈ e.attrs.keys ∧ e.style.entries ≠ []) ∧
    ((∀ attrs actions, ∀ names ∈ ((surface attrs options).performAll actions).2.tagNames,
        names.Nodup) ↔
      "style" ∉ options.extraAttributes) := by
  refine ⟨?_, ?_, ?_⟩
  · intro attrs actions canvas d
    have forest : d.Forest := ((sound_surface attrs options).performAll actions).forest
    refine ⟨forest.writes_markup canvas.root, fun id listed => ?_⟩
    have existing := ((forest.mem_preorder_iff (forest.within_size _) id).mp listed).1
    obtain ⟨e, found⟩ := Option.isSome_iff_exists.mp existing
    exact ⟨e, found, e.two_le_count_writtenNames_iff⟩
  · intro distinct styled
    have names := distinct _ _ _ (tagNames_turned styled ▸ List.mem_singleton_self _)
    exact absurd names (by decide)
  · intro plain attrs actions
    have named := (named_surface attrs options).performAll actions
    apply named.nodup_tagNames
    rwa [options_performAll]

theorem tagNames_circle :
    let circle := Shape.new .circle (.ofList [("r", .number 1), ("style", .text "fill:red"),
      ("origin", .text "center")])
    let canvas := ((surface .empty { extraAttributes := ["style"] }).performAll
      [.render circle]).2
    canvas.tagNames = [["xmlns"], ["r", "style", "style"]] ∧
      canvas.markup = "<svg xmlns=\"http://www.w3.org/2000/svg\"><circle r=\"1\" " ++
        "style=\"fill:red\" style=\"transform-box: fill-box; transform-origin: center\"/>" ++
        "</svg>" := by
  decide +kernel

end Canvas
end Tracery.Svg
