import Tracery.Proofs.Drawing.Calls

/-! Two shape trees drawn side by side. Where the trees agree in all that drawing looks
at, two drawings that are alike stay alike to the end. -/

namespace Tracery

namespace Shape

mutual
/-- Trees that branch alike and have the same kinds and texts, with attributes that are
related at every place. -/
def Matches (related : Kind → Attrs → Attrs → Prop) : Shape → Shape → Prop
  | ⟨kind, attrs, .children shapes⟩, ⟨kind', attrs', .children shapes'⟩ =>
      kind = kind' ∧ related kind attrs attrs' ∧ AllMatch related shapes shapes'
  | ⟨kind, attrs, .text content⟩, ⟨kind', attrs', .text content'⟩ =>
      kind = kind' ∧ related kind attrs attrs' ∧ content = content'
  | ⟨kind, attrs, .empty⟩, ⟨kind', attrs', .empty⟩ =>
      kind = kind' ∧ related kind attrs attrs'
  | _, _ => False
termination_by structural shape => shape

def AllMatch (related : Kind → Attrs → Attrs → Prop) : List Shape → List Shape → Prop
  | [], [] => True
  | shape :: rest, other :: others => shape.Matches related other ∧ AllMatch related rest others
  | _, _ => False
termination_by structural shapes => shapes
end

variable {related : Kind → Attrs → Attrs → Prop}

theorem matches_iff {s t : Shape} :
    s.Matches related t ↔ s.kind = t.kind ∧ related s.kind s.attrs t.attrs ∧
      s.isComposite = t.isComposite ∧ s.text? = t.text? ∧
      AllMatch related s.children t.children := by
  obtain ⟨kind, attrs, body⟩ := s
  obtain ⟨kind', attrs', body'⟩ := t
  cases body <;> cases body' <;> simp [Matches, AllMatch, isComposite, text?, children]

theorem matches_induction {P : Shape → Shape → Prop} {Q : List Shape → List Shape → Prop}
    (shape : ∀ s t : Shape, s.kind = t.kind → related s.kind s.attrs t.attrs →
      s.isComposite = t.isComposite → s.text? = t.text? → Q s.children t.children → P s t)
    (nil : Q [] [])
    (cons : ∀ s t rest others, P s t → Q rest others → Q (s :: rest) (t :: others)) :
    (∀ s t, s.Matches related t → P s t) ∧
      ∀ shapes others, AllMatch related shapes others → Q shapes others := by
  apply induction_both
  case shape =>
    intro s below t alike
    obtain ⟨kind, attrs, composite, text, children⟩ := matches_iff.mp alike
    exact shape s t kind attrs composite text (below t.children children)
  case nil =>
    intro others alike
    cases others with
    | nil => exact nil
    | cons _ _ => simp [AllMatch] at alike
  case cons =>
    intro s rest first later others alike
    cases others with
    | nil => simp [AllMatch] at alike
    | cons t others =>
        rw [AllMatch] at alike
        exact cons _ _ _ _ (first t alike.1) (later others alike.2)

theorem matches_refl (refl : ∀ kind attrs, related kind attrs attrs) :
    (∀ s : Shape, s.Matches related s) ∧ ∀ shapes, AllMatch related shapes shapes := by
  apply induction_both
  case shape => exact fun s below => matches_iff.mpr ⟨rfl, refl _ _, rfl, rfl, below⟩
  case nil => exact trivial
  case cons => exact fun s rest first later => ⟨first, later⟩

theorem allMatch_of_places {shapes others : List Shape}
    (each : ∀ i : Nat, Option.Rel (Matches related) shapes[i]? others[i]?) :
    AllMatch related shapes others := by
  induction shapes generalizing others with
  | nil =>
      cases others with
      | nil => trivial
      | cons other others => cases each 0
  | cons shape rest ih =>
      cases others with
      | nil => cases each 0
      | cons other others =>
          cases each 0 with
          | some first => exact ⟨first, ih fun i => each (i + 1)⟩

mutual
def mapAttrs (f : Attrs → Attrs) : Shape → Shape
  | ⟨kind, attrs, .children shapes⟩ => ⟨kind, f attrs, .children (mapAttrsAll f shapes)⟩
  | ⟨kind, attrs, .text content⟩ => ⟨kind, f attrs, .text content⟩
  | ⟨kind, attrs, .empty⟩ => ⟨kind, f attrs, .empty⟩
termination_by structural shape => shape

def mapAttrsAll (f : Attrs → Attrs) : List Shape → List Shape
  | [] => []
  | shape :: rest => shape.mapAttrs f :: mapAttrsAll f rest
termination_by structural shapes => shapes
end

section mapAttrs

variable {f : Attrs → Attrs}

@[simp] theorem kind_mapAttrs (s : Shape) : (s.mapAttrs f).kind = s.kind := by
  obtain ⟨_, _, _ | _ | _⟩ := s <;> simp [mapAttrs]

@[simp] theorem attrs_mapAttrs (s : Shape) : (s.mapAttrs f).attrs = f s.attrs := by
  obtain ⟨_, _, _ | _ | _⟩ := s <;> simp [mapAttrs]

@[simp] theorem children_mapAttrs (s : Shape) :
    (s.mapAttrs f).children = mapAttrsAll f s.children := by
  obtain ⟨_, _, _ | _ | _⟩ := s <;> simp [mapAttrs, mapAttrsAll, children]

theorem preorder_mapAttrs :
    (∀ s : Shape, (s.mapAttrs f).preorder = s.preorder.map (mapAttrs f)) ∧
      ∀ shapes : List Shape,
        preorderAll (mapAttrsAll f shapes) = (preorderAll shapes).map (mapAttrs f) := by
  apply induction_both
  case shape =>
    intro s below
    rw [preorder_eq, preorder_eq s, children_mapAttrs, below, List.map_cons]
  case nil => simp [mapAttrsAll]
  case cons =>
    intro s rest first others
    rw [mapAttrsAll, preorderAll_cons, preorderAll_cons, first, others, List.map_append]

theorem matches_mapAttrs :
    (∀ s : Shape, (∀ part ∈ s.preorder, related part.kind part.attrs (f part.attrs)) →
      s.Matches related (s.mapAttrs f)) ∧
    ∀ shapes : List Shape,
      (∀ part ∈ preorderAll shapes, related part.kind part.attrs (f part.attrs)) →
        AllMatch related shapes (mapAttrsAll f shapes) := by
  apply induction_both
  case shape =>
    rintro ⟨kind, attrs, body⟩ below each
    rw [preorder_eq, List.forall_mem_cons] at each
    cases body with
    | empty => exact ⟨rfl, each.1⟩
    | children shapes => exact ⟨rfl, each.1, below each.2⟩
    | text content => exact ⟨rfl, each.1, rfl⟩
  case nil => exact fun _ => trivial
  case cons =>
    intro s rest first others each
    rw [preorderAll_cons, List.forall_mem_append] at each
    exact ⟨first each.1, others each.2⟩

end mapAttrs

/-- Shapes that drawing does not tell apart, up to how errors and the attributes that are
drawn may differ. -/
structure DrawnAlike (options : Options) (errors : Error → Error → Prop)
    (listed : List (String × String) → List (String × String) → Prop) (s t : Shape) :
    Prop where
  refused : Option.Rel errors (options.refusal? s) (options.refusal? t)
  kind : (s.normalForm options.roundAlpha).kind = (t.normalForm options.roundAlpha).kind
  attributes : listed (options.drawnAttributes (s.normalForm options.roundAlpha).attrs)
    (options.drawnAttributes (t.normalForm options.roundAlpha).attrs)
  origin : s.origin? = t.origin?

end Shape

namespace Backend

variable {σ Node : Type} [Backend σ Node]

/-- What the operations of a backend keep alike, attributes being set from lists that are
related. -/
structure Simulation (alike : σ → σ → Prop)
    (listed : List (String × String) → List (String × String) → Prop) : Prop where
  create : ∀ {drawing other}, alike drawing other → ∀ kind,
    (Backend.create drawing kind).1 = (Backend.create other kind).1 ∧
      alike (Backend.create drawing kind).2 (Backend.create other kind).2
  setAttributes : ∀ {drawing other}, alike drawing other → ∀ (node : Node) {entries others},
    listed entries others →
      alike (Backend.setAttributes drawing node entries) (Backend.setAttributes other node others)
  append : ∀ {drawing other}, alike drawing other → ∀ parent child : Node,
    alike (Backend.append drawing parent child) (Backend.append other parent child)
  setText : ∀ {drawing other}, alike drawing other → ∀ (node : Node) content,
    alike (Backend.setText drawing node content) (Backend.setText other node content)
  setStyle : ∀ {drawing other}, alike drawing other → ∀ (node : Node) property value,
    alike (Backend.setStyle drawing node property value)
      (Backend.setStyle other node property value)

inductive EndsAlike (errors : Error → Error → Prop) :
    Except Error Node → Except Error Node → Prop
  | ok (node : Node) : EndsAlike errors (.ok node) (.ok node)
  | error {first second : Error} : errors first second →
      EndsAlike errors (.error first) (.error second)

namespace Simulation

variable {alike : σ → σ → Prop} {options : Options} {errors : Error → Error → Prop}
  {listed : List (String × String) → List (String × String) → Prop} {drawing other : σ}

theorem placeText (simulation : Simulation alike listed) (same : alike drawing other)
    (node : Node) (content : Option String) :
    alike (Backend.placeText drawing node content) (Backend.placeText other node content) := by
  cases content with
  | none => exact same
  | some content => exact simulation.setText same node content

theorem placeOrigin (simulation : Simulation alike listed) (same : alike drawing other)
    (node : Node) (origin : Option String) :
    alike (Backend.placeOrigin drawing node origin) (Backend.placeOrigin other node origin) := by
  cases origin with
  | none => exact same
  | some origin => exact simulation.setStyle (simulation.setStyle same _ _ _) _ _ _

theorem place (simulation : Simulation alike listed) {s t : Shape} (text : s.text? = t.text?)
    (drawn : s.DrawnAlike options errors listed t) (same : alike drawing other) :
    (Backend.place options s drawing).1 = (Backend.place options t other).1 ∧
      alike (Backend.place options s drawing).2 (Backend.place options t other).2 := by
  have content : (s.normalForm options.roundAlpha).text? =
      (t.normalForm options.roundAlpha).text? := by
    simpa only [Shape.text?, Shape.body_normalForm] using text
  obtain ⟨node, created⟩ := simulation.create same (s.normalForm options.roundAlpha).kind
  rw [drawn.kind] at node created
  simp only [Backend.place, drawn.kind, content]
  refine ⟨node, ?_⟩
  rw [node]
  exact simulation.placeText (simulation.setAttributes created _ drawn.attributes) _ _

theorem draws (simulation : Simulation alike listed) {related : Kind → Attrs → Attrs → Prop}
    (drawn : ∀ s t : Shape, s.kind = t.kind → related s.kind s.attrs t.attrs →
      s.DrawnAlike options errors listed t) :
    (∀ s t : Shape, s.Matches related t → ∀ drawing other, alike drawing other →
      EndsAlike errors (Backend.compile options s drawing).1 (Backend.compile options t other).1 ∧
        alike (Backend.compile options s drawing).2 (Backend.compile options t other).2) ∧
    ∀ shapes others : List Shape, Shape.AllMatch related shapes others →
      ∀ (parent : Node) drawing other, alike drawing other →
        Option.Rel errors (Backend.drawAll options shapes parent drawing).1
          (Backend.drawAll options others parent other).1 ∧
        alike (Backend.drawAll options shapes parent drawing).2
          (Backend.drawAll options others parent other).2 := by
  apply Shape.matches_induction
  case shape =>
    intro s t kind attrs _ text below drawing other same
    have twins := drawn s t kind attrs
    have refused := twins.refused
    rw [Backend.compile_eq, Backend.compile_eq]
    generalize options.refusal? s = first, options.refusal? t = second at refused
    cases refused with
    | some named => exact ⟨.error named, same⟩
    | none =>
        obtain ⟨node, placed⟩ := simulation.place text twins same
        obtain ⟨ends, finished⟩ := below (Backend.place options s drawing).1 _ _ placed
        rw [node] at ends finished ⊢
        revert ends finished
        generalize Backend.drawAll options s.children (Backend.place options t other).1
          (Backend.place options s drawing).2 = one
        generalize Backend.drawAll options t.children (Backend.place options t other).1
          (Backend.place options t other).2 = two
        obtain ⟨one, after⟩ := one
        obtain ⟨two, afterwards⟩ := two
        intro ends finished
        cases ends with
        | some named => exact ⟨.error named, finished⟩
        | none =>
            rw [← twins.origin]
            exact ⟨.ok _, simulation.placeOrigin finished _ _⟩
  case nil =>
    intro parent drawing other same
    simp only [Backend.drawAll_nil]
    exact ⟨.none, same⟩
  case cons =>
    intro s t rest others first later parent drawing other same
    obtain ⟨ends, finished⟩ := first drawing other same
    rw [Backend.drawAll_cons, Backend.drawAll_cons]
    revert ends finished
    generalize Backend.compile options s drawing = one
    generalize Backend.compile options t other = two
    obtain ⟨one, after⟩ := one
    obtain ⟨two, afterwards⟩ := two
    intro ends finished
    cases ends with
    | error named => exact ⟨.some named, finished⟩
    | ok node => exact later parent _ _ (simulation.append finished parent node)

theorem compile (simulation : Simulation alike listed) {related : Kind → Attrs → Attrs → Prop}
    (drawn : ∀ s t : Shape, s.kind = t.kind → related s.kind s.attrs t.attrs →
      s.DrawnAlike options errors listed t) {s t : Shape} (matching : s.Matches related t)
    (same : alike drawing other) :
    EndsAlike errors (Backend.compile options s drawing).1 (Backend.compile options t other).1 ∧
      alike (Backend.compile options s drawing).2 (Backend.compile options t other).2 :=
  (simulation.draws drawn).1 s t matching drawing other same

end Simulation
end Backend
end Tracery
