import Tracery.Proofs.Drawing.Calls
import Tracery.Proofs.NormalForm.Idempotence

/-! Drawing a tree whose shapes are in normal form already. Nothing tells it from the
tree that it was made of. -/

namespace Tracery

namespace Shape

mutual
/-- A tree with every shape normalized, and the bodies alike. -/
def normalizeTree (options : Options) : Shape → Except Error Shape
  | ⟨kind, attrs, .children shapes⟩ => do
      let normal ← normalize options ⟨kind, attrs, .children shapes⟩
      return normal.withChildren (← normalizeTrees options shapes)
  | ⟨kind, attrs, body⟩ => normalize options ⟨kind, attrs, body⟩
termination_by structural shape => shape

def normalizeTrees (options : Options) : List Shape → Except Error (List Shape)
  | [] => .ok []
  | shape :: rest => do
      let first ← shape.normalizeTree options
      return first :: (← normalizeTrees options rest)
termination_by structural shapes => shapes
end

theorem normalizeTree_of_childless (options : Options) {s : Shape}
    (childless : s.isComposite = false) : s.normalizeTree options = normalize options s := by
  obtain ⟨kind, attrs, _ | shapes | content⟩ := s
  case children => cases childless
  all_goals simp [normalizeTree]

theorem normalizeTree_of_children {options : Options} {s normal : Shape}
    {shapes normals : List Shape} (body : s.body = .children shapes)
    (single : normalize options s = .ok normal)
    (each : normalizeTrees options shapes = .ok normals) :
    s.normalizeTree options = .ok (normal.withChildren normals) := by
  obtain ⟨kind, attrs, _⟩ := s
  obtain rfl := body
  rw [normalizeTree, single, each]
  rfl

/-- The point to turn around is read off a shape before it is normalized. A color there is
displayed with a whole opacity, so it has to be painted with one too. -/
def KeepsOrigin (options : Options) (s : Shape) : Prop :=
  options.roundAlpha = true ∨ ∀ c, s.attr? "origin" ≠ some (.color c)

theorem origin?_normalForm {options : Options} {s : Shape} (keeps : s.KeepsOrigin options) :
    (s.normalForm options.roundAlpha).origin? = s.origin? := by
  have outlined : s.outlined.attr? "origin" = s.attr? "origin" :=
    attr?_outlined (by cases s.kind <;> decide)
  rw [origin?, origin?, attr?_normalForm (by decide), if_neg (by decide), outlined,
    Option.map_map]
  cases given : s.attr? "origin" with
  | none => rfl
  | some value =>
      rcases keeps with whole | plain
      · rw [whole, Option.map_some, Function.comp_apply, Value.display_painted_true]
        rfl
      · have same : value.painted options.roundAlpha = value :=
          Value.painted_of_ne_color fun c is => plain c (by rw [given, is])
        rw [Option.map_some, Function.comp_apply, same]
        rfl

theorem normalForm_withChildren (s : Shape) (shapes : List Shape) (roundAlpha : Bool) :
    (s.withChildren shapes).normalForm roundAlpha =
      (s.normalForm roundAlpha).withChildren shapes := by
  obtain ⟨kind, attrs, body⟩ := s
  cases kind <;> rfl

end Shape

namespace Backend

variable {σ Node : Type} [Backend σ Node] {options : Options}

theorem compile_normalForm (permissive : options.strict = false) {s : Shape}
    (keeps : s.KeepsOrigin options) (drawing : σ) :
    compile options (s.normalForm options.roundAlpha) drawing = compile options s drawing := by
  have placed : place options (s.normalForm options.roundAlpha) drawing =
      place options s drawing := by
    simp only [place, Shape.normalForm_normalForm]
  have children : (s.normalForm options.roundAlpha).children = s.children := by
    simp only [Shape.children, Shape.body_normalForm]
  rw [compile_eq, compile_eq, Options.refusal?_permissive permissive,
    Options.refusal?_permissive permissive, placed, children, Shape.origin?_normalForm keeps]

theorem compile_withChildren (permissive : options.strict = false) (s : Shape)
    {shapes others : List Shape}
    (alike : ∀ (parent : Node) (drawing : σ),
      drawAll options shapes parent drawing = drawAll options others parent drawing)
    (drawing : σ) :
    compile options (s.withChildren shapes) drawing =
      compile options (s.withChildren others) drawing := by
  have placed : place options (s.withChildren shapes) drawing =
      place options (s.withChildren others) drawing := by
    simp only [place, Shape.normalForm_withChildren]
    rfl
  rw [compile_eq, compile_eq, Options.refusal?_permissive permissive,
    Options.refusal?_permissive permissive, placed]
  simp only [Shape.children, Shape.withChildren, alike]
  rfl

end Backend

namespace Shape

variable {options : Options}

/-! One induction for trees and for the trees below a parent. What it gives does not depend
on the backend, so that the normalized tree is one and the same for all of them. -/

private theorem normalized_alike (permissive : options.strict = false) :
    (∀ s : Shape, (∀ part ∈ s.preorder, part.KeepsOrigin options) →
      ∃ normal, s.normalizeTree options = .ok normal ∧
        ∀ {σ Node : Type} [Backend σ Node] (drawing : σ),
          Backend.compile options normal drawing = Backend.compile options s drawing) ∧
    ∀ shapes : List Shape, (∀ part ∈ preorderAll shapes, part.KeepsOrigin options) →
      ∃ normals, normalizeTrees options shapes = .ok normals ∧
        ∀ {σ Node : Type} [Backend σ Node] (parent : Node) (drawing : σ),
          Backend.drawAll options normals parent drawing =
            Backend.drawAll options shapes parent drawing := by
  apply induction_both
  case shape =>
    intro s below keeps
    rw [s.preorder_eq, List.forall_mem_cons] at keeps
    have single := normalize_permissive permissive s
    obtain ⟨kind, attrs, body⟩ := s
    cases body with
    | empty | text content =>
        refine ⟨_, (normalizeTree_of_childless options rfl).trans single, ?_⟩
        exact fun drawing => Backend.compile_normalForm permissive keeps.1 drawing
    | children shapes =>
        obtain ⟨normals, each, alike⟩ := below keeps.2
        refine ⟨_, normalizeTree_of_children rfl single each, ?_⟩
        intro σ Node backend drawing
        rw [Backend.compile_withChildren permissive _ alike, ← normalForm_withChildren]
        exact Backend.compile_normalForm permissive keeps.1 drawing
  case nil => exact fun _ => ⟨[], by rw [normalizeTrees], fun _ _ => rfl⟩
  case cons =>
    intro s rest first others keeps
    rw [preorderAll_cons, List.forall_mem_append] at keeps
    obtain ⟨normal, found, alike⟩ := first keeps.1
    obtain ⟨normals, founds, alikes⟩ := others keeps.2
    have each : normalizeTrees options (s :: rest) = .ok (normal :: normals) := by
      rw [normalizeTrees, found, founds]
      rfl
    refine ⟨normal :: normals, each, ?_⟩
    intro σ Node backend parent drawing
    rw [Backend.drawAll_cons, Backend.drawAll_cons, alike]
    simp only [alikes]

/-- Permissive drawing does not tell a tree from its normal forms, provided that opacities
are rounded or that no shape turns around a color. -/
theorem compile_normalizeTree (options : Options) (s : Shape)
    (permissive : options.strict = false)
    (origins : options.roundAlpha = true ∨
      ∀ part ∈ s.preorder, ∀ c, part.attr? "origin" ≠ some (.color c)) :
    ∃ normal, s.normalizeTree options = .ok normal ∧
      ∀ {σ Node : Type} [Backend σ Node] (drawing : σ),
        Backend.compile options normal drawing = Backend.compile options s drawing := by
  apply (normalized_alike permissive).1
  intro part member
  exact origins.imp_right fun plain => plain part member

theorem compile_normalizeTree_group :
    let black : Color := ⟨0, 0, 0, 1⟩
    let s := group
      [⟨.polyline, .ofList [("points", .list [.text "0,0", .text "1,1"])], .empty⟩,
        label "a" (.ofList [("rotate", .text "45"), ("fill", .text "red")])]
      (.ofList [("origin", .color black)])
    let normal := group
      [⟨.polyline, .ofList [("points", .text "0,0 1,1")], .empty⟩,
        label "a" (.ofList [("fill", .text "red"), ("transform", .text "rotate(45)")])]
      (.ofList [("origin", .text (black.paint true))])
    ({} : Options).strict = false ∧ ({} : Options).roundAlpha = true ∧
      s.normalizeTree {} = .ok normal ∧
      ∀ drawing : Transcript,
        Backend.compile {} normal drawing = Backend.compile {} s drawing := by
  intro black s normal
  have normalized : s.normalizeTree {} = .ok normal := by rfl
  obtain ⟨other, found, alike⟩ := compile_normalizeTree {} s rfl (.inl rfl)
  obtain rfl : normal = other := Except.ok.inj (normalized.symm.trans found)
  exact ⟨rfl, rfl, normalized, fun drawing => alike drawing⟩

end Shape

end Tracery
