import Tracery.Drawing.Compile

/-! Drawing as a recursion over the shape tree. The pending tasks are worked
off one after the other, so that a shape is drawn by itself and then attached,
whatever else is still waiting. -/

namespace Tracery

namespace Shape

theorem induction_both {P : Shape → Prop} {Q : List Shape → Prop}
    (shape : ∀ s : Shape, Q s.children → P s) (nil : Q [])
    (cons : ∀ s rest, P s → Q rest → Q (s :: rest)) :
    (∀ s, P s) ∧ ∀ shapes, Q shapes := by
  have gathered : ∀ shapes, (∀ s ∈ shapes, P s) → Q shapes := by
    intro shapes each
    induction shapes with
    | nil => exact nil
    | cons s rest ih =>
        apply cons
        · exact each s (by simp)
        · exact ih fun shape member => each shape (by simp [member])
  have single : ∀ s, P s := by
    intro s
    induction s using induction_children with
    | step s ih => exact shape s (gathered s.children ih)
  exact ⟨single, fun shapes => gathered shapes fun s _ => single s⟩

mutual
/-- A shape and all that is below it, every shape ahead of its children. -/
def preorder : Shape → List Shape
  | ⟨kind, attrs, .children shapes⟩ =>
      ⟨kind, attrs, .children shapes⟩ :: preorderAll shapes
  | ⟨kind, attrs, body⟩ => [⟨kind, attrs, body⟩]
termination_by structural shape => shape

def preorderAll : List Shape → List Shape
  | [] => []
  | shape :: rest => shape.preorder ++ preorderAll rest
termination_by structural shapes => shapes
end

theorem preorder_eq (s : Shape) : s.preorder = s :: preorderAll s.children := by
  obtain ⟨_, _, _ | _ | _⟩ := s <;> simp [preorder, preorderAll, children]

@[simp] theorem preorderAll_nil : preorderAll [] = [] := by
  simp [preorderAll]

@[simp] theorem preorderAll_cons (s : Shape) (rest : List Shape) :
    preorderAll (s :: rest) = s.preorder ++ preorderAll rest := by
  simp [preorderAll]

theorem mem_preorderAll {part : Shape} {shapes : List Shape} :
    part ∈ preorderAll shapes ↔ ∃ s ∈ shapes, part ∈ s.preorder := by
  induction shapes with
  | nil => simp
  | cons s rest ih => simp [ih]

@[simp] theorem sizeAll_nil : sizeAll [] = 0 := by
  simp [sizeAll]

@[simp] theorem sizeAll_cons (s : Shape) (rest : List Shape) :
    sizeAll (s :: rest) = s.size + sizeAll rest := by
  simp [sizeAll]

private theorem preorder_lengths :
    (∀ s : Shape, s.preorder.length = s.size) ∧
      ∀ shapes, (preorderAll shapes).length = sizeAll shapes := by
  apply induction_both
  case shape =>
    intro s below
    rw [preorder_eq, size_eq, List.length_cons, below]
  case nil => simp
  case cons =>
    intro s rest first others
    simp [first, others]

theorem length_preorder (s : Shape) : s.preorder.length = s.size :=
  preorder_lengths.1 s

end Shape

def Options.refusal? (options : Options) (s : Shape) : Option Error :=
  if options.strict then s.flaw? else none

@[simp] theorem Options.refusal?_permissive {options : Options}
    (permissive : options.strict = false) (s : Shape) :
    options.refusal? s = none := by
  simp [refusal?, permissive]

namespace Backend

variable {σ Node : Type} [Backend σ Node]

def setAttributes (drawing : σ) (node : Node)
    (attributes : List (String × String)) : σ :=
  attributes.foldl
    (fun drawing (name, value) => setAttribute drawing node name value) drawing

@[simp] theorem setAttributes_nil (drawing : σ) (node : Node) :
    setAttributes drawing node [] = drawing := rfl

@[simp] theorem setAttributes_cons (drawing : σ) (node : Node)
    (entry : String × String) (rest : List (String × String)) :
    setAttributes drawing node (entry :: rest) =
      setAttributes (setAttribute drawing node entry.1 entry.2) node rest := rfl

def placeText (drawing : σ) (node : Node) : Option String → σ
  | some content => setText drawing node content
  | none => drawing

def place (options : Options) (s : Shape) (drawing : σ) : Node × σ :=
  let normal := s.normalForm options.roundAlpha
  let created := create drawing normal.kind
  (created.1, placeText
    (setAttributes created.2 created.1 (options.drawnAttributes normal.attrs))
    created.1 normal.text?)

theorem build_eq (options : Options) (s : Shape) (drawing : σ) :
    build options s drawing =
      match options.refusal? s with
      | some error => .error error
      | none => .ok (place options s drawing) := by
  unfold build normalize place Options.refusal?
  cases (if options.strict then s.flaw? else none) with
  | some error => rfl
  | none =>
      cases content : (s.normalForm options.roundAlpha).text? <;>
        simp [bind, Except.bind, pure, Except.pure, content, setAttributes,
          placeText]

def drawAll (options : Options) (shapes : List Shape) (parent : Node)
    (drawing : σ) : Option Error × σ :=
  run options (shapes.map (.build · parent)) drawing

theorem run_append (options : Options) (tasks others : List (Task Node))
    (drawing : σ) :
    run options (tasks ++ others) drawing =
      match run options tasks drawing with
      | (some error, stopped) => (some error, stopped)
      | (none, finished) => run options others finished := by
  fun_induction run options tasks drawing with
  | case1 _ => rfl
  | case2 s parent tasks drawing error refused => simp [run, refused]
  | case3 s parent tasks drawing node next built ih =>
      simpa [run, built] using ih
  | case4 node origin parent tasks drawing ih => simpa [run] using ih

/-- A shape that is pending is drawn by itself and then attached. -/
theorem run_build (options : Options) (s : Shape) (parent : Node)
    (tasks : List (Task Node)) (drawing : σ) :
    run options (.build s parent :: tasks) drawing =
      match compile options s drawing with
      | (.error error, stopped) => (some error, stopped)
      | (.ok node, drawn) => run options tasks (append drawn parent node) := by
  rw [run, compile]
  cases build options s drawing with
  | error error => rfl
  | ok built =>
      obtain ⟨node, next⟩ := built
      simp only [run_append]
      rcases run options (s.children.map (.build · node)) next with
        ⟨_ | error, after⟩
      · simp only [run]
      · rfl

@[simp] theorem drawAll_nil (options : Options) (parent : Node) (drawing : σ) :
    drawAll options [] parent drawing = (none, drawing) := by
  simp [drawAll, run]

theorem drawAll_cons (options : Options) (s : Shape) (rest : List Shape)
    (parent : Node) (drawing : σ) :
    drawAll options (s :: rest) parent drawing =
      match compile options s drawing with
      | (.error error, stopped) => (some error, stopped)
      | (.ok node, drawn) =>
          drawAll options rest parent (append drawn parent node) :=
  run_build options s parent (rest.map (.build · parent)) drawing

theorem compile_eq (options : Options) (s : Shape) (drawing : σ) :
    compile options s drawing =
      match options.refusal? s with
      | some error => (.error error, drawing)
      | none =>
          match drawAll options s.children (place options s drawing).1
              (place options s drawing).2 with
          | (some error, stopped) => (.error error, stopped)
          | (none, drawn) =>
              (.ok (place options s drawing).1,
                placeOrigin drawn (place options s drawing).1 s.origin?) := by
  rw [compile, build_eq]
  cases options.refusal? s <;> rfl

/-- The first refusal in preorder is what drawing fails with. -/
theorem compile_fst (options : Options) :
    (∀ (s : Shape) (drawing : σ), (compile options s drawing).1 =
      match s.preorder.findSome? options.refusal? with
      | some error => .error error
      | none => .ok (place options s drawing).1) ∧
    ∀ (shapes : List Shape) (parent : Node) (drawing : σ),
      (drawAll options shapes parent drawing).1 =
        (Shape.preorderAll shapes).findSome? options.refusal? := by
  apply Shape.induction_both
  case shape =>
    intro s below drawing
    rw [compile_eq, s.preorder_eq, List.findSome?_cons]
    cases options.refusal? s with
    | some error => rfl
    | none =>
        simp only [← below (place options s drawing).1 (place options s drawing).2]
        rcases drawAll options s.children (place options s drawing).1
          (place options s drawing).2 with ⟨_ | error, after⟩ <;> rfl
  case nil => simp
  case cons =>
    intro s rest first others parent drawing
    rw [drawAll_cons, Shape.preorderAll_cons, List.findSome?_append]
    have known := first drawing
    revert known
    rcases compile options s drawing with ⟨error | node, after⟩ <;> intro known
    case error =>
      cases refused : s.preorder.findSome? options.refusal? with
      | none => rw [refused] at known; cases known
      | some other => rw [refused] at known; cases known; rfl
    case ok =>
      cases refused : s.preorder.findSome? options.refusal? with
      | none => exact others parent _
      | some other => rw [refused] at known; cases known

theorem compile_isOk_iff (options : Options) (s : Shape) (drawing : σ) :
    (∃ node, (compile options s drawing).1 = .ok node) ↔
      ∀ part ∈ s.preorder, options.refusal? part = none := by
  rw [(compile_fst options).1, ← List.findSome?_eq_none_iff]
  cases s.preorder.findSome? options.refusal? <;> simp

/-! What the steps of drawing keep, drawing keeps, also if it fails. -/

structure KeptByDrawing (options : Options) (Holds : σ → Prop) : Prop where
  place : ∀ s drawing, Holds drawing → Holds (Backend.place options s drawing).2
  placeOrigin : ∀ drawing (node : Node) origin, Holds drawing →
    Holds (Backend.placeOrigin drawing node origin)
  append : ∀ drawing (parent child : Node), Holds drawing →
    Holds (Backend.append drawing parent child)

namespace KeptByDrawing

variable {options : Options} {Holds : σ → Prop}

theorem run (kept : KeptByDrawing options Holds) (tasks : List (Task Node)) (drawing : σ)
    (holds : Holds drawing) : Holds (Backend.run options tasks drawing).2 := by
  fun_induction Backend.run options tasks drawing with
  | case1 _ => exact holds
  | case2 s parent tasks drawing error refused => exact holds
  | case3 s parent tasks drawing node next built ih =>
      apply ih
      rw [build_eq] at built
      cases refused : options.refusal? s with
      | some error => simp [refused] at built
      | none =>
          have placed : Backend.place options s drawing = (node, next) := by
            simpa [refused] using built
          simpa [placed] using kept.place s drawing holds
  | case4 node origin parent tasks drawing ih =>
      exact ih (kept.append _ _ _ (kept.placeOrigin drawing node origin holds))

theorem compile (kept : KeptByDrawing options Holds) (s : Shape) (drawing : σ)
    (holds : Holds drawing) : Holds (Backend.compile options s drawing).2 := by
  rw [compile_eq]
  cases options.refusal? s with
  | some error => exact holds
  | none =>
      have drawn : Holds (Backend.drawAll options s.children
          (Backend.place options s drawing).1 (Backend.place options s drawing).2).2 :=
        kept.run _ _ (kept.place s drawing holds)
      rcases outcome : Backend.drawAll options s.children
        (Backend.place options s drawing).1 (Backend.place options s drawing).2
        with ⟨_ | error, after⟩
      · rw [outcome] at drawn
        simpa [outcome] using kept.placeOrigin after _ s.origin? drawn
      · rw [outcome] at drawn
        simpa [outcome] using drawn

end KeptByDrawing

/-! What every operation of a backend keeps, the steps of drawing keep under any options. -/

structure Invariant (Holds : σ → Prop) : Prop where
  create : ∀ drawing kind, Holds drawing →
    Holds (Backend.create drawing kind).2
  setAttribute : ∀ drawing (node : Node) name value, Holds drawing →
    Holds (Backend.setAttribute drawing node name value)
  append : ∀ drawing (parent child : Node), Holds drawing →
    Holds (Backend.append drawing parent child)
  setText : ∀ drawing (node : Node) content, Holds drawing →
    Holds (Backend.setText drawing node content)
  setStyle : ∀ drawing (node : Node) property value, Holds drawing →
    Holds (Backend.setStyle drawing node property value)

namespace Invariant

variable {Holds : σ → Prop}

theorem setAttributes (kept : Invariant Holds) (node : Node)
    (attributes : List (String × String)) (drawing : σ) (holds : Holds drawing) :
    Holds (Backend.setAttributes drawing node attributes) := by
  induction attributes generalizing drawing with
  | nil => exact holds
  | cons entry rest ih =>
      exact ih _ (kept.setAttribute drawing node entry.1 entry.2 holds)

theorem placeText (kept : Invariant Holds) (drawing : σ) (node : Node)
    (content : Option String) (holds : Holds drawing) :
    Holds (Backend.placeText drawing node content) := by
  cases content with
  | none => exact holds
  | some content => exact kept.setText _ _ _ holds

theorem place (kept : Invariant Holds) (options : Options) (s : Shape)
    (drawing : σ) (holds : Holds drawing) :
    Holds (Backend.place options s drawing).2 :=
  kept.placeText _ _ _
    (kept.setAttributes _ _ _ (kept.create drawing _ holds))

theorem placeOrigin (kept : Invariant Holds) (drawing : σ) (node : Node)
    (origin : Option String) (holds : Holds drawing) :
    Holds (Backend.placeOrigin drawing node origin) := by
  cases origin with
  | none => exact holds
  | some origin => exact kept.setStyle _ _ _ _ (kept.setStyle _ _ _ _ holds)

theorem compile (kept : Invariant Holds) (options : Options) (s : Shape)
    (drawing : σ) (holds : Holds drawing) :
    Holds (Backend.compile options s drawing).2 := by
  have steps : KeptByDrawing options Holds :=
    ⟨kept.place options, kept.placeOrigin, kept.append⟩
  exact steps.compile s drawing holds

end Invariant
end Backend
end Tracery
