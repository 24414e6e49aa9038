import Tracery.Drawing.Transcript
import Tracery.Proofs.Drawing.Recursion
import Tracery.Proofs.OrderedMap

/-! The calls that a shape tree is drawn by, as a recursion over the tree. Nodes
are numbered in preorder, and a shape is attached when its calls are complete. -/

namespace Tracery

namespace Transcript

def extend (t : Transcript) (calls : List Call) (nodes : Nat) : Transcript :=
  { calls := t.calls ++ calls.toArray, nextNode := t.nextNode + nodes }

@[simp] theorem nextNode_extend (t : Transcript) (calls : List Call)
    (nodes : Nat) : (t.extend calls nodes).nextNode = t.nextNode + nodes := rfl

@[simp] theorem extend_nil (t : Transcript) : t.extend [] 0 = t := by
  simp [extend]

@[simp] theorem extend_extend (t : Transcript) (calls others : List Call)
    (nodes more : Nat) :
    (t.extend calls nodes).extend others more =
      t.extend (calls ++ others) (nodes + more) := by
  simp [extend, Nat.add_assoc]

theorem extend_inj {t : Transcript} {calls others : List Call} {nodes more : Nat}
    (same : t.extend calls nodes = t.extend others more) : calls = others := by
  have lists : t.calls.toList ++ calls = t.calls.toList ++ others := by
    simpa [extend] using congrArg (fun u => u.calls.toList) same
  exact List.append_cancel_left lists

theorem write_eq_extend (t : Transcript) (call : Call) :
    t.write call = t.extend [call] 0 := by
  simp [write, extend]

theorem create_eq_extend (t : Transcript) (kind : Kind) :
    Backend.create t kind =
      (t.nextNode, t.extend [.create t.nextNode kind] 1) := by
  simp [Backend.create, write, extend]

theorem append_eq_extend (t : Transcript) (parent child : Nat) :
    Backend.append t parent child = t.extend [.append parent child] 0 :=
  t.write_eq_extend (.append parent child)

theorem setAttributes_eq_extend (t : Transcript) (node : Nat)
    (entries : List (String × String)) :
    Backend.setAttributes t node entries =
      t.extend (entries.map fun (name, value) =>
        .setAttribute node name value) 0 := by
  induction entries generalizing t with
  | nil => simp
  | cons entry rest ih =>
      rw [Backend.setAttributes_cons, ih]
      simp [Backend.setAttribute, write_eq_extend]

end Transcript

namespace Shape

def buildCalls (options : Options) (s : Shape) (node : Nat) : List Call :=
  let normal := s.normalForm options.roundAlpha
  let drawn := normal.attrs.entries.filter fun (key, value) =>
    !value.isNull && options.allows (drawnName key)
  .create node normal.kind ::
    drawn.map (fun (key, value) =>
      .setAttribute node (drawnName key) value.display) ++
    match s.body with
    | .text content => [.setText node content]
    | _ => []

def originCalls (s : Shape) (node : Nat) : List Call :=
  match s.attr? "origin" with
  | some origin =>
      [.setStyle node "transform-box" "fill-box",
        .setStyle node "transform-origin" origin.display]
  | none => []

mutual
/-- The calls that draw a shape tree whose root has a number. -/
def calls (options : Options) : Shape → Nat → List Call
  | ⟨kind, attrs, .children shapes⟩, node =>
      buildCalls options ⟨kind, attrs, .children shapes⟩ node ++
        nestedCalls options shapes node (node + 1) ++
        originCalls ⟨kind, attrs, .children shapes⟩ node
  | ⟨kind, attrs, body⟩, node =>
      buildCalls options ⟨kind, attrs, body⟩ node ++
        originCalls ⟨kind, attrs, body⟩ node
termination_by structural shape => shape

def nestedCalls (options : Options) : List Shape → Nat → Nat → List Call
  | [], _, _ => []
  | shape :: rest, parent, next =>
      shape.calls options next ++ [.append parent next] ++
        nestedCalls options rest parent (next + shape.size)
termination_by structural shapes => shapes
end

theorem calls_eq (options : Options) (s : Shape) (node : Nat) :
    s.calls options node =
      s.buildCalls options node ++
        nestedCalls options s.children node (node + 1) ++
        s.originCalls node := by
  obtain ⟨_, _, _ | _ | _⟩ := s <;> simp [calls, nestedCalls, children]

@[simp] theorem nestedCalls_nil (options : Options) (parent next : Nat) :
    nestedCalls options [] parent next = [] := by
  simp [nestedCalls]

theorem nestedCalls_cons (options : Options) (s : Shape) (rest : List Shape)
    (parent next : Nat) :
    nestedCalls options (s :: rest) parent next =
      s.calls options next ++ [.append parent next] ++
        nestedCalls options rest parent (next + s.size) := by
  simp [nestedCalls]

@[simp] theorem body_outlined (s : Shape) : s.outlined.body = s.body := by
  unfold outlined
  cases s.kind <;> rfl

@[simp] theorem body_normalForm (s : Shape) (roundAlpha : Bool) :
    (s.normalForm roundAlpha).body = s.body := by
  simp [normalForm]

end Shape

theorem Options.drawnAttributes_eq (options : Options) (attrs : Attrs) :
    options.drawnAttributes attrs =
      (attrs.entries.filter fun (key, value) =>
        !value.isNull && options.allows (drawnName key)).map
          fun (key, value) => (drawnName key, value.display) := by
  rw [← List.filterMap_eq_map, List.filterMap_filter]
  rfl

theorem Options.mem_drawnAttributes {options : Options} {attrs : Attrs} {name text : String} :
    (name, text) ∈ options.drawnAttributes attrs ↔
      ∃ key value, attrs.get? key = some value ∧ value.isNull = false ∧
        options.allows name = true ∧ drawnName key = name ∧ value.display = text := by
  simp only [options.drawnAttributes_eq, List.mem_map, List.mem_filter, Prod.exists,
    OrderedMap.mem_entries_iff, Bool.and_eq_true, Bool.not_eq_true', Prod.mk.injEq]
  constructor
  · rintro ⟨key, value, ⟨known, solid, allowed⟩, rfl, rfl⟩
    exact ⟨key, value, known, solid, allowed, rfl, rfl⟩
  · rintro ⟨key, value, known, solid, allowed, rfl, rfl⟩
    exact ⟨key, value, ⟨known, solid, allowed⟩, rfl, rfl⟩

theorem Options.allows_of_mem_drawnAttributes {options : Options} {attrs : Attrs}
    {name : String} (drawn : name ∈ (options.drawnAttributes attrs).map Prod.fst) :
    options.allows name = true := by
  obtain ⟨⟨_, text⟩, member, rfl⟩ := List.mem_map.mp drawn
  obtain ⟨_, _, -, -, allowed, -⟩ := mem_drawnAttributes.mp member
  exact allowed

namespace Shape

theorem buildCalls_eq (options : Options) (s : Shape) (node : Nat) :
    s.buildCalls options node =
      .create node (s.normalForm options.roundAlpha).kind ::
        (options.drawnAttributes (s.normalForm options.roundAlpha).attrs).map
          (fun (name, value) => .setAttribute node name value) ++
        (s.text?.map (Call.setText node)).toList := by
  rw [options.drawnAttributes_eq, List.map_map]
  obtain ⟨_, _, _ | _ | _⟩ := s <;> rfl

variable {options : Options} {s : Shape}

theorem setAttribute_mem_buildCalls {root node : Nat} {name value : String} :
    .setAttribute node name value ∈ s.buildCalls options root ↔
      root = node ∧
        (name, value) ∈ options.drawnAttributes (s.normalForm options.roundAlpha).attrs := by
  rw [buildCalls_eq]
  cases s.text? <;> simp [and_left_comm]

theorem setAttribute_not_mem_originCalls {root node : Nat} {name value : String} :
    .setAttribute node name value ∉ s.originCalls root := by
  unfold originCalls
  cases s.attr? "origin" <;> simp

theorem setAttribute_mem_calls_iff (options : Options) (name value : String) (node : Nat) :
    (∀ (s : Shape) (root : Nat), .setAttribute node name value ∈ s.calls options root ↔
      ∃ part, (part, node) ∈ s.preorder.zipIdx root ∧
        (name, value) ∈ options.drawnAttributes (part.normalForm options.roundAlpha).attrs) ∧
    ∀ (shapes : List Shape) (parent next : Nat),
      .setAttribute node name value ∈ nestedCalls options shapes parent next ↔
        ∃ part, (part, node) ∈ (preorderAll shapes).zipIdx next ∧
          (name, value) ∈
            options.drawnAttributes (part.normalForm options.roundAlpha).attrs := by
  apply induction_both
  case shape =>
    intro s below root
    simp only [calls_eq, preorder_eq, List.zipIdx_cons, List.mem_append, List.mem_cons,
      Prod.mk.injEq, or_and_right, exists_or, ← below root (root + 1),
      setAttribute_mem_buildCalls, setAttribute_not_mem_originCalls, or_false, and_assoc,
      exists_eq_left, eq_comm (a := root)]
  case nil => simp
  case cons =>
    intro s rest first others parent next
    simp only [nestedCalls_cons, preorderAll_cons, List.zipIdx_append, length_preorder,
      List.mem_append, or_and_right, exists_or, first next, others parent (next + s.size),
      List.mem_singleton, reduceCtorEq, or_false]

theorem exists_setAttribute_mem_calls (options : Options) (name value : String) (s : Shape)
    (root : Nat) :
    (∃ node, .setAttribute node name value ∈ s.calls options root) ↔
      ∃ part ∈ s.preorder,
        (name, value) ∈ options.drawnAttributes (part.normalForm options.roundAlpha).attrs := by
  have numbered (part : Shape) :
      (∃ node, (part, node) ∈ s.preorder.zipIdx root) ↔ part ∈ s.preorder := by
    have members : part ∈ (s.preorder.zipIdx root).map Prod.fst ↔ part ∈ s.preorder := by
      rw [List.zipIdx_map_fst]
    rw [← members, List.mem_map]
    simp
  simp only [(setAttribute_mem_calls_iff options name value _).1]
  rw [exists_comm]
  simp only [exists_and_right, numbered]

end Shape

namespace Backend

theorem placeText_eq_extend (t : Transcript) (node : Nat)
    (content : Option String) :
    placeText t node content =
      t.extend (content.map (Call.setText node)).toList 0 := by
  cases content with
  | none => simp [placeText]
  | some content => simp [placeText, setText, Transcript.write_eq_extend]

theorem placeOrigin_eq_extend (t : Transcript) (s : Shape) (node : Nat) :
    placeOrigin t node s.origin? = t.extend (s.originCalls node) 0 := by
  unfold Shape.origin? Shape.originCalls
  cases s.attr? "origin" with
  | none => simp [placeOrigin]
  | some origin => simp [placeOrigin, setStyle, Transcript.write_eq_extend]

theorem place_eq_extend (options : Options) (s : Shape) (t : Transcript) :
    place options s t =
      (t.nextNode, t.extend (s.buildCalls options t.nextNode) 1) := by
  have text : (s.normalForm options.roundAlpha).text? = s.text? := by
    simp [Shape.text?]
  simp only [place, Shape.buildCalls]
  rw [Transcript.create_eq_extend, Transcript.setAttributes_eq_extend,
    placeText_eq_extend, Options.drawnAttributes_eq, text]
  obtain ⟨_, _, _ | _ | _⟩ := s <;>
    simp [Shape.text?, List.map_map, Function.comp_def]

/-! Strictness decides what is refused and nothing else, so the calls are those
of the options without it. -/

private theorem draws_of_accepted (options : Options) (strict : Bool) :
    (∀ s : Shape,
      (∀ part ∈ s.preorder, { options with strict }.refusal? part = none) →
      ∀ t : Transcript, compile { options with strict } s t =
        (.ok t.nextNode, t.extend (s.calls options t.nextNode) s.size)) ∧
    ∀ shapes : List Shape,
      (∀ part ∈ Shape.preorderAll shapes,
        { options with strict }.refusal? part = none) →
      ∀ (parent : Nat) (t : Transcript),
        drawAll { options with strict } shapes parent t =
          (none, t.extend (Shape.nestedCalls options shapes parent t.nextNode)
            (Shape.sizeAll shapes)) := by
  apply Shape.induction_both
  case shape =>
    intro s below accepted t
    rw [s.preorder_eq, List.forall_mem_cons] at accepted
    have placed : place { options with strict } s t =
        (t.nextNode, t.extend (s.buildCalls options t.nextNode) 1) :=
      place_eq_extend options s t
    rw [compile_eq, accepted.1, placed]
    simp only [below accepted.2, placeOrigin_eq_extend, Transcript.extend_extend]
    rw [s.calls_eq, s.size_eq]
    simp [Nat.add_comm]
  case nil => simp
  case cons =>
    intro s rest first others accepted parent t
    rw [Shape.preorderAll_cons, List.forall_mem_append] at accepted
    rw [drawAll_cons, first accepted.1]
    simp only [Transcript.append_eq_extend, Transcript.extend_extend]
    rw [others accepted.2, Shape.nestedCalls_cons]
    simp

theorem compile_of_accepted (options : Options) (strict : Bool) (s : Shape)
    (accepted : ∀ part ∈ s.preorder,
      { options with strict }.refusal? part = none) (t : Transcript) :
    compile { options with strict } s t =
      (.ok t.nextNode, t.extend (s.calls options t.nextNode) s.size) :=
  (draws_of_accepted options strict).1 s accepted t

theorem calls_compile_empty {options : Options} (permissive : options.strict = false) (s : Shape) :
    (compile options s ({} : Transcript)).2.calls = (s.calls options 0).toArray := by
  rw [compile_of_accepted options options.strict s fun part _ =>
    Options.refusal?_permissive permissive part]
  exact Array.empty_append

end Backend

/-- Permissive drawing always succeeds. It gives the next node as the root, and
adds the calls of the shape tree and nothing else. -/
theorem compile_eq_calls (options : Options) (s : Shape) (t : Transcript)
    (permissive : options.strict = false) :
    Backend.compile options s t =
      (.ok t.nextNode,
        { calls := t.calls ++ (s.calls options t.nextNode).toArray,
          nextNode := t.nextNode + s.size }) := by
  apply Backend.compile_of_accepted options options.strict s
  intro part _
  exact Options.refusal?_permissive permissive part

theorem compile_eq_calls_group :
    ({} : Options).strict = false ∧
      Backend.compile {}
        (.group [.label "a" .empty] (.ofList [("origin", .text "center")]))
        ({ nextNode := 4 } : Transcript) =
      (.ok 4,
        { calls := #[.create 4 .group, .create 5 .text, .setText 5 "a",
            .append 4 5, .setStyle 4 "transform-box" "fill-box",
            .setStyle 4 "transform-origin" "center"],
          nextNode := 6 }) :=
  ⟨rfl, compile_eq_calls _ _ _ rfl⟩

end Tracery
