import Tracery.Drawing.Transcript
import Tracery.Proofs.Drawing.Recursion
import Tracery.Svg.Document

/-! Transcripts as programs for other backends: replaying the calls of a shape
tree draws what drawing the tree itself draws, also if it fails. -/

namespace Tracery

variable {σ Node : Type} [Backend σ Node]

/-- Carries out a call. Its nodes are looked up among the nodes created so far,
and a node that it creates must have the next number. -/
def Call.replay? (call : Call) : List Node × σ → Option (List Node × σ)
  | (nodes, drawing) =>
      match call with
      | .create number kind =>
          let (node, drawing) := Backend.create drawing kind
          if number = nodes.length then some (nodes ++ [node], drawing) else none
      | .setAttribute number name value => do
          return (nodes, Backend.setAttribute drawing (← nodes[number]?) name value)
      | .append parent child => do
          return (nodes, Backend.append drawing (← nodes[parent]?) (← nodes[child]?))
      | .setText number content => do
          return (nodes, Backend.setText drawing (← nodes[number]?) content)
      | .setStyle number property value => do
          return (nodes, Backend.setStyle drawing (← nodes[number]?) property value)

namespace Transcript

/-- Carries out the calls of a transcript from the first to the last. The nodes
that were created are given in order. -/
def replay? (t : Transcript) (start : σ) : Option (List Node × σ) :=
  t.calls.toList.foldlM (fun state call => call.replay? state) ([], start)

structure Mirrors (start : σ) (t : Transcript) (nodes : List Node)
    (drawing : σ) : Prop where
  replayed : t.replay? start = some (nodes, drawing)
  count : t.nextNode = nodes.length

theorem replay?_write (t : Transcript) (start : σ) (call : Call) :
    (t.write call).replay? start =
      (t.replay? start).bind fun state => call.replay? state := by
  simp [replay?, write, List.foldlM_append]

namespace Mirrors

variable {start : σ} {t : Transcript} {nodes : List Node} {drawing : σ}

theorem empty (start : σ) : Mirrors start {} ([] : List Node) start :=
  ⟨rfl, rfl⟩

theorem write (mirrors : Mirrors start t nodes drawing) (call : Call) {next : σ}
    (replayed : call.replay? (nodes, drawing) = some (nodes, next)) :
    Mirrors start (t.write call) nodes next where
  replayed := by
    rw [replay?_write, mirrors.replayed, Option.bind_some, replayed]
  count := mirrors.count

theorem create (mirrors : Mirrors start t nodes drawing) (kind : Kind) :
    Mirrors start (Backend.create t kind).2
      (nodes ++ [(Backend.create drawing kind).1])
      (Backend.create drawing kind).2 where
  replayed := by
    have written := t.replay?_write start (.create t.nextNode kind)
    rw [mirrors.replayed, Option.bind_some] at written
    refine written.trans ?_
    simp [Call.replay?, mirrors.count]
  count := by
    rw [List.length_append, ← mirrors.count]
    rfl

theorem setAttribute (mirrors : Mirrors start t nodes drawing) {number : Nat}
    {node : Node} (named : nodes[number]? = some node) (name value : String) :
    Mirrors start (Backend.setAttribute t number name value) nodes
      (Backend.setAttribute drawing node name value) :=
  mirrors.write (.setAttribute number name value)
    (by simp [Call.replay?, named])

theorem append (mirrors : Mirrors start t nodes drawing) {above below : Nat}
    {parent child : Node} (parentNamed : nodes[above]? = some parent)
    (childNamed : nodes[below]? = some child) :
    Mirrors start (Backend.append t above below) nodes
      (Backend.append drawing parent child) :=
  mirrors.write (.append above below)
    (by simp [Call.replay?, parentNamed, childNamed])

theorem setText (mirrors : Mirrors start t nodes drawing) {number : Nat}
    {node : Node} (named : nodes[number]? = some node) (content : String) :
    Mirrors start (Backend.setText t number content) nodes
      (Backend.setText drawing node content) :=
  mirrors.write (.setText number content)
    (by simp [Call.replay?, named])

theorem setStyle (mirrors : Mirrors start t nodes drawing) {number : Nat}
    {node : Node} (named : nodes[number]? = some node) (property value : String) :
    Mirrors start (Backend.setStyle t number property value) nodes
      (Backend.setStyle drawing node property value) :=
  mirrors.write (.setStyle number property value)
    (by simp [Call.replay?, named])

theorem setAttributes (mirrors : Mirrors start t nodes drawing) {number : Nat}
    {node : Node} (named : nodes[number]? = some node)
    (attributes : List (String × String)) :
    Mirrors start (Backend.setAttributes t number attributes) nodes
      (Backend.setAttributes drawing node attributes) := by
  induction attributes generalizing t drawing with
  | nil => exact mirrors
  | cons entry rest ih => exact ih (mirrors.setAttribute named entry.1 entry.2)

theorem placeText (mirrors : Mirrors start t nodes drawing) {number : Nat}
    {node : Node} (named : nodes[number]? = some node)
    (content : Option String) :
    Mirrors start (Backend.placeText t number content) nodes
      (Backend.placeText drawing node content) := by
  cases content with
  | none => exact mirrors
  | some content => exact mirrors.setText named content

theorem placeOrigin (mirrors : Mirrors start t nodes drawing) {number : Nat}
    {node : Node} (named : nodes[number]? = some node)
    (origin : Option String) :
    Mirrors start (Backend.placeOrigin t number origin) nodes
      (Backend.placeOrigin drawing node origin) := by
  cases origin with
  | none => exact mirrors
  | some origin =>
      exact (mirrors.setStyle named "transform-box" "fill-box").setStyle named
        "transform-origin" origin

theorem created (mirrors : Mirrors start t nodes drawing) (kind : Kind) :
    (nodes ++ [(Backend.create drawing kind).1])[t.nextNode]? =
      some (Backend.create drawing kind).1 := by
  simp [mirrors.count]

theorem place (mirrors : Mirrors start t nodes drawing) (options : Options)
    (s : Shape) :
    Mirrors start (Backend.place options s t).2
      (nodes ++ [(Backend.place options s drawing).1])
      (Backend.place options s drawing).2 := by
  have named := mirrors.created (s.normalForm options.roundAlpha).kind
  exact ((mirrors.create _).setAttributes named _).placeText named _

end Mirrors
end Transcript

namespace Backend

open Transcript (Mirrors)

/-- Drawing a shape leads from a drawing that mirrors a transcript to another
one, with the same result on nodes of the same number. -/
def Keeps (options : Options) (start : σ) (s : Shape) : Prop :=
  ∀ (t : Transcript) (nodes : List Node) (drawing : σ),
    Mirrors start t nodes drawing →
      ∃ more, Mirrors start (compile options s t).2 (nodes ++ more)
          (compile options s drawing).2 ∧
        (compile options s drawing).1.map some =
          (compile options s t).1.map fun root => (nodes ++ more)[root]?

def AllKeep (options : Options) (start : σ) (shapes : List Shape) : Prop :=
  ∀ (t : Transcript) (nodes : List Node) (drawing : σ) (number : Nat)
    (parent : Node), Mirrors start t nodes drawing →
      nodes[number]? = some parent →
        ∃ more, Mirrors start (drawAll options shapes number t).2 (nodes ++ more)
            (drawAll options shapes parent drawing).2 ∧
          (drawAll options shapes parent drawing).1 =
            (drawAll options shapes number t).1

private theorem getElem?_append_of_some {nodes : List Node} {number : Nat}
    {node : Node} (named : nodes[number]? = some node) (more : List Node) :
    (nodes ++ more)[number]? = some node := by
  rw [List.getElem?_append_left (List.getElem?_eq_some_iff.mp named).1, named]

theorem Keeps.of_children {options : Options} {start : σ} {s : Shape}
    (below : AllKeep options start s.children) : Keeps options start s := by
  intro t nodes drawing mirrors
  rw [compile_eq, compile_eq]
  cases options.refusal? s with
  | some error => exact ⟨[], by simpa using mirrors, rfl⟩
  | none =>
      have placed := mirrors.place options s
      have named : (nodes ++ [(place options s drawing).1])[(place options s t).1]? =
          some (place options s drawing).1 := mirrors.created _
      obtain ⟨more, drawn, same⟩ := below _ _ _ _ _ placed named
      refine ⟨(place options s drawing).1 :: more, ?_⟩
      have order : nodes ++ (place options s drawing).1 :: more =
          nodes ++ [(place options s drawing).1] ++ more := by simp
      have rootNamed := getElem?_append_of_some named more
      rw [order]
      generalize drawAll options s.children _ (place options s t).2 = recorded
        at drawn same ⊢
      generalize drawAll options s.children _ (place options s drawing).2 = direct
        at drawn same ⊢
      obtain ⟨stopped, t'⟩ := recorded
      obtain ⟨stoppedToo, drawing'⟩ := direct
      obtain rfl : stopped = stoppedToo := same.symm
      cases stopped with
      | some error => exact ⟨drawn, rfl⟩
      | none =>
          exact ⟨drawn.placeOrigin rootNamed s.origin?,
            congrArg Except.ok rootNamed.symm⟩

theorem AllKeep.cons {options : Options} {start : σ} {s : Shape}
    {rest : List Shape} (first : Keeps options start s)
    (others : AllKeep options start rest) : AllKeep options start (s :: rest) := by
  intro t nodes drawing number parent mirrors named
  obtain ⟨more, drawn, same⟩ := first t nodes drawing mirrors
  have parentNamed := getElem?_append_of_some named more
  rw [drawAll_cons, drawAll_cons]
  generalize compile options s t = recorded at drawn same ⊢
  generalize compile options s drawing = direct at drawn same ⊢
  rcases recorded with ⟨error | root, t'⟩ <;>
    rcases direct with ⟨stopped | node, drawing'⟩
  · obtain rfl : stopped = error := Except.error.inj same
    exact ⟨more, drawn, rfl⟩
  · cases same
  · cases same
  · have rootNamed : (nodes ++ more)[root]? = some node :=
      (Except.ok.inj same).symm
    have attached := drawn.append parentNamed rootNamed
    obtain ⟨later, finished, sameRest⟩ := others _ _ _ _ _ attached parentNamed
    exact ⟨more ++ later, by simpa using finished, sameRest⟩

theorem keeps (options : Options) (start : σ) (s : Shape) :
    Keeps options start s := by
  have both : (∀ s, Keeps options start s) ∧
      ∀ shapes, AllKeep options start shapes := by
    apply Shape.induction_both
    case shape => exact fun s below => .of_children below
    case nil =>
      intro t nodes drawing number parent mirrors _
      exact ⟨[], by simpa using mirrors, by simp⟩
    case cons => exact fun s rest first others => AllKeep.cons first others
  exact both.1 s

theorem compile_replay (options : Options) (s : Shape) (drawing : σ) :
    ∃ nodes, (compile options s ({} : Transcript)).2.replay? drawing =
        some (nodes, (compile options s drawing).2) ∧
      (compile options s drawing).1.map some =
        (compile options s ({} : Transcript)).1.map fun root => nodes[root]? := by
  obtain ⟨nodes, mirrors, same⟩ := keeps options drawing s {} [] drawing (.empty drawing)
  exact ⟨nodes, mirrors.replayed, same⟩

end Backend

namespace Svg.Document

@[simp] theorem size_append (d : Document) (parent child : Nat) :
    (d.append parent child).elements.size = d.elements.size := by
  unfold append
  repeat' split
  all_goals simp

def Numbered (start : Document) : List Nat × Document → Prop
  | (nodes, d) =>
      nodes = List.range' start.elements.size nodes.length ∧
        d.elements.size = start.elements.size + nodes.length

theorem Numbered.of_size_eq {start d next : Document} {nodes : List Nat}
    (numbered : Numbered start (nodes, d))
    (same : next.elements.size = d.elements.size) : Numbered start (nodes, next) :=
  ⟨numbered.1, same.trans numbered.2⟩

theorem Numbered.replay? {start : Document} {state next : List Nat × Document}
    (numbered : Numbered start state) {call : Call}
    (replayed : call.replay? state = some next) : Numbered start next := by
  obtain ⟨nodes, d⟩ := state
  cases call with
  | create number kind =>
      obtain ⟨numbers, size⟩ := numbered
      simp only [Call.replay?, Option.ite_none_right_eq_some] at replayed
      obtain ⟨-, ⟨⟩⟩ := replayed
      refine ⟨?_, ?_⟩
      · rw [List.length_append, List.length_singleton, List.range'_concat,
          Nat.one_mul, ← numbers, ← size]
        rfl
      · simp [Backend.create, createElement, size, Nat.add_assoc]
  | setAttribute number name value =>
      obtain ⟨node, -, ⟨⟩⟩ := Option.bind_eq_some_iff.mp replayed
      exact numbered.of_size_eq (size_update d node _)
  | append above below =>
      obtain ⟨parent, -, replayed⟩ := Option.bind_eq_some_iff.mp replayed
      obtain ⟨child, -, ⟨⟩⟩ := Option.bind_eq_some_iff.mp replayed
      exact numbered.of_size_eq (size_append d parent child)
  | setText number content =>
      obtain ⟨node, -, ⟨⟩⟩ := Option.bind_eq_some_iff.mp replayed
      exact numbered.of_size_eq (size_update d node _)
  | setStyle number property value =>
      obtain ⟨node, -, ⟨⟩⟩ := Option.bind_eq_some_iff.mp replayed
      exact numbered.of_size_eq (size_update d node _)

theorem Numbered.foldlM {start : Document} {calls : List Call}
    {state last : List Nat × Document} (numbered : Numbered start state)
    (replayed : calls.foldlM (fun state call => call.replay? state) state =
      some last) : Numbered start last := by
  induction calls generalizing state with
  | nil =>
      cases replayed
      exact numbered
  | cons call rest ih =>
      rw [List.foldlM_cons] at replayed
      obtain ⟨next, first, later⟩ := Option.bind_eq_some_iff.mp replayed
      exact ih (numbered.replay? first) later

/-- Drawing a shape tree into a document gives the document, and the root or the
error, that replaying the calls of a fresh transcript gives. The nodes of the
transcript are the elements that the replay creates, in order. -/
theorem compile_eq_replay (options : Options) (s : Shape) (d : Document) :
    let recorded := Backend.compile options s ({} : Transcript)
    let drawn := Backend.compile options s d
    ∃ nodes, recorded.2.replay? d = some (nodes, drawn.2) ∧
      drawn.1.map some = (recorded.1.map fun root => nodes[root]?) ∧
      nodes = List.range' d.elements.size nodes.length := by
  obtain ⟨nodes, replayed, same⟩ := Backend.compile_replay options s d
  have none : Numbered d ([], d) := ⟨rfl, rfl⟩
  exact ⟨nodes, replayed, same, (none.foldlM replayed).1⟩

end Svg.Document
end Tracery
