import Tracery.Proofs.Drawing.Calls

/-! What strict drawing leaves behind when it fails: the calls of permissive
drawing, up to the creation of the first shape in preorder that has a flaw. -/

namespace Tracery

/-- The first shape with a flaw among shapes in preorder, and the calls that
draw the shapes, cut ahead of the creation of its node. -/
structure FirstFlaw (options : Options) (shapes : List Shape)
    (calls : List Call) (next : Nat) where
  before : List Shape
  flawed : Shape
  after : List Shape
  key : String
  problem : Problem
  made : List Call
  left : List Call
  shapes_eq : shapes = before ++ flawed :: after
  sound : ∀ part ∈ before, part.flaw? = none
  flaw : flawed.flaw? = some (.invalidAttribute flawed.kind key problem)
  calls_eq : calls =
    made ++ .create (next + before.length)
      (flawed.normalForm options.roundAlpha).kind :: left
  created_lt : ∀ node kind, .create node kind ∈ made →
    node < next + before.length

namespace Shape

theorem exists_of_flaw?_eq_some {s : Shape} {error : Error}
    (flaw : s.flaw? = some error) :
    ∃ key problem, error = .invalidAttribute s.kind key problem := by
  unfold flaw? at flaw
  cases missing : s.missingAttribute? with
  | some key =>
      rw [missing] at flaw
      exact ⟨key, .missing, (Option.some.inj flaw).symm⟩
  | none =>
      rw [missing] at flaw
      cases infinite : s.infiniteAttribute? with
      | some key =>
          rw [infinite] at flaw
          exact ⟨key, .notFinite, (Option.some.inj flaw).symm⟩
      | none => simp [infinite] at flaw

theorem eq_of_create_mem_buildCalls {options : Options} {s : Shape}
    {root node : Nat} {kind : Kind}
    (member : .create node kind ∈ s.buildCalls options root) : node = root := by
  obtain ⟨_, _, _ | _ | _⟩ := s <;> simp [buildCalls] at member <;>
    exact member.1

theorem create_not_mem_originCalls (s : Shape) (root node : Nat) (kind : Kind) :
    .create node kind ∉ s.originCalls root := by
  unfold originCalls
  cases s.attr? "origin" <;> simp

private theorem lt_of_create_mem (options : Options) :
    (∀ (s : Shape) (root node : Nat) (kind : Kind),
      .create node kind ∈ s.calls options root → node < root + s.size) ∧
    ∀ (shapes : List Shape) (parent next node : Nat) (kind : Kind),
      .create node kind ∈ nestedCalls options shapes parent next →
        node < next + sizeAll shapes := by
  apply induction_both
  case shape =>
    intro s below root node kind member
    rw [calls_eq, List.mem_append, List.mem_append] at member
    rw [size_eq]
    rcases member with (built | nested) | turned
    · have := eq_of_create_mem_buildCalls built
      omega
    · have := below root (root + 1) node kind nested
      omega
    · exact absurd turned (create_not_mem_originCalls s root node kind)
  case nil => simp
  case cons =>
    intro s rest first others parent next node kind member
    rw [nestedCalls_cons, List.mem_append, List.mem_append] at member
    rw [sizeAll_cons]
    rcases member with (inside | attached) | later
    · have := first next node kind inside
      omega
    · simp at attached
    · have := others parent (next + s.size) node kind later
      omega

theorem lt_of_create_mem_calls (options : Options) (s : Shape)
    (root node : Nat) (kind : Kind)
    (member : .create node kind ∈ s.calls options root) :
    node < root + s.size :=
  (lt_of_create_mem options).1 s root node kind member

end Shape

namespace FirstFlaw

variable {options : Options} {shapes : List Shape} {calls : List Call}
  {next : Nat}

def error (first : FirstFlaw options shapes calls next) : Error :=
  .invalidAttribute first.flawed.kind first.key first.problem

def ofRoot (s : Shape) {key : String} {problem : Problem}
    (flaw : s.flaw? = some (.invalidAttribute s.kind key problem)) :
    FirstFlaw options s.preorder (s.calls options next) next where
  before := []
  flawed := s
  after := Shape.preorderAll s.children
  key := key
  problem := problem
  made := []
  left := (s.calls options next).tail
  shapes_eq := s.preorder_eq
  sound := by simp
  flaw := flaw
  calls_eq := by simp [Shape.calls_eq, Shape.buildCalls]
  created_lt := by simp

def within {later : Nat} {wholeShapes : List Shape} {wholeCalls : List Call}
    (first : FirstFlaw options shapes calls later)
    (ahead others : List Shape) (done more : List Call)
    (shapes_eq : wholeShapes = ahead ++ shapes ++ others)
    (calls_eq : wholeCalls = done ++ calls ++ more)
    (later_eq : later = next + ahead.length)
    (sound : ∀ part ∈ ahead, part.flaw? = none)
    (created : ∀ node kind, .create node kind ∈ done → node < later) :
    FirstFlaw options wholeShapes wholeCalls next where
  before := ahead ++ first.before
  flawed := first.flawed
  after := first.after ++ others
  key := first.key
  problem := first.problem
  made := done ++ first.made
  left := first.left ++ more
  shapes_eq := by simp [shapes_eq, first.shapes_eq]
  sound := by
    intro part member
    rcases List.mem_append.mp member with early | late
    · exact sound part early
    · exact first.sound part late
  flaw := first.flaw
  calls_eq := by simp [calls_eq, first.calls_eq, later_eq, Nat.add_assoc]
  created_lt := by
    intro node kind member
    rw [List.length_append]
    rcases List.mem_append.mp member with early | late
    · have := created node kind early
      omega
    · have := first.created_lt node kind late
      omega

end FirstFlaw

namespace Backend

def StopsAtFlaw (options : Options) (s : Shape) (t : Transcript) : Prop :=
  ∃ first : FirstFlaw options s.preorder (s.calls options t.nextNode) t.nextNode,
    compile { options with strict := true } s t =
      (.error first.error, t.extend first.made first.before.length)

def AllStopAtFlaw (options : Options) (shapes : List Shape) (parent : Nat)
    (t : Transcript) : Prop :=
  ∃ first : FirstFlaw options (Shape.preorderAll shapes)
      (Shape.nestedCalls options shapes parent t.nextNode) t.nextNode,
    drawAll { options with strict := true } shapes parent t =
      (some first.error, t.extend first.made first.before.length)

theorem StopsAtFlaw.of_root {options : Options} {s : Shape} {error : Error}
    (flaw : s.flaw? = some error) (t : Transcript) :
    StopsAtFlaw options s t := by
  obtain ⟨key, problem, rfl⟩ := Shape.exists_of_flaw?_eq_some flaw
  refine ⟨FirstFlaw.ofRoot s flaw, ?_⟩
  have refused : { options with strict := true }.refusal? s =
      some (.invalidAttribute s.kind key problem) := flaw
  rw [compile_eq, refused]
  simp [FirstFlaw.ofRoot, FirstFlaw.error]

theorem StopsAtFlaw.of_children {options : Options} {s : Shape}
    (sound : s.flaw? = none) (t : Transcript)
    (below : AllStopAtFlaw options s.children t.nextNode
      (t.extend (s.buildCalls options t.nextNode) 1)) :
    StopsAtFlaw options s t := by
  obtain ⟨first, stopped⟩ := below
  have accepted : { options with strict := true }.refusal? s = none := sound
  have placed : place { options with strict := true } s t =
      (t.nextNode, t.extend (s.buildCalls options t.nextNode) 1) :=
    place_eq_extend options s t
  refine ⟨first.within [s] [] (s.buildCalls options t.nextNode)
    (s.originCalls t.nextNode) ?_ (s.calls_eq options t.nextNode) rfl ?_ ?_, ?_⟩
  · simp [s.preorder_eq]
  · simpa using sound
  · intro node kind member
    simp [Shape.eq_of_create_mem_buildCalls member]
  · rw [compile_eq, accepted, placed]
    simp only [stopped]
    simp [FirstFlaw.within, FirstFlaw.error, Nat.add_comm]

theorem AllStopAtFlaw.of_head {options : Options} {s : Shape} {t : Transcript}
    (head : StopsAtFlaw options s t) (rest : List Shape) (parent : Nat) :
    AllStopAtFlaw options (s :: rest) parent t := by
  obtain ⟨first, stopped⟩ := head
  refine ⟨first.within [] (Shape.preorderAll rest) []
    ([.append parent t.nextNode] ++
      Shape.nestedCalls options rest parent (t.nextNode + s.size))
    (by simp) ?_ rfl (by simp) (by simp), ?_⟩
  · simp [Shape.nestedCalls_cons]
  · rw [drawAll_cons, stopped]
    simp [FirstFlaw.within, FirstFlaw.error]

theorem AllStopAtFlaw.of_rest {options : Options} {s : Shape}
    (sound : ∀ part ∈ s.preorder, part.flaw? = none) {rest : List Shape}
    {parent : Nat} (t : Transcript)
    (later : AllStopAtFlaw options rest parent
      ((t.extend (s.calls options t.nextNode) s.size).extend
        [.append parent t.nextNode] 0)) :
    AllStopAtFlaw options (s :: rest) parent t := by
  obtain ⟨first, stopped⟩ := later
  have drawn : compile { options with strict := true } s t =
      (.ok t.nextNode, t.extend (s.calls options t.nextNode) s.size) :=
    compile_of_accepted options true s sound t
  refine ⟨first.within s.preorder []
    (s.calls options t.nextNode ++ [.append parent t.nextNode]) []
    (by simp) ?_ ?_ sound ?_, ?_⟩
  · simp [Shape.nestedCalls_cons]
  · simp [s.length_preorder]
  · intro node kind member
    have inside : .create node kind ∈ s.calls options t.nextNode := by
      simpa using member
    exact Shape.lt_of_create_mem_calls options s t.nextNode node kind inside
  · rw [drawAll_cons, drawn]
    simp only [Transcript.append_eq_extend]
    rw [stopped]
    simp [FirstFlaw.within, FirstFlaw.error, s.length_preorder]

private theorem stops_of_flawed (options : Options) :
    (∀ s : Shape, (¬ ∀ part ∈ s.preorder, part.flaw? = none) →
      ∀ t, StopsAtFlaw options s t) ∧
    ∀ shapes : List Shape,
      (¬ ∀ part ∈ Shape.preorderAll shapes, part.flaw? = none) →
      ∀ parent t, AllStopAtFlaw options shapes parent t := by
  apply Shape.induction_both
  case shape =>
    intro s below flawed t
    rw [s.preorder_eq, List.forall_mem_cons] at flawed
    cases flaw : s.flaw? with
    | some error => exact .of_root flaw t
    | none =>
        apply StopsAtFlaw.of_children flaw
        apply below
        intro sound
        exact flawed ⟨flaw, sound⟩
  case nil => simp
  case cons =>
    intro s rest first others flawed parent t
    rw [Shape.preorderAll_cons, List.forall_mem_append] at flawed
    by_cases sound : ∀ part ∈ s.preorder, part.flaw? = none
    · apply AllStopAtFlaw.of_rest sound
      apply others
      intro restSound
      exact flawed ⟨sound, restSound⟩
    · exact .of_head (first sound t) rest parent

theorem compile_stops (options : Options) (s : Shape) (t : Transcript)
    (flawed : ¬ ∀ part ∈ s.preorder, part.flaw? = none) :
    StopsAtFlaw options s t :=
  (stops_of_flawed options).1 s flawed t

theorem exists_calls_compile (options : Options) (s : Shape) (t : Transcript) :
    ∃ calls nodes, (compile options s t).2 = t.extend calls nodes ∧
      calls <+: s.calls options t.nextNode := by
  by_cases accepted : ∀ part ∈ s.preorder, options.refusal? part = none
  · exact ⟨_, _, congrArg Prod.snd (compile_of_accepted options options.strict s accepted t),
      List.prefix_rfl⟩
  · have strict : options.strict = true := by
      rw [← Bool.not_eq_false]
      exact fun permissive => accepted fun part _ => Options.refusal?_permissive permissive part
    have same : { options with strict := true } = options := by rw [← strict]
    have flawed : ¬ ∀ part ∈ s.preorder, part.flaw? = none := by
      simpa only [Options.refusal?, strict, if_true] using accepted
    obtain ⟨first, stopped⟩ := compile_stops options s t flawed
    rw [same] at stopped
    exact ⟨first.made, _, congrArg Prod.snd stopped, _, first.calls_eq.symm⟩

end Backend

/-- Strictness decides whether drawing succeeds and nothing else: without a flaw
the calls are those of permissive drawing, otherwise they end where the first
shape with a flaw would be created. -/
theorem compile_strict_eq (options : Options) (s : Shape) (t : Transcript) :
    let strict := Backend.compile { options with strict := true } s t
    let permissive := Backend.compile { options with strict := false } s t
    ((∃ root, strict.1 = .ok root) ↔ ∀ part ∈ s.preorder, part.flaw? = none) ∧
    ((∀ part ∈ s.preorder, part.flaw? = none) → strict = permissive) ∧
    ((¬ ∀ part ∈ s.preorder, part.flaw? = none) →
      ∃ before flawed after key problem made left,
        s.preorder = before ++ flawed :: after ∧
        (∀ part ∈ before, part.flaw? = none) ∧
        flawed.flaw? = some (.invalidAttribute flawed.kind key problem) ∧
        strict =
          (.error (.invalidAttribute flawed.kind key problem),
            { calls := t.calls ++ made.toArray,
              nextNode := t.nextNode + before.length }) ∧
        permissive.2.calls =
          t.calls ++ (made ++ .create (t.nextNode + before.length)
            (flawed.normalForm options.roundAlpha).kind :: left).toArray ∧
        ∀ node kind, .create node kind ∈ made →
          node < t.nextNode + before.length) := by
  have permissive : Backend.compile { options with strict := false } s t =
      (.ok t.nextNode, t.extend (s.calls options t.nextNode) s.size) :=
    Backend.compile_of_accepted options false s (fun _ _ => rfl) t
  refine ⟨?_, ?_, ?_⟩
  · exact Backend.compile_isOk_iff { options with strict := true } s t
  · intro sound
    rw [permissive]
    exact Backend.compile_of_accepted options true s sound t
  · intro flawed
    obtain ⟨first, stopped⟩ := Backend.compile_stops options s t flawed
    refine ⟨first.before, first.flawed, first.after, first.key, first.problem,
      first.made, first.left, first.shapes_eq, first.sound, first.flaw, stopped,
      ?_, first.created_lt⟩
    rw [permissive, ← first.calls_eq]
    rfl

theorem compile_strict_eq_siblings :
    let tree := Shape.group
      [.label "a" .empty, .new .circle .empty, .label "b" .empty] .empty
    (¬ ∀ part ∈ tree.preorder, part.flaw? = none) ∧
    ∃ made, Backend.compile { strict := true } tree ({} : Transcript) =
      (.error (.invalidAttribute .circle "r" .missing),
        { calls := made, nextNode := 2 }) := by
  intro tree
  have order : tree.preorder =
      [tree, .label "a" .empty, .new .circle .empty, .label "b" .empty] := rfl
  have flawed : ¬ ∀ part ∈ tree.preorder, part.flaw? = none := by
    intro sound
    have circle := sound (.new .circle .empty) (by simp [order])
    cases circle
  obtain ⟨before, part, after, key, problem, made, left, split, sound, flaw,
    stopped, -⟩ := (compile_strict_eq {} tree {}).2.2 flawed
  refine ⟨flawed, made.toArray, ?_⟩
  rw [order] at split
  obtain _ | ⟨first, _ | ⟨second, _ | ⟨third, rest⟩⟩⟩ := before
  · obtain ⟨rfl, -⟩ : tree = part ∧ _ := by simpa using split
    cases flaw
  · obtain ⟨-, rfl, -⟩ : tree = first ∧ Shape.label "a" .empty = part ∧ _ := by
      simpa using split
    cases flaw
  · obtain ⟨-, -, rfl, -⟩ : tree = first ∧ Shape.label "a" .empty = second ∧
        Shape.new .circle .empty = part ∧ _ := by simpa using split
    cases flaw
    simpa [Shape.new] using stopped
  · obtain ⟨-, -, rfl, -⟩ : tree = first ∧ Shape.label "a" .empty = second ∧
        Shape.new .circle .empty = third ∧ _ := by simpa using split
    have circle := sound (.new .circle .empty) (by simp)
    cases circle

end Tracery
