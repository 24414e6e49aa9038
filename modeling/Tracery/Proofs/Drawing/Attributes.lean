import Tracery.Proofs.Drawing.Names
import Tracery.Proofs.Drawing.Strict
import Tracery.Proofs.NormalForm.Frame

/-! The attributes that drawing sets on one node. They are those of the shape that the node was
made for, and no two of them have one name if the keys of that shape have no hyphens. -/

namespace Tracery

def Call.attribute? (node : Nat) : Call → Option (String × String)
  | .setAttribute n name value => if n = node then some (name, value) else none
  | _ => none

theorem Transcript.attributesOf_extend (t : Transcript) (calls : List Call) (nodes node : Nat) :
    (t.extend calls nodes).attributesOf node =
      t.attributesOf node ++ calls.filterMap (Call.attribute? node) := by
  rw [attributesOf, extend, Array.toList_append, List.filterMap_append]
  rfl

namespace Shape

variable (options : Options)

def drawnAttributes (s : Shape) : List (String × String) :=
  options.drawnAttributes (s.normalForm options.roundAlpha).attrs

theorem attributes_buildCalls (s : Shape) (root node : Nat) :
    (s.buildCalls options root).filterMap (Call.attribute? node) =
      if root = node then s.drawnAttributes options else [] := by
  have set (entries : List (String × String)) :
      (entries.map fun entry => Call.setAttribute root entry.1 entry.2).filterMap
        (Call.attribute? node) = if root = node then entries else [] := by
    rw [List.filterMap_map]
    split
    next same => simp [Call.attribute?, same]
    next other => simp [Call.attribute?, other]
  have written : (s.text?.map (Call.setText root)).toList.filterMap (Call.attribute? node) =
      [] := by cases s.text? <;> rfl
  rw [buildCalls_eq, List.cons_append, List.filterMap_cons_none rfl, List.filterMap_append, set,
    written, List.append_nil]
  rfl

theorem attributes_originCalls (s : Shape) (root node : Nat) :
    (s.originCalls root).filterMap (Call.attribute? node) = [] := by
  unfold originCalls
  cases s.attr? "origin" <;> rfl

def attributesAt (node : Nat) (parts : List (Shape × Nat)) : List (String × String) :=
  parts.flatMap fun part => if part.2 = node then part.1.drawnAttributes options else []

theorem attributes_calls (node : Nat) :
    (∀ (s : Shape) (root : Nat), (s.calls options root).filterMap (Call.attribute? node) =
      attributesAt options node (s.preorder.zipIdx root)) ∧
    ∀ (shapes : List Shape) (parent next : Nat),
      (nestedCalls options shapes parent next).filterMap (Call.attribute? node) =
        attributesAt options node ((preorderAll shapes).zipIdx next) := by
  apply induction_both
  case shape =>
    intro s below root
    rw [calls_eq, preorder_eq, List.zipIdx_cons, List.filterMap_append, List.filterMap_append,
      attributes_buildCalls, below, attributes_originCalls, List.append_nil]
    rfl
  case nil => simp [attributesAt]
  case cons =>
    intro s rest first others parent next
    rw [nestedCalls_cons, preorderAll_cons, List.zipIdx_append, length_preorder, attributesAt,
      List.flatMap_append, ← attributesAt, ← attributesAt, ← first, ← others parent,
      List.filterMap_append, List.filterMap_append, List.filterMap_cons_none rfl]
    simp

theorem attributesAt_zipIdx {parts : List Shape} {part : Shape} {node next : Nat}
    (placed : (part, node) ∈ parts.zipIdx next) :
    attributesAt options node (parts.zipIdx next) = part.drawnAttributes options := by
  induction parts generalizing next with
  | nil => cases placed
  | cons first rest ih =>
      rw [List.zipIdx_cons, List.mem_cons, Prod.mk.injEq] at placed
      rw [List.zipIdx_cons, attributesAt, List.flatMap_cons, ← attributesAt]
      rcases placed with ⟨rfl, rfl⟩ | below
      · have others : attributesAt options node (rest.zipIdx (node + 1)) = [] := by
          rw [attributesAt, List.flatMap_eq_nil_iff]
          intro pair member
          have later : node < pair.2 := List.le_snd_of_mem_zipIdx member
          rw [if_neg (Nat.ne_of_gt later)]
        rw [others, if_pos rfl, List.append_nil]
      · have later : next < node := List.le_snd_of_mem_zipIdx below
        rw [ih below, if_neg (Nat.ne_of_lt later), List.nil_append]

variable {options} {s : Shape}

theorem unhyphenated_footprint (kind : Kind) {key : String} (listed : key ∈ kind.footprint) :
    '-' ∉ key.toList := by
  have plain : ∀ kind ∈ Kind.all, ∀ key ∈ kind.footprint, '-' ∉ key.toList := by decide
  exact plain kind kind.mem_all key listed

theorem mem_keys_normalForm {key : String} {roundAlpha : Bool}
    (member : key ∈ (s.normalForm roundAlpha).attrs.keys) :
    key ∈ s.kind.footprint ∨ key ∈ s.attrs.keys := by
  by_contra outside
  rw [not_or] at outside
  obtain ⟨other, absent⟩ := outside
  rw [Kind.footprint, List.mem_append, List.mem_cons, not_or, not_or] at other
  obtain ⟨outline, transform, part⟩ := other
  have unknown : (s.normalForm roundAlpha).attr? key = none := by
    rw [attr?_normalForm transform, if_neg part, attr?_outlined outline, attr?,
      OrderedMap.get?_eq_none_iff.mpr absent, Option.map_none]
  exact OrderedMap.get?_eq_none_iff.mp unknown member

theorem nodup_drawnAttributes (plain : ∀ key ∈ s.attrs.keys, '-' ∉ key.toList) :
    ((s.drawnAttributes options).map Prod.fst).Nodup := by
  have unhyphenated : ∀ key ∈ (s.normalForm options.roundAlpha).attrs.keys, '-' ∉ key.toList := by
    intro key member
    rcases mem_keys_normalForm member with own | given
    · exact unhyphenated_footprint s.kind own
    · exact plain key given
  let shown := (s.normalForm options.roundAlpha).attrs.entries.filter fun entry =>
    !entry.2.isNull && options.allows (drawnName entry.1)
  have inside : (shown.map Prod.fst).Sublist (s.normalForm options.roundAlpha).attrs.keys :=
    List.filter_sublist.map Prod.fst
  have names : (s.drawnAttributes options).map Prod.fst = (shown.map Prod.fst).map drawnName := by
    rw [drawnAttributes, options.drawnAttributes_eq, List.map_map, List.map_map]
    rfl
  rw [names]
  refine (OrderedMap.nodup _ |>.sublist inside).map_on ?_
  intro key member other otherMember
  exact drawnName_inj (unhyphenated key (inside.subset member))
    (unhyphenated other (inside.subset otherMember))

end Shape

/-- Drawn names are drawn under themselves and have no capitals but those of the verbatim names.
Keys without hyphens have names of their own, so the attributes that drawing sets on a node have
different names if the keys of its shape have no hyphens. -/
theorem drawnName_distinct :
    (∀ name, drawnName (drawnName name) = drawnName name) ∧
      (∀ name, IsDrawnName (drawnName name)) ∧
      (∀ key other : String, '-' ∉ key.toList → '-' ∉ other.toList →
        drawnName key = drawnName other → key = other) ∧
      ∀ (options : Options) (s : Shape) (t : Transcript) (part : Shape) (node : Nat),
        (part, node) ∈ s.preorder.zipIdx t.nextNode →
        (∀ key ∈ part.attrs.keys, '-' ∉ key.toList) →
        ∃ set, (Backend.compile options s t).2.attributesOf node = t.attributesOf node ++ set ∧
          (set.map Prod.fst).Nodup := by
  refine ⟨fun name => drawnName_of_isDrawnName (isDrawnName_drawnName name),
    isDrawnName_drawnName, fun _ _ => drawnName_inj, ?_⟩
  intro options s t part node placed plain
  obtain ⟨calls, nodes, compiled, made⟩ := Backend.exists_calls_compile options s t
  refine ⟨calls.filterMap (Call.attribute? node), ?_, ?_⟩
  · rw [compiled, Transcript.attributesOf_extend]
  · have all := (Shape.attributes_calls options node).1 s t.nextNode
    rw [Shape.attributesAt_zipIdx options placed] at all
    have distinct := all ▸ Shape.nodup_drawnAttributes plain
    exact distinct.sublist ((made.sublist.filterMap _).map _)

/-- A rectangle under a group whose own keys, one of which has a hyphen, share a name. -/
theorem drawnName_distinct_grouped :
    let part := Shape.new .rect (.ofList [("strokeWidth", .text "1"), ("w", .text "4"),
      ("h", .text "2"), ("viewBox", .text "0"), ("translate", .text "3")])
    let s := Shape.group [part] (.ofList [("fillRule", .text "a"), ("fill-rule", .text "b")])
    let drawing := (Backend.compile {} s ({} : Transcript)).2
    (part, 1) ∈ s.preorder.zipIdx 0 ∧ (∀ key ∈ part.attrs.keys, '-' ∉ key.toList) ∧
      (drawing.attributesOf 0).map Prod.fst = ["fill-rule", "fill-rule"] ∧
      (drawing.attributesOf 1).map Prod.fst =
        ["stroke-width", "viewBox", "width", "height", "transform"] ∧
      ((drawing.attributesOf 1).map Prod.fst).Nodup := by
  intro part s drawing
  have placed : (part, 1) ∈ s.preorder.zipIdx ({} : Transcript).nextNode :=
    List.mem_cons_of_mem _ List.mem_cons_self
  have plain : ∀ key ∈ part.attrs.keys, '-' ∉ key.toList := by decide
  obtain ⟨set, given, distinct⟩ := drawnName_distinct.2.2.2 {} s {} part 1 placed plain
  have drawn : drawing = ({} : Transcript).extend (s.calls {} 0) s.size :=
    congrArg Prod.snd (Backend.compile_of_accepted {} false s (fun _ _ => rfl) {})
  refine ⟨placed, plain, ?_, ?_, ?_⟩
  · rw [drawn]
    decide +kernel
  · rw [drawn]
    decide +kernel
  · rw [given]
    exact distinct

end Tracery
