import Tracery.Proofs.Drawing.Rearrangement
import Tracery.Proofs.NormalForm.Presence

/-! The order in which attributes come. Trees that differ in it alone are equal, are refused
for the same problems, and are drawn by the same calls up to that order. -/

namespace Tracery

namespace OrderedMap

variable {β : Type}

theorem sameAs_of_perm [BEq β] {m n : OrderedMap β} (perm : m.entries.Perm n.entries)
    (other : OrderedMap β) : other.sameAs m = other.sameAs n := by
  simp only [sameAs, perm.length_eq, perm_iff_get?_eq.mp perm]

end OrderedMap

namespace Shape

/-- Trees that differ in the order of attributes alone. -/
def Reordered (s t : Shape) : Prop := s.Matches (fun _ a b => a.entries.Perm b.entries) t

theorem reordered_withAttrs (s : Shape) {attrs others : Attrs}
    (perm : attrs.entries.Perm others.entries) :
    (s.withAttrs attrs).Reordered (s.withAttrs others) :=
  matches_iff.mpr ⟨rfl, perm, rfl, rfl,
    (matches_refl fun _ attrs => .refl attrs.entries).2 s.children⟩

theorem sameAs_eq (s t : Shape) :
    s.sameAs t = (s.kind == t.kind && s.attrs.sameAs t.attrs && s.isComposite == t.isComposite &&
      s.text? == t.text? && allSame s.children t.children) := by
  obtain ⟨kind, attrs, body⟩ := s
  obtain ⟨kind', attrs', body'⟩ := t
  cases body <;> cases body' <;> simp [sameAs, allSame, isComposite, text?, children]

theorem Reordered.sameAs_eq {s t : Shape} (reordered : s.Reordered t) (other : Shape) :
    other.sameAs s = other.sameAs t := by
  have both : (∀ s t : Shape, s.Reordered t → ∀ other : Shape, other.sameAs s = other.sameAs t) ∧
      ∀ shapes others : List Shape,
        AllMatch (fun _ a b => a.entries.Perm b.entries) shapes others →
        ∀ more, allSame more shapes = allSame more others := by
    apply matches_induction
    case shape =>
      intro s t kind attrs composite text below other
      rw [Shape.sameAs_eq, Shape.sameAs_eq, kind, composite, text, below,
        OrderedMap.sameAs_of_perm attrs]
    case nil => exact fun _ => rfl
    case cons =>
      intro s t rest others first later more
      cases more with
      | nil => rfl
      | cons shape more => rw [allSame, allSame, first, later]
  exact both.1 s t reordered other

/-! Refusals. Which of several numbers that are not finite is named depends on the order. -/

end Shape

/-- Errors that refuse the same kind for the same problem, perhaps by different attributes. -/
inductive Error.SameProblem : Error → Error → Prop
  | invalidAttribute (kind : Kind) (key key' : String) (problem : Problem) :
      SameProblem (.invalidAttribute kind key problem) (.invalidAttribute kind key' problem)

namespace Shape

theorem isSome_infiniteAttribute?_of_perm {s t : Shape}
    (perm : s.attrs.entries.Perm t.attrs.entries) :
    s.infiniteAttribute?.isSome = t.infiniteAttribute?.isSome := by
  rw [Bool.eq_iff_iff]
  simp only [infiniteAttribute?, Option.isSome_map, List.find?_isSome, perm.mem_iff]

theorem missingAttribute?_congr {s t : Shape} (kind : s.kind = t.kind)
    (agrees : s.attrs.AgreesWith t.attrs) : s.missingAttribute? = t.missingAttribute? := by
  have has : s.hasAttr = t.hasAttr := by
    funext key
    rw [hasAttr, hasAttr, attr?, attr?, ← OrderedMap.isSome_present?,
      ← OrderedMap.isSome_present?, agrees]
  rw [missingAttribute?, missingAttribute?, kind, has]

theorem flaw?_of_perm {s t : Shape} (kind : s.kind = t.kind)
    (perm : s.attrs.entries.Perm t.attrs.entries) :
    Option.Rel Error.SameProblem s.flaw? t.flaw? := by
  have agrees := OrderedMap.AgreesWith.of_get?_eq (OrderedMap.perm_iff_get?_eq.mp perm)
  have infinite := isSome_infiniteAttribute?_of_perm perm
  rw [flaw?, flaw?, missingAttribute?_congr kind agrees, kind]
  cases t.missingAttribute? with
  | some key => exact .some (.invalidAttribute ..)
  | none =>
      revert infinite
      cases s.infiniteAttribute? <;> cases t.infiniteAttribute? <;> intro infinite
      case none.none => exact .none
      case some.some => exact .some (.invalidAttribute ..)
      all_goals cases infinite

theorem drawnAlike_of_perm (options : Options) {s t : Shape} (kind : s.kind = t.kind)
    (perm : s.attrs.entries.Perm t.attrs.entries) :
    s.DrawnAlike options Error.SameProblem List.Perm t := by
  apply drawnAlike_of_drawsAlike kind (.of_get?_eq _ (OrderedMap.perm_iff_get?_eq.mp perm))
  rw [Options.refusal?, Options.refusal?]
  split
  · exact flaw?_of_perm kind perm
  · exact .none

end Shape

/-- The order in which attributes were inserted is nowhere drawn but in the order in which a
node is given its attributes. Trees that differ in it are equal, NaN aside, and drawing both
succeeds with the same root or fails for the same problem. -/
theorem compile_of_reordered (options : Options) {s s' : Shape} (reordered : s.Reordered s')
    (t : Transcript) :
    (s == s') = (s == s) ∧
    Backend.EndsAlike Error.SameProblem (Backend.compile options s t).1
      (Backend.compile options s' t).1 ∧
    ∃ calls others nodes,
      (Backend.compile options s t).2 = t.extend calls nodes ∧
      (Backend.compile options s' t).2 = t.extend others nodes ∧
      calls.length = others.length ∧
      calls.filter (!·.setsAttribute) = others.filter (!·.setsAttribute) ∧
      Call.Rearranged calls others := by
  have drawn (u v : Shape) (kind : u.kind = v.kind)
      (perm : u.attrs.entries.Perm v.attrs.entries) :
      u.DrawnAlike options Error.SameProblem List.Perm v :=
    Shape.drawnAlike_of_perm options kind perm
  obtain ⟨ends, calls, others, nodes, rearranged, first, second⟩ :=
    (Transcript.simulation_abreast t).compile drawn reordered (.refl t)
  exact ⟨(reordered.sameAs_eq s).symm, ends, calls, others, nodes, first, second,
    rearranged.length_eq, rearranged.filter_eq, rearranged⟩

theorem compile_of_reordered_group :
    let rect (entries : List (String × Value)) : Shape := ⟨.rect, .ofList entries, .empty⟩
    let s := Shape.group
      [rect [("cx", .text "5"), ("w", .text "4"), ("fill", .text "red")],
        .label "a" (.ofList [("rotate", .text "45"), ("id", .null)])] .empty
    let s' := Shape.group
      [rect [("w", .text "4"), ("fill", .text "red"), ("cx", .text "5")],
        .label "a" (.ofList [("id", .null), ("rotate", .text "45")])] .empty
    s.Reordered s' ∧ (s == s') = true ∧
      ∃ calls others nodes,
        (Backend.compile {} s ({} : Transcript)).2 = ({} : Transcript).extend calls nodes ∧
        (Backend.compile {} s' ({} : Transcript)).2 = ({} : Transcript).extend others nodes ∧
        Call.Rearranged calls others := by
  intro rect s s'
  have reordered : s.Reordered s' := by
    refine ⟨rfl, .nil, ⟨rfl, ?_⟩, ⟨rfl, ?_, rfl⟩, trivial⟩
    · exact @List.perm_append_comm _ [_] [_, _]
    · exact @List.perm_append_comm _ [_] [_]
  obtain ⟨equal, -, calls, others, nodes, first, second, -, -, rearranged⟩ :=
    compile_of_reordered {} reordered {}
  exact ⟨reordered, equal.trans rfl, calls, others, nodes, first, second, rearranged⟩

end Tracery
