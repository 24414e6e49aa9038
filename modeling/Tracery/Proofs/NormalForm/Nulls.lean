import Mathlib.Algebra.GroupWithZero.Nat
import Mathlib.Algebra.Order.BigOperators.Group.List
import Mathlib.Algebra.Order.Group.Nat
import Tracery.Proofs.Drawing.Names
import Tracery.Proofs.NormalForm.Order

/-! Trees without their nulls. A null is drawn as if it were not there, but for a few keys
of which drawing asks only whether they are there. -/

namespace Tracery

namespace OrderedMap

def withoutNulls (attrs : Attrs) : Attrs :=
  ⟨attrs.entries.filter (!·.2.isNull), attrs.nodup.sublist (List.filter_sublist.map Prod.fst)⟩

variable (attrs : Attrs)

@[simp] theorem get?_withoutNulls (key : String) :
    attrs.withoutNulls.get? key = attrs.present? key := by
  apply Option.ext
  intro value
  have kept : attrs.withoutNulls.get? key = some value ↔
      (key, value) ∈ attrs.entries.filter (!·.2.isNull) :=
    (@mem_entries_iff _ attrs.withoutNulls (key, value)).symm
  rw [kept, present?_eq_some_iff, List.mem_filter, mem_entries_iff, Bool.not_eq_true']

@[simp] theorem present?_withoutNulls (key : String) :
    attrs.withoutNulls.present? key = attrs.present? key := by
  rw [present?, get?_withoutNulls, present?, Option.filter_filter]
  simp only [Bool.and_self]

theorem withoutNulls_agrees : attrs.AgreesWith attrs.withoutNulls :=
  fun key => (attrs.present?_withoutNulls key).symm

theorem present?_rename_new (short long : String) :
    (attrs.rename short long).present? long =
      match attrs.get? short with
      | some value => (some value).filter (!·.isNull)
      | none => attrs.present? long := by
  rw [present?, get?_rename_new]
  cases attrs.get? short <;> rfl

theorem present?_eq_get? {attrs : Attrs} {key : String} (solid : attrs.get? key ≠ some .null) :
    attrs.present? key = attrs.get? key := by
  rw [present?]
  cases given : attrs.get? key with
  | none => rfl
  | some value =>
      cases value with
      | null => exact absurd given solid
      | _ => rfl

theorem present?_of_null {attrs : Attrs} {key : String} (hidden : attrs.get? key = some .null) :
    attrs.present? key = none := by
  rw [present?, hidden]
  rfl

end OrderedMap

namespace Kind

/-- Whether nulls leave the drawing of a shape alone. They do not as an origin, under the short
name of a length that is there by its long name, as the center of an interval without an
edge, and as path data. -/
structure NullsIdle (kind : Kind) (attrs : Attrs) : Prop where
  origin : attrs.get? "origin" ≠ some .null
  lengths : kind = .rect → ∀ name ∈ lengthNames,
    attrs.get? name.1 = some .null → attrs.present? name.2 = none
  centers : kind = .rect → ∀ name ∈ centerNames,
    attrs.get? name.1 = some .null → attrs.present? name.2 ≠ none
  data : kind = .roundedPolygon → attrs.get? "d" ≠ some .null

end Kind

theorem Kind.drawsAlike_withoutNulls {kind : Kind} {attrs : Attrs}
    (idle : kind.NullsIdle attrs) : kind.DrawsAlike attrs attrs.withoutNulls where
  agrees := attrs.withoutNulls_agrees
  origin := by rw [attrs.get?_withoutNulls, OrderedMap.present?_eq_get? idle.origin]
  lengths := by
    intro rect name listed
    rw [OrderedMap.present?_rename_new, OrderedMap.present?_rename_new, attrs.get?_withoutNulls,
      attrs.present?_withoutNulls]
    by_cases hidden : attrs.get? name.1 = some .null
    · rw [hidden, OrderedMap.present?_of_null hidden, idle.lengths rect name listed hidden]
      rfl
    · rw [OrderedMap.present?_eq_get? hidden]
  centers := by
    intro rect name listed absent
    have solid : attrs.get? name.1 ≠ some .null :=
      fun hidden => idle.centers rect name listed hidden absent
    rw [attrs.get?_withoutNulls, OrderedMap.present?_eq_get? solid]
  data := by
    intro rounded
    rw [attrs.get?_withoutNulls, OrderedMap.present?_eq_get? (idle.data rounded)]

namespace Shape

def withoutNulls (s : Shape) : Shape := s.mapAttrs OrderedMap.withoutNulls

@[simp] theorem kind_withoutNulls (s : Shape) : s.withoutNulls.kind = s.kind := kind_mapAttrs s

@[simp] theorem attrs_withoutNulls (s : Shape) :
    s.withoutNulls.attrs = s.attrs.withoutNulls := attrs_mapAttrs s

theorem preorder_withoutNulls (s : Shape) :
    s.withoutNulls.preorder = s.preorder.map withoutNulls := preorder_mapAttrs.1 s

/-! Nulls are no flaws, and no flaw is hidden by one. -/

variable {s t : Shape}

theorem infiniteAttribute?_of_withoutNulls (attrs : t.attrs = s.attrs.withoutNulls) :
    s.infiniteAttribute? = t.infiniteAttribute? := by
  rw [infiniteAttribute?, infiniteAttribute?, attrs, OrderedMap.withoutNulls, List.find?_filter]
  congr 2
  funext entry
  cases entry.2 with
  | null => rfl
  | _ => simp [Value.isNull]

theorem refusal?_of_withoutNulls (options : Options) (kind : s.kind = t.kind)
    (attrs : t.attrs = s.attrs.withoutNulls) : options.refusal? s = options.refusal? t := by
  have agrees : s.attrs.AgreesWith t.attrs := attrs ▸ s.attrs.withoutNulls_agrees
  rw [Options.refusal?, Options.refusal?, flaw?, flaw?, kind, missingAttribute?_congr kind agrees,
    infiniteAttribute?_of_withoutNulls attrs]

theorem drawnAlike_of_nullsIdle (options : Options) (kind : s.kind = t.kind)
    (idle : s.kind.NullsIdle s.attrs) (attrs : t.attrs = s.attrs.withoutNulls) :
    s.DrawnAlike options Eq List.Perm t := by
  apply drawnAlike_of_drawsAlike kind (attrs ▸ Kind.drawsAlike_withoutNulls idle)
  rw [refusal?_of_withoutNulls options kind attrs]
  cases options.refusal? t with
  | none => exact .none
  | some error => exact .some rfl

theorem countP_calls {options : Options} {sort : Call → Bool} {weight : Shape → Nat}
    (attached : ∀ parent child, sort (.append parent child) = false)
    (own : ∀ s node, (s.buildCalls options node).countP sort +
      (s.originCalls node).countP sort = weight s) :
    (∀ s : Shape, ∀ node,
      (s.calls options node).countP sort = (s.preorder.map weight).sum) ∧
    ∀ shapes : List Shape, ∀ parent next,
      (nestedCalls options shapes parent next).countP sort =
        ((preorderAll shapes).map weight).sum := by
  apply induction_both
  case shape =>
    intro s below node
    rw [calls_eq, preorder_eq, List.countP_append, List.countP_append, below, List.map_cons,
      List.sum_cons, ← own s node]
    omega
  case nil => simp
  case cons =>
    intro s rest first others parent next
    rw [nestedCalls_cons, List.countP_append, List.countP_append, first, others,
      preorderAll_cons, List.map_append, List.sum_append]
    simp [attached]

end Shape

namespace Call

def placesOrigin : Call → Bool
  | .setStyle _ property _ => property == "transform-origin"
  | _ => false

def sets (name : String) : Call → Bool
  | .setAttribute _ given _ => given == name
  | _ => false

end Call

namespace OrderedMap

theorem countP_entries {β : Type} (m : OrderedMap β) (key : String) (p : β → Bool) :
    (m.entries.countP fun entry => entry.1 == key && p entry.2) =
      ((m.get? key).any p).toNat := by
  obtain ⟨entries, nodup⟩ := m
  rw [get?]
  induction entries with
  | nil => rfl
  | cons entry rest ih =>
      obtain ⟨fresh, nodup⟩ := List.nodup_cons.mp nodup
      have later := ih nodup
      by_cases here : key = entry.1
      · subst here
        have absent : rest.lookup entry.1 = none :=
          get?_eq_none_iff (m := ⟨rest, nodup⟩) |>.mpr fresh
        rw [absent] at later
        rw [List.countP_cons, later, List.lookup_cons_self]
        cases held : p entry.2 <;> simp [held]
      · have elsewhere : (key == entry.1) = false := beq_eq_false_iff_ne.mpr here
        have other : (entry.1 == key) = false := beq_eq_false_iff_ne.mpr (Ne.symm here)
        rw [List.countP_cons, later, List.lookup_cons, elsewhere, other]
        simp

end OrderedMap

theorem countP_drawnAttributes {options : Options} {name : String} (plain : '-' ∉ name.toList)
    (own : drawnName name = name) (allowed : options.allows name = true) (attrs : Attrs) :
    (options.drawnAttributes attrs).countP (·.1 == name) =
      ((attrs.get? name).any (!·.isNull)).toNat := by
  rw [options.drawnAttributes_eq, List.countP_map, List.countP_filter,
    ← attrs.countP_entries name]
  apply List.countP_congr
  rintro ⟨key, value⟩ -
  simp only [Function.comp_apply, Bool.and_eq_true, beq_iff_eq, drawnName_eq_iff plain own]
  constructor
  · rintro ⟨rfl, present, -⟩
    exact ⟨rfl, present⟩
  · rintro ⟨rfl, present⟩
    exact ⟨rfl, present, own.symm ▸ allowed⟩

namespace Shape

theorem countP_buildCalls {sort : Call → Bool}
    (created : ∀ node kind, sort (.create node kind) = false)
    (written : ∀ node content, sort (.setText node content) = false) (options : Options)
    (s : Shape) (node : Nat) :
    (s.buildCalls options node).countP sort =
      (options.drawnAttributes (s.normalForm options.roundAlpha).attrs).countP
        fun entry => sort (.setAttribute node entry.1 entry.2) := by
  rw [buildCalls_eq]
  cases s.text? <;> simp [created, written, List.countP_map, Function.comp_def]

theorem countP_placesOrigin (options : Options) (s : Shape) (node : Nat) :
    (s.calls options node).countP Call.placesOrigin =
      (s.preorder.map fun part => (part.attr? "origin").isSome.toNat).sum := by
  apply (countP_calls (fun _ _ => rfl) _).1
  intro s node
  have unplaced : (s.buildCalls options node).countP Call.placesOrigin = 0 := by
    rw [countP_buildCalls (fun _ _ => rfl) (fun _ _ => rfl)]
    exact congrFun List.countP_false _
  rw [unplaced, originCalls]
  cases s.attr? "origin" <;> rfl

theorem hasAttr_normalForm {key : String} (other : key ≠ "transform") (kept : key ∉ transformKeys)
    (s : Shape) (roundAlpha : Bool) :
    (s.normalForm roundAlpha).hasAttr key = s.outlined.hasAttr key := by
  rw [hasAttr, hasAttr, attr?_normalForm other, if_neg kept, Option.any_map]
  congr 1
  funext value
  rw [value.isNull_painted]

end Shape

structure IsPlainName (name : String) : Prop where
  unhyphenated : '-' ∉ name.toList
  own : drawnName name = name
  standard : standardAttributes.contains name = true
  other : name ≠ "transform"
  kept : name ∉ transformKeys

namespace Shape

theorem countP_sets {name : String} (plain : IsPlainName name) (options : Options) (s : Shape)
    (node : Nat) :
    (s.calls options node).countP (Call.sets name) =
      (s.preorder.map fun part => (part.outlined.hasAttr name).toNat).sum := by
  apply (countP_calls (fun _ _ => rfl) _).1
  intro s node
  have allowed : options.allows name = true :=
    Options.allows_iff.mpr (.inl (List.contains_iff_mem.mp plain.standard))
  have none : (s.originCalls node).countP (Call.sets name) = 0 := by
    unfold originCalls
    cases s.attr? "origin" <;> rfl
  rw [countP_buildCalls (fun _ _ => rfl) (fun _ _ => rfl), none,
    ← hasAttr_normalForm plain.other plain.kept s options.roundAlpha]
  exact countP_drawnAttributes plain.unhyphenated plain.own allowed _

end Shape

theorem Kind.boxName_untouched {kind : Kind} (other : kind ≠ .rect) {name : String × String}
    (listed : name ∈ lengthNames ∨ name ∈ centerNames) : name.2 ∉ kind.outlineKeys := by
  simp only [lengthNames, centerNames, List.mem_cons, List.not_mem_nil, or_false] at listed
  revert other
  rcases listed with (rfl | rfl) | (rfl | rfl) <;> cases kind <;> decide

namespace OrderedMap

variable (attrs : Attrs)

theorem isSome_present?_placeEdge (edge length : String) (center : Option Value) :
    ((attrs.placeEdge edge length center).present? edge).isSome =
      ((attrs.present? edge).isSome || center.isSome) := by
  cases there : attrs.present? edge with
  | some value => rw [placeEdge_of_present there, there]; rfl
  | none =>
      rw [placeEdge_of_absent there]
      cases center with
      | none => rw [there]; rfl
      | some center => rw [present?_insert, if_pos rfl]; rfl

theorem present?_cornered_length {name : String × String} (listed : name ∈ Kind.lengthNames) :
    attrs.cornered.present? name.2 = (attrs.rename name.1 name.2).present? name.2 := by
  simp only [Kind.lengthNames, List.mem_cons, List.not_mem_nil, or_false] at listed
  rcases listed with rfl | rfl <;>
    simp [cornered, present?, get?_placeEdge_of_ne, get?_rename_of_ne, get?_rename_new]

theorem isSome_present?_cornered_edge {name : String × String}
    (listed : name ∈ Kind.centerNames) :
    (attrs.cornered.present? name.2).isSome =
      ((attrs.present? name.2).isSome || (attrs.get? name.1).isSome) := by
  simp only [Kind.centerNames, List.mem_cons, List.not_mem_nil, or_false] at listed
  rcases listed with rfl | rfl
  · rw [cornered, present?, get?_placeEdge_of_ne _ _ _ (by decide)]
    refine (isSome_present?_placeEdge ..).trans ?_
    simp [present?, get?_rename_of_ne]
  · rw [cornered, isSome_present?_placeEdge, present?, get?_placeEdge_of_ne _ _ _ (by decide)]
    simp [present?, get?_rename_of_ne]

end OrderedMap

namespace Shape

theorem attr?_withoutNulls (s : Shape) (key : String) :
    s.withoutNulls.attr? key = s.attrs.present? key := by
  rw [attr?, attrs_withoutNulls, OrderedMap.get?_withoutNulls]

theorem hasAttr_withoutNulls (s : Shape) (key : String) :
    s.withoutNulls.hasAttr key = s.hasAttr key := by
  rw [hasAttr_eq, hasAttr_eq, attrs_withoutNulls, OrderedMap.present?_withoutNulls]

theorem hasAttr_outlined_of_untouched {s : Shape} {key : String}
    (untouched : key ∉ s.kind.outlineKeys) :
    s.withoutNulls.outlined.hasAttr key = s.outlined.hasAttr key := by
  have other : key ∉ s.withoutNulls.kind.outlineKeys := by rwa [kind_withoutNulls]
  rw [hasAttr, attr?_outlined other, hasAttr, attr?_outlined untouched]
  exact s.hasAttr_withoutNulls key

theorem hasAttr_outlined_length {s : Shape} (rect : s.kind = .rect) {name : String × String}
    (listed : name ∈ Kind.lengthNames) :
    s.outlined.hasAttr name.2 = (s.attr? name.1).elim (s.hasAttr name.2) (!·.isNull) := by
  have outline : s.outlined.attrs = s.attrs.cornered := by rw [outlined, rect]; rfl
  rw [hasAttr_eq, outline, OrderedMap.present?_cornered_length _ listed,
    OrderedMap.present?_rename_new, attr?, hasAttr_eq]
  cases s.attrs.get? name.1 with
  | none => rfl
  | some value => cases value <;> rfl

theorem hasAttr_outlined_edge {s : Shape} (rect : s.kind = .rect) {name : String × String}
    (listed : name ∈ Kind.centerNames) :
    s.outlined.hasAttr name.2 = (s.hasAttr name.2 || (s.attr? name.1).isSome) := by
  have outline : s.outlined.attrs = s.attrs.cornered := by rw [outlined, rect]; rfl
  rw [hasAttr_eq, outline, OrderedMap.isSome_present?_cornered_edge _ listed, hasAttr_eq, attr?]

theorem hasAttr_outlined_data {s : Shape} (rounded : s.kind = .roundedPolygon) :
    s.outlined.hasAttr "d" = (s.attr? "d").all (!·.isNull) := by
  have outline : s.outlined.attrs = s.attrs.withPathData := by rw [outlined, rounded]; rfl
  rw [hasAttr, attr?, outline, OrderedMap.get?_withPathData_self, attr?]
  cases s.attrs.get? "d" with
  | none => rfl
  | some value => rfl

/-! A null hides a length or path data, and puts an edge or an origin. Where it changes
nothing of that it is idle. -/

theorem length_of_nulls (s : Shape) {name : String × String} (listed : name ∈ Kind.lengthNames) :
    s.outlined.hasAttr name.2 ≤ s.withoutNulls.outlined.hasAttr name.2 ∧
      (s.outlined.hasAttr name.2 = s.withoutNulls.outlined.hasAttr name.2 →
        s.kind = .rect → s.attr? name.1 = some .null → s.attrs.present? name.2 = none) := by
  by_cases rect : s.kind = .rect
  · rw [hasAttr_outlined_length rect listed,
      hasAttr_outlined_length (s.kind_withoutNulls.trans rect) listed, attr?_withoutNulls,
      hasAttr_withoutNulls, attr?, hasAttr_eq]
    by_cases hidden : s.attrs.get? name.1 = some .null
    · rw [hidden, OrderedMap.present?_of_null hidden]
      refine ⟨Bool.false_le _, fun same _ _ => ?_⟩
      exact Option.isNone_iff_eq_none.mp (Option.isSome_eq_false_iff.mp same.symm)
    · rw [OrderedMap.present?_eq_get? hidden]
      exact ⟨le_rfl, fun _ _ given => absurd given hidden⟩
  · rw [hasAttr_outlined_of_untouched (Kind.boxName_untouched rect (.inl listed))]
    exact ⟨le_rfl, fun _ is => absurd is rect⟩

theorem edge_of_nulls (s : Shape) {name : String × String} (listed : name ∈ Kind.centerNames) :
    s.withoutNulls.outlined.hasAttr name.2 ≤ s.outlined.hasAttr name.2 ∧
      (s.withoutNulls.outlined.hasAttr name.2 = s.outlined.hasAttr name.2 →
        s.kind = .rect → s.attr? name.1 = some .null → s.attrs.present? name.2 ≠ none) := by
  by_cases rect : s.kind = .rect
  · rw [hasAttr_outlined_edge rect listed,
      hasAttr_outlined_edge (s.kind_withoutNulls.trans rect) listed, attr?_withoutNulls,
      hasAttr_withoutNulls, attr?, hasAttr_eq]
    by_cases hidden : s.attrs.get? name.1 = some .null
    · rw [hidden, OrderedMap.present?_of_null hidden]
      refine ⟨by simp, fun same _ _ absent => ?_⟩
      rw [absent] at same
      cases same
    · rw [OrderedMap.present?_eq_get? hidden]
      exact ⟨le_rfl, fun _ _ given => absurd given hidden⟩
  · rw [hasAttr_outlined_of_untouched (Kind.boxName_untouched rect (.inr listed))]
    exact ⟨le_rfl, fun _ is => absurd is rect⟩

theorem data_of_nulls (s : Shape) :
    s.outlined.hasAttr "d" ≤ s.withoutNulls.outlined.hasAttr "d" ∧
      (s.outlined.hasAttr "d" = s.withoutNulls.outlined.hasAttr "d" →
        s.kind = .roundedPolygon → s.attr? "d" ≠ some .null) := by
  by_cases rounded : s.kind = .roundedPolygon
  · rw [hasAttr_outlined_data rounded,
      hasAttr_outlined_data (s.kind_withoutNulls.trans rounded), attr?_withoutNulls, attr?]
    by_cases hidden : s.attrs.get? "d" = some .null
    · rw [hidden, OrderedMap.present?_of_null hidden]
      exact ⟨Bool.false_le _, fun same => Bool.noConfusion same⟩
    · rw [OrderedMap.present?_eq_get? hidden]
      exact ⟨le_rfl, fun _ _ => hidden⟩
  · have untouched : "d" ∉ s.kind.outlineKeys := by
      revert rounded
      cases s.kind <;> decide
    rw [hasAttr_outlined_of_untouched untouched]
    exact ⟨le_rfl, fun _ is => absurd is rounded⟩

theorem origin_of_nulls (s : Shape) :
    (s.withoutNulls.attr? "origin").isSome ≤ (s.attr? "origin").isSome ∧
      ((s.withoutNulls.attr? "origin").isSome = (s.attr? "origin").isSome →
        s.attr? "origin" ≠ some .null) := by
  rw [attr?_withoutNulls, attr?]
  by_cases hidden : s.attrs.get? "origin" = some .null
  · rw [hidden, OrderedMap.present?_of_null hidden]
    exact ⟨Bool.false_le _, fun same => Bool.noConfusion same⟩
  · rw [OrderedMap.present?_eq_get? hidden]
    exact ⟨le_rfl, fun _ => hidden⟩

theorem eq_of_sum_eq {parts : List Shape} {f g : Shape → Bool} (le : ∀ part, f part ≤ g part)
    (sum : (parts.map fun part => (f part).toNat).sum =
      (parts.map fun part => (g part).toNat).sum) :
    ∀ part ∈ parts, f part = g part := by
  intro part member
  by_contra differ
  have less : (f part).toNat < (g part).toNat := by
    cases first : f part <;> cases second : g part <;>
      simp_all [Bool.le_iff_imp]
  have each : ∀ part ∈ parts, (f part).toNat ≤ (g part).toNat :=
    fun part _ => Bool.toNat_le_toNat (le part)
  exact absurd sum (List.sum_lt_sum _ _ each ⟨part, member, less⟩).ne

theorem isPlainName_length : ∀ name ∈ Kind.lengthNames, IsPlainName name.2 := by
  simp only [Kind.lengthNames, List.forall_mem_cons]
  refine ⟨⟨?_, ?_, ?_, ?_, ?_⟩, ⟨?_, ?_, ?_, ?_, ?_⟩, List.forall_mem_nil _⟩ <;> decide

theorem isPlainName_edge : ∀ name ∈ Kind.centerNames, IsPlainName name.2 := by
  simp only [Kind.centerNames, List.forall_mem_cons]
  refine ⟨⟨?_, ?_, ?_, ?_, ?_⟩, ⟨?_, ?_, ?_, ?_, ?_⟩, List.forall_mem_nil _⟩ <;> decide

theorem nullsIdle_of_perm {options : Options} {s : Shape} {node : Nat}
    (perm : (s.calls options node).Perm (s.withoutNulls.calls options node)) :
    ∀ part ∈ s.preorder, part.kind.NullsIdle part.attrs := by
  have counts {name : String} (plain : IsPlainName name) :
      (s.preorder.map fun part => (part.outlined.hasAttr name).toNat).sum =
        (s.preorder.map fun part => (part.withoutNulls.outlined.hasAttr name).toNat).sum := by
    have same := perm.countP_eq (Call.sets name)
    rwa [countP_sets plain, countP_sets plain, preorder_withoutNulls, List.map_map] at same
  have origins := perm.countP_eq Call.placesOrigin
  rw [countP_placesOrigin, countP_placesOrigin, preorder_withoutNulls, List.map_map] at origins
  intro part member
  constructor
  case origin =>
    apply part.origin_of_nulls.2
    exact eq_of_sum_eq (fun part => part.origin_of_nulls.1) origins.symm part member
  case lengths =>
    intro rect name listed
    apply (part.length_of_nulls listed).2 _ rect
    exact eq_of_sum_eq (fun part => (part.length_of_nulls listed).1)
      (counts (isPlainName_length name listed)) part member
  case centers =>
    intro rect name listed
    apply (part.edge_of_nulls listed).2 _ rect
    exact eq_of_sum_eq (fun part => (part.edge_of_nulls listed).1)
      (counts (isPlainName_edge name listed)).symm part member
  case data =>
    apply part.data_of_nulls.2
    exact eq_of_sum_eq (fun part => part.data_of_nulls.1)
      (counts (by constructor <;> decide)) part member

end Shape

/-- Leaving out the nulls of a tree does not change whether it is drawn, nor the error or the
root. The calls are the same up to the order of attributes if the nulls are idle, and for a
tree that is drawn only then. -/
theorem compile_withoutNulls (options : Options) (s : Shape) (t : Transcript) :
    (Backend.compile options s.withoutNulls t).1 = (Backend.compile options s t).1 ∧
    ((∀ part ∈ s.preorder, part.kind.NullsIdle part.attrs) →
      t.Abreast (Backend.compile options s t).2 (Backend.compile options s.withoutNulls t).2) ∧
    ((∃ root, (Backend.compile options s t).1 = .ok root) →
      t.Abreast (Backend.compile options s t).2 (Backend.compile options s.withoutNulls t).2 →
      ∀ part ∈ s.preorder, part.kind.NullsIdle part.attrs) := by
  have refused (part : Shape) : options.refusal? part.withoutNulls = options.refusal? part :=
    (Shape.refusal?_of_withoutNulls options part.kind_withoutNulls.symm
      part.attrs_withoutNulls).symm
  refine ⟨?_, ?_, ?_⟩
  · rw [(Backend.compile_fst options).1, (Backend.compile_fst options).1,
      s.preorder_withoutNulls, List.findSome?_map, Backend.place_eq_extend,
      Backend.place_eq_extend]
    simp only [Function.comp_def, refused]
  · intro idle
    have matching : s.Matches (fun kind a b => kind.NullsIdle a ∧ b = a.withoutNulls)
        s.withoutNulls :=
      Shape.matches_mapAttrs.1 s fun part member => ⟨idle part member, rfl⟩
    have drawn (u v : Shape) (kind : u.kind = v.kind)
        (related : u.kind.NullsIdle u.attrs ∧ v.attrs = u.attrs.withoutNulls) :
        u.DrawnAlike options Eq List.Perm v :=
      Shape.drawnAlike_of_nullsIdle options kind related.1 related.2
    exact ((Transcript.simulation_abreast t).compile drawn matching (.refl t)).2
  · rintro succeeds ⟨calls, others, nodes, rearranged, first, second⟩
    rw [Backend.compile_isOk_iff] at succeeds
    have cleared : ∀ part ∈ s.withoutNulls.preorder, options.refusal? part = none := by
      rw [s.preorder_withoutNulls, List.forall_mem_map]
      exact fun part member => (refused part).trans (succeeds part member)
    rw [Backend.compile_of_accepted options options.strict s succeeds] at first
    rw [Backend.compile_of_accepted options options.strict s.withoutNulls cleared] at second
    rw [← Transcript.extend_inj first, ← Transcript.extend_inj second] at rearranged
    exact Shape.nullsIdle_of_perm rearranged.perm

theorem compile_withoutNulls_idle :
    let rect : Attrs := .ofList [("w", .null), ("fill", .null), ("height", .text "2")]
    let s := Shape.group [.new .rect rect] (.ofList [("rotate", .null)])
    (∀ part ∈ s.preorder, part.kind.NullsIdle part.attrs) ∧
      ({} : Transcript).Abreast (Backend.compile {} s {}).2
        (Backend.compile {} s.withoutNulls {}).2 := by
  intro rect s
  have idle : ∀ part ∈ s.preorder, part.kind.NullsIdle part.attrs := by
    rintro part (_ | ⟨_, _ | ⟨_, ⟨⟩⟩⟩)
    · constructor <;> intro given <;> cases given
    · constructor
      case origin | data => intro given; cases given
      case lengths =>
        rintro - name listed given
        simp only [Kind.lengthNames, List.mem_cons, List.not_mem_nil, or_false] at listed
        rcases listed with rfl | rfl
        · rfl
        · cases given
      case centers =>
        rintro - name listed given
        simp only [Kind.centerNames, List.mem_cons, List.not_mem_nil, or_false] at listed
        rcases listed with rfl | rfl <;> cases given
  exact ⟨idle, (compile_withoutNulls {} s {}).2.1 idle⟩

/-- A rectangle with a null for a center gets an edge that is not a number, and none if the
null is left out. -/
theorem compile_center_null :
    let s := Shape.new .rect
      (.ofList [("cx", .null), ("width", .text "4"), ("height", .text "2")])
    (Backend.compile {} s ({} : Transcript)).2.calls =
        #[.create 0 .rect, .setAttribute 0 "width" "4", .setAttribute 0 "height" "2",
          .setAttribute 0 "x" "NaN"] ∧
      (Backend.compile {} s.withoutNulls ({} : Transcript)).2.calls =
        #[.create 0 .rect, .setAttribute 0 "width" "4", .setAttribute 0 "height" "2"] ∧
      ¬ ({} : Transcript).Abreast (Backend.compile {} s {}).2
        (Backend.compile {} s.withoutNulls {}).2 := by
  intro s
  have nan : s.calls {} 0 = [.create 0 .rect, .setAttribute 0 "width" "4",
      .setAttribute 0 "height" "2", .setAttribute 0 "x" "NaN"] := by decide +kernel
  have bare : s.withoutNulls.calls {} 0 = [.create 0 .rect, .setAttribute 0 "width" "4",
      .setAttribute 0 "height" "2"] := by decide +kernel
  refine ⟨by rw [Backend.calls_compile_empty rfl, nan],
    by rw [Backend.calls_compile_empty rfl, bare], ?_⟩
  rintro ⟨calls, others, nodes, rearranged, first, second⟩
  have four : 4 = calls.length := by
    simpa [Backend.calls_compile_empty, nan, Transcript.extend] using
      congrArg (fun t => t.calls.size) first
  have three : 3 = others.length := by
    simpa [Backend.calls_compile_empty, bare, Transcript.extend] using
      congrArg (fun t => t.calls.size) second
  have same := rearranged.length_eq
  omega

end Tracery
