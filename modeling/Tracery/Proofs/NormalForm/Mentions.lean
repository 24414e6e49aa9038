import Tracery.Proofs.Decimal.Rounding
import Tracery.Proofs.NumberText
import Tracery.Proofs.Scene.Values
import Tracery.NormalForm

/-! Texts that mention a number that is not finite. Numbers are put into texts with marks
between them that no name of a number has in it, so that a text mentions what its parts do. -/

namespace Tracery

namespace Text

def infiniteNames : List (List Char) := ["NaN".toList, "Infinity".toList]

def MentionsInfinite (text : String) : Prop := ∃ name ∈ infiniteNames, name <:+: text.toList

instance (text : String) : Decidable (MentionsInfinite text) :=
  inferInstanceAs (Decidable (∃ name ∈ infiniteNames, name <:+: text.toList))

/-- Whether a character is in none of the names. -/
def isMark (c : Char) : Bool := infiniteNames.all (!·.contains c)

variable {first second : String} {c : Char}

private theorem infix_append_iff_of_apart {name before after : List Char}
    (apart : ∀ head tail, head ≠ [] → tail ≠ [] → name = head ++ tail → head <:+ before →
      tail <+: after → False) :
    name <:+: before ++ after ↔ name <:+: before ∨ name <:+: after := by
  rw [List.infix_append_iff_ne_nil]
  constructor
  · rintro (left | right | ⟨head, tail, some, more, split, ends, begins⟩)
    · exact .inl left
    · exact .inr right
    · exact (apart head tail some more split ends begins).elim
  · rintro (left | right)
    · exact .inl left
    · exact .inr (.inl right)

theorem not_mem_of_isMark (mark : isMark c = true) {name : List Char}
    (named : name ∈ infiniteNames) : c ∉ name := by
  simpa using List.all_eq_true.mp mark name named

theorem mentionsInfinite_append_iff
    (split : ∀ name ∈ infiniteNames, name <:+: first.toList ++ second.toList ↔
      name <:+: first.toList ∨ name <:+: second.toList) :
    MentionsInfinite (first ++ second) ↔ MentionsInfinite first ∨ MentionsInfinite second := by
  simp only [MentionsInfinite, String.toList_append]
  constructor
  · rintro ⟨name, named, inside⟩
    rcases (split name named).mp inside with left | right
    · exact .inl ⟨name, named, left⟩
    · exact .inr ⟨name, named, right⟩
  · rintro (⟨name, named, inside⟩ | ⟨name, named, inside⟩)
    · exact ⟨name, named, (split name named).mpr (.inl inside)⟩
    · exact ⟨name, named, (split name named).mpr (.inr inside)⟩

theorem mentionsInfinite_append_of_last (last : first.toList.getLast? = some c)
    (mark : isMark c = true) :
    MentionsInfinite (first ++ second) ↔ MentionsInfinite first ∨ MentionsInfinite second := by
  refine mentionsInfinite_append_iff fun name named => infix_append_iff_of_apart ?_
  rintro head tail some _ split ⟨before, whole⟩ _
  have final : c ∈ head := by
    rw [← whole, List.getLast?_append_of_ne_nil _ some] at last
    exact List.mem_of_getLast? last
  exact not_mem_of_isMark mark named (split ▸ List.mem_append_left tail final)

theorem mentionsInfinite_append_of_head (start : second.toList.head? = some c)
    (mark : isMark c = true) :
    MentionsInfinite (first ++ second) ↔ MentionsInfinite first ∨ MentionsInfinite second := by
  refine mentionsInfinite_append_iff fun name named => infix_append_iff_of_apart ?_
  rintro head tail _ some split _ ⟨after, whole⟩
  have initial : c ∈ tail := by
    rw [← whole, List.head?_append_of_ne_nil _ some] at start
    exact List.mem_of_head? start
  exact not_mem_of_isMark mark named (split ▸ List.mem_append_right head initial)

def IsMark (text : String) : Prop := ∃ c, text.toList = [c] ∧ isMark c = true

theorem isMark_comma : IsMark "," := ⟨',', by decide⟩

theorem isMark_blank : IsMark " " := ⟨' ', by decide⟩

theorem isMark_close : IsMark ")" := ⟨')', by decide⟩

variable {mark : String}

theorem IsMark.not_mentionsInfinite (single : IsMark mark) : ¬ MentionsInfinite mark := by
  obtain ⟨c, letters, apart⟩ := single
  rintro ⟨name, named, inside⟩
  rw [letters] at inside
  have some : name ≠ [] := by
    rintro rfl
    exact absurd named (by decide)
  obtain ⟨d, rest, rfl⟩ := List.exists_cons_of_ne_nil some
  obtain rfl := List.mem_singleton.mp (inside.subset List.mem_cons_self)
  exact not_mem_of_isMark apart named List.mem_cons_self

theorem mentionsInfinite_append_mark (single : IsMark mark) :
    MentionsInfinite (first ++ mark) ↔ MentionsInfinite first := by
  have bare := single.not_mentionsInfinite
  obtain ⟨c, letters, apart⟩ := single
  have start : mark.toList.head? = some c := by simp [letters]
  rw [mentionsInfinite_append_of_head start apart, or_iff_left bare]

theorem mentionsInfinite_join (single : IsMark mark) :
    MentionsInfinite (first ++ mark ++ second) ↔
      MentionsInfinite first ∨ MentionsInfinite second := by
  have ended : MentionsInfinite (first ++ mark) ↔ MentionsInfinite first :=
    mentionsInfinite_append_mark single
  obtain ⟨c, letters, apart⟩ := single
  have last : (first ++ mark).toList.getLast? = some c := by simp [letters]
  rw [mentionsInfinite_append_of_last last apart, ended]

theorem mentionsInfinite_intercalate (single : IsMark mark) (parts : List String) :
    MentionsInfinite (mark.intercalate parts) ↔ ∃ part ∈ parts, MentionsInfinite part := by
  induction parts with
  | nil =>
      rw [String.intercalate_nil]
      simp [MentionsInfinite, infiniteNames]
  | cons part rest ih =>
      cases rest with
      | nil => simp
      | cons next rest =>
          rw [String.intercalate_cons_cons, mentionsInfinite_join single,
            List.exists_mem_cons_iff]
          exact or_congr Iff.rfl ih

/-- Both names have a capital letter that nothing else in a number has. -/
theorem not_mentionsInfinite_of_forall {text : String}
    (lower : ∀ c ∈ text.toList, c ≠ 'N' ∧ c ≠ 'I') : ¬ MentionsInfinite text := by
  rintro ⟨name, named, inside⟩
  simp only [infiniteNames, List.mem_cons, List.not_mem_nil, or_false] at named
  rcases named with rfl | rfl
  · exact (lower 'N' (inside.subset (by decide))).1 rfl
  · exact (lower 'I' (inside.subset (by decide))).2 rfl

end Text

open Text (MentionsInfinite)

theorem mentionsInfinite_numberText (x : Float) :
    MentionsInfinite (numberText x) ↔ Binary.isFinite x = false := by
  cases finite : Binary.isFinite x with
  | false =>
      refine iff_of_true ?_ rfl
      apply Binary.infinite_cases _ _ finite
      · decide +kernel
      · decide +kernel
  | true =>
      refine iff_of_false (Text.not_mentionsInfinite_of_forall ?_) (by decide)
      intro c member
      rcases mem_numberText finite member with digit | mark
      · constructor <;> rintro rfl <;> revert digit <;> decide
      · constructor <;> rintro rfl <;> revert mark <;> decide

def AnyInfinite (numbers : List Float) : Prop := ∃ x ∈ numbers, Binary.isFinite x = false

theorem anyInfinite_append {numbers others : List Float} :
    AnyInfinite (numbers ++ others) ↔ AnyInfinite numbers ∨ AnyInfinite others := by
  simp [AnyInfinite, or_and_right, exists_or]

theorem anyInfinite_flatMap {α : Type} {items : List α} {numbers : α → List Float} :
    AnyInfinite (items.flatMap numbers) ↔ ∃ item ∈ items, AnyInfinite (numbers item) := by
  simp only [AnyInfinite, List.mem_flatMap]
  constructor
  · rintro ⟨x, ⟨item, member, inside⟩, infinite⟩
    exact ⟨item, member, x, inside, infinite⟩
  · rintro ⟨item, member, x, inside, infinite⟩
    exact ⟨x, ⟨item, member, inside⟩, infinite⟩

@[simp] theorem not_anyInfinite_nil : ¬ AnyInfinite [] := by simp [AnyInfinite]

theorem anyInfinite_singleton (x : Float) : AnyInfinite [x] ↔ Binary.isFinite x = false := by
  simp [AnyInfinite]

def Vec.numbers (v : Vec) : List Float := [v.x, v.y]

theorem Vec.mentionsInfinite_text (v : Vec) :
    MentionsInfinite v.text ↔ AnyInfinite v.numbers := by
  rw [Vec.text, Text.mentionsInfinite_join Text.isMark_comma, mentionsInfinite_numberText,
    mentionsInfinite_numberText]
  simp [AnyInfinite, numbers]

theorem Color.mentionsInfinite_paint (c : Color) (roundAlpha : Bool) :
    MentionsInfinite (c.paint roundAlpha) ↔ AnyInfinite [c.r, c.g, c.b, c.a] := by
  have channel (x : Float) :
      MentionsInfinite (numberText (Binary.roundHalfUp x)) ↔ Binary.isFinite x = false := by
    rw [mentionsInfinite_numberText, Binary.isFinite_roundHalfUp]
  have alpha : MentionsInfinite
      (if roundAlpha then numberText (Binary.roundHalfUp c.a) else numberText c.a) ↔
        Binary.isFinite c.a = false := by
    cases roundAlpha
    · exact mentionsInfinite_numberText c.a
    · exact channel c.a
  have space : ¬ MentionsInfinite "rgba(" := by decide
  have opened (text : String) : MentionsInfinite ("rgba(" ++ text) ↔ MentionsInfinite text := by
    have last : "rgba(".toList.getLast? = some '(' := by decide
    rw [Text.mentionsInfinite_append_of_last last (by decide), or_iff_right space]
  simp only [Color.paint, Text.mentionsInfinite_append_mark Text.isMark_close,
    Text.mentionsInfinite_join Text.isMark_comma, opened, channel, alpha]
  simp [AnyInfinite, or_assoc]

namespace PathCommand

def numbers : PathCommand → List Float
  | .moveTo point | .lineTo point => point.numbers
  | .quadTo control finish => control.numbers ++ finish.numbers
  | .close => []

theorem mentionsInfinite_text (command : PathCommand) :
    MentionsInfinite command.text ↔ AnyInfinite command.numbers := by
  have lettered {letter : String} (text : String) (bare : ¬ MentionsInfinite letter)
      (last : letter.toList.getLast? = some ' ') :
      MentionsInfinite (letter ++ text) ↔ MentionsInfinite text := by
    rw [Text.mentionsInfinite_append_of_last last (by decide), or_iff_right bare]
  cases command with
  | moveTo point =>
      exact (lettered point.text (by decide) (by decide)).trans point.mentionsInfinite_text
  | lineTo point =>
      exact (lettered point.text (by decide) (by decide)).trans point.mentionsInfinite_text
  | quadTo control finish =>
      rw [PathCommand.text, Text.mentionsInfinite_join Text.isMark_blank,
        lettered control.text (by decide) (by decide), control.mentionsInfinite_text,
        finish.mentionsInfinite_text, numbers, anyInfinite_append]
  | close => exact iff_of_false (by decide) not_anyInfinite_nil

end PathCommand

theorem mentionsInfinite_pathData (commands : List PathCommand) :
    MentionsInfinite (pathData commands) ↔
      AnyInfinite (commands.flatMap PathCommand.numbers) := by
  rw [pathData, Text.mentionsInfinite_intercalate Text.isMark_blank, anyInfinite_flatMap]
  simp only [List.mem_map, exists_exists_and_eq_and, PathCommand.mentionsInfinite_text]

namespace Value

mutual
def texts : Value → List String
  | .text content => [content]
  | .list items => textsAll items
  | _ => []
termination_by structural value => value

def textsAll : List Value → List String
  | [] => []
  | item :: rest => item.texts ++ textsAll rest
termination_by structural items => items
end

theorem mem_textsAll {items : List Value} {content : String} :
    content ∈ textsAll items ↔ ∃ item ∈ items, content ∈ item.texts := by
  induction items with
  | nil => simp [textsAll]
  | cons item rest ih => simp [textsAll, ih]

theorem anyInfinite_numbersAll {items : List Value} :
    AnyInfinite (numbersAll items) ↔ ∃ item ∈ items, AnyInfinite item.numbers := by
  have flat : numbersAll items = items.flatMap numbers := by
    induction items with
    | nil => rfl
    | cons item rest ih => rw [numbersAll, ih, List.flatMap_cons]
  rw [flat, anyInfinite_flatMap]

/-- Whether the texts in a value leave numbers that are not finite unmentioned. -/
def IsPlain (value : Value) : Prop := ∀ content ∈ value.texts, ¬ MentionsInfinite content

theorem IsPlain.of_list {items : List Value} (plain : (list items).IsPlain) :
    ∀ item ∈ items, item.IsPlain :=
  fun item member content inside => plain content (mem_textsAll.mpr ⟨item, member, inside⟩)

theorem mentionsInfinite_displays {mark : String} (single : Text.IsMark mark) {items : List Value}
    (each : ∀ item ∈ items, MentionsInfinite item.display ↔ AnyInfinite item.numbers) :
    MentionsInfinite (mark.intercalate (items.map display)) ↔ AnyInfinite (numbersAll items) := by
  rw [Text.mentionsInfinite_intercalate single, anyInfinite_numbersAll]
  simp only [List.mem_map, exists_exists_and_eq_and]
  exact exists_congr fun item => and_congr_right (each item)

theorem mentionsInfinite_of_anyInfinite {value : Value} (infinite : AnyInfinite value.numbers) :
    MentionsInfinite value.display := by
  induction value using induction_items with
  | null | text => exact absurd infinite not_anyInfinite_nil
  | number x => exact (mentionsInfinite_numberText x).mpr ((anyInfinite_singleton x).mp infinite)
  | vector v => exact v.mentionsInfinite_text.mpr infinite
  | color c => exact (c.mentionsInfinite_paint true).mpr infinite
  | list items ih =>
      obtain ⟨item, member, inside⟩ := anyInfinite_numbersAll.mp infinite
      rw [display, displayAll_eq_map, Text.mentionsInfinite_intercalate Text.isMark_comma]
      exact ⟨item.display, List.mem_map_of_mem member, ih item member inside⟩

theorem mentionsInfinite_display {value : Value} (plain : value.IsPlain) :
    MentionsInfinite value.display ↔ AnyInfinite value.numbers := by
  refine ⟨fun mentions => ?_, mentionsInfinite_of_anyInfinite⟩
  induction value using induction_items with
  | null => exact absurd mentions (by decide)
  | number x => exact (anyInfinite_singleton x).mpr ((mentionsInfinite_numberText x).mp mentions)
  | text content => exact absurd mentions (plain content (List.mem_singleton.mpr rfl))
  | vector v => exact v.mentionsInfinite_text.mp mentions
  | color c => exact (c.mentionsInfinite_paint true).mp mentions
  | list items ih =>
      rw [display, displayAll_eq_map, Text.mentionsInfinite_intercalate Text.isMark_comma]
        at mentions
      obtain ⟨_, joined, mentions⟩ := mentions
      obtain ⟨item, member, rfl⟩ := List.mem_map.mp joined
      exact anyInfinite_numbersAll.mpr
        ⟨item, member, ih item member (plain.of_list item member) mentions⟩

theorem mentionsInfinite_painted (value : Value) (roundAlpha : Bool) :
    MentionsInfinite (value.painted roundAlpha).display ↔ MentionsInfinite value.display := by
  cases value with
  | color c =>
      exact (c.mentionsInfinite_paint roundAlpha).trans (c.mentionsInfinite_paint true).symm
  | _ => rfl

end Value
end Tracery
