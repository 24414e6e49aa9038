import Mathlib.Data.List.Forall2
import Mathlib.Data.List.TakeWhile
import Mathlib.Data.Option.Basic
import Tracery.Sequence.Steps
import Tracery.Proofs.Decimal.Scanning
import Tracery.Proofs.Text

/-! The grammar of color texts. A text names a color exactly if, blanks around it aside, it is
spelled as the grammar says, and then the color is the one of its spelling. -/

namespace Tracery

namespace Text

def hexDigits : List Char := "0123456789abcdef".toList

theorem hexValue?_eq (c : Char) : hexValue? c = hexDigits.idxOf? c.toLower := by
  have below : hexDigits.all (·.toNat < 128) = true := by decide
  by_cases small : c.toNat < 128
  · exact forall_ascii (p := fun c => hexValue? c = hexDigits.idxOf? c.toLower) (by decide +kernel)
      small
  · -- Neither the ranges of the digits nor those of the letters go so far.
    have beyond (last : Char) (ascii : last.toNat < 128) : ¬c ≤ last := by
      intro le
      have codes : c.toNat ≤ last.toNat := Char.le_def.mp le
      omega
    have same : c.toLower = c := dif_neg fun upper => beyond 'Z' (by decide) upper.2
    have outside : c.toLower ∉ hexDigits := fun member =>
      small (same ▸ of_decide_eq_true (List.all_eq_true.mp below _ member))
    have noDigit : c.isDigit = false := by
      rw [← Bool.not_eq_true]
      intro digit
      have code : c.toNat ≤ 57 := (Char.isDigit_iff_toNat.mp digit).2
      omega
    rw [List.idxOf?_eq_none_iff.mpr outside, hexValue?, noDigit, if_neg Bool.false_ne_true,
      if_neg fun lower => beyond 'f' (by decide) lower.2,
      if_neg fun upper => beyond 'F' (by decide) upper.2]

theorem mapM_eq_some_iff {α β : Type} {f : α → Option β} {items : List α} {values : List β} :
    items.mapM f = some values ↔
      List.Forall₂ (fun item value => f item = some value) items values := by
  induction items generalizing values with
  | nil => cases values <;> simp
  | cons item items ih =>
      cases values <;> simp [ih, List.mapM_cons, Option.bind_eq_some_iff]

end Text

namespace Color

inductive Channel : List Char → Float → Prop
  | number {l : Literal} {word : List Char} (spells : l.Spells word)
      (digits : l.hasDigits = true) : Channel word l.toFloat
  | notNumber {word : List Char} (cased : word.map Char.toLower = "nan".toList) :
      Channel word (0 / 0)
  | infinite {word : List Char} (cased : word.map Char.toLower = "inf".toList) :
      Channel word (Binary.ofRank false Binary.infinityRank)

/-- Channels with commas between them, up to and with the closing parenthesis. -/
inductive Row : List Char → List Float → Prop
  | last {word gap : List Char} {x : Float} (channel : Channel word x)
      (blank : ∀ c ∈ gap, isGap c = true) : Row (word ++ gap ++ [')']) [x]
  | more {word before after row : List Char} {x : Float} {channels : List Float}
      (channel : Channel word x) (blankBefore : ∀ c ∈ before, isGap c = true)
      (blankAfter : ∀ c ∈ after, isGap c = true) (others : Row row channels) :
      Row (word ++ before ++ ',' :: after ++ row) (x :: channels)

inductive OfChannels : List Float → Color → Prop
  | three (r g b : Float) : OfChannels [r, g, b] ⟨r, g, b, 1⟩
  | four (r g b a : Float) : OfChannels [r, g, b, a] ⟨r, g, b, a⟩

def ofPairs (r r' g g' b b' a a' : Nat) : Color :=
  ofBytes (16 * r + r') (16 * g + g') (16 * b + b') (16 * a + a')

/-- What hexadecimal digits are the color of: fewer than six count twice each, and the opacity is
`ff` if it is not among them. -/
inductive OfDigits : List Nat → Color → Prop
  | short (r g b : Nat) : OfDigits [r, g, b] (ofPairs r r g g b b 15 15)
  | shortAlpha (r g b a : Nat) : OfDigits [r, g, b, a] (ofPairs r r g g b b a a)
  | long (r r' g g' b b' : Nat) :
      OfDigits [r, r', g, g', b, b'] (ofPairs r r' g g' b b' 15 15)
  | longAlpha (r r' g g' b b' a a' : Nat) :
      OfDigits [r, r', g, g', b, b', a, a'] (ofPairs r r' g g' b b' a a')

inductive Arguments : List Char → Color → Prop
  | within {before after row : List Char} {channels : List Float} {color : Color}
      (blankBefore : ∀ c ∈ before, isGap c = true) (blankAfter : ∀ c ∈ after, isGap c = true)
      (spelled : Row row channels) (counted : OfChannels channels color) :
      Arguments (before ++ '(' :: after ++ row) color

/-- The ways to spell a color: its digits, its channels behind `rgb` or `rgba`, or its name. -/
inductive Spells : List Char → Color → Prop
  | hex {digits : List Char} {values : List Nat} {color : Color}
      (spelled : List.Forall₂ (fun c value => Text.hexDigits.idxOf? c.toLower = some value)
        digits values)
      (counted : OfDigits values color) : Spells ('#' :: digits) color
  | function {name arguments : List Char} {color : Color}
      (cased : name.map Char.toLower ∈ ["rgb".toList, "rgba".toList])
      (spelled : Arguments arguments color) : Spells (name ++ arguments) color
  | name {word : List Char} {name : String} {color : Color} (listed : (name, color) ∈ named)
      (cased : word.map Char.toLower = name.toList) : Spells word color

theorem isGap_iff {c : Char} :
    isGap c = true ↔ c = ' ' ∨ c = '\t' ∨ c = '\r' ∨ c = '\n' := by
  simp [isGap, or_assoc]

theorem isGap_or_eq_of_head {gap rest : List Char} {mark c : Char}
    (blank : ∀ c ∈ gap, isGap c = true) (first : c ∈ (gap ++ mark :: rest).head?) :
    isGap c = true ∨ c = mark := by
  cases gap with
  | nil => exact .inr (Option.some.inj first).symm
  | cons d gap =>
      obtain rfl : d = c := Option.some.inj first
      exact .inl (blank d List.mem_cons_self)

theorem skipGaps_append {gap rest : List Char} (blank : ∀ c ∈ gap, isGap c = true)
    (stop : ∀ c ∈ rest.head?, isGap c = false) : skipGaps (gap ++ rest) = rest := by
  rw [skipGaps, List.dropWhile_append_of_pos blank]
  cases rest with
  | nil => rfl
  | cons c rest => rw [List.dropWhile_cons_of_neg (by simp [stop c rfl])]

theorem exists_gap (text : List Char) :
    ∃ gap, text = gap ++ skipGaps text ∧ ∀ c ∈ gap, isGap c = true :=
  ⟨text.takeWhile isGap, List.takeWhile_append_dropWhile.symm, fun _ => List.mem_takeWhile_imp⟩

theorem scanName_append {given lower : List Char} (cased : given.map Char.toLower = lower)
    (three : lower.length = 3) (word rest : List Char) :
    scanName word (given ++ rest) = if lower = word then some rest else none := by
  rw [← cased, List.length_map] at three
  simp [scanName, Text.isWord, List.take_left' three, List.drop_left' three, cased]

theorem exists_of_scanName {word text rest : List Char}
    (scanned : scanName word text = some rest) :
    ∃ given, text = given ++ rest ∧ given.map Char.toLower = word := by
  rw [scanName] at scanned
  split at scanned
  next same =>
    cases scanned
    exact ⟨text.take 3, (List.take_append_drop 3 text).symm, eq_of_beq same⟩
  next => cases scanned

theorem hasDigits_scan_of_letter {word rest : List Char}
    (letter : (word.map Char.toLower).head?.any Char.isAlpha = true) :
    (Literal.scan (word ++ rest)).1.hasDigits = false := by
  rw [← Bool.not_eq_true]
  intro digits
  obtain ⟨literal, split, spells⟩ := Literal.exists_spells_of_scan (Prod.eta _).symm
  obtain ⟨d, others, rfl, first⟩ := spells.exists_head digits
  cases word with
  | nil => cases letter
  | cons c word =>
      obtain ⟨rfl, -⟩ := List.cons.inj split
      replace letter : c.toLower.isAlpha = true := letter
      rcases first with digit | mark
      · rw [Text.not_isAlpha_toLower_of_isDigit digit] at letter
        cases letter
      · simp only [List.mem_cons, List.not_mem_nil, or_false] at mark
        rcases mark with rfl | rfl | rfl <;> cases letter

theorem scanChannel_append {word rest : List Char} {x : Float} (channel : Channel word x)
    (stop : ∀ c ∈ rest.head?, Literal.goesOn c = false) :
    scanChannel (word ++ rest) = some (x, rest) := by
  cases channel with
  | number spells digits =>
      rw [scanChannel, Literal.scan_append spells digits stop]
      simp [digits]
  | notNumber cased =>
      have noDigits : (Literal.scan (word ++ rest)).1.hasDigits = false :=
        hasDigits_scan_of_letter (by rw [cased]; rfl)
      simp only [scanChannel, noDigits, scanName_append cased rfl]
      rfl
  | infinite cased =>
      have noDigits : (Literal.scan (word ++ rest)).1.hasDigits = false :=
        hasDigits_scan_of_letter (by rw [cased]; rfl)
      have otherName : "inf".toList ≠ "nan".toList := by decide
      simp only [scanChannel, noDigits, scanName_append cased rfl, otherName]
      rfl

theorem exists_channel_of_scanChannel {text rest : List Char} {x : Float}
    (scanned : scanChannel text = some (x, rest)) :
    ∃ word, text = word ++ rest ∧ Channel word x := by
  cases read : Literal.scan text with
  | mk literal behind =>
  rw [scanChannel, read] at scanned
  simp only at scanned
  split at scanned
  next digits =>
    cases scanned
    obtain ⟨word, split, spells⟩ := Literal.exists_spells_of_scan read
    exact ⟨word, split, .number spells digits⟩
  next =>
    split at scanned
    next found =>
      cases scanned
      obtain ⟨word, split, cased⟩ := exists_of_scanName found
      exact ⟨word, split, .notNumber cased⟩
    next =>
      split at scanned
      next found =>
        cases scanned
        obtain ⟨word, split, cased⟩ := exists_of_scanName found
        exact ⟨word, split, .infinite cased⟩
      next => cases scanned

theorem goesOn_of_isGap {c : Char} (gap : isGap c = true) : Literal.goesOn c = false := by
  rcases isGap_iff.mp gap with rfl | rfl | rfl | rfl <;> decide

/-- A channel ends before a gap, and before the mark behind it. -/
theorem goesOn_head_of_gap {gap rest : List Char} {mark c : Char}
    (blank : ∀ c ∈ gap, isGap c = true) (ends : Literal.goesOn mark = false)
    (first : c ∈ (gap ++ mark :: rest).head?) : Literal.goesOn c = false := by
  rcases isGap_or_eq_of_head blank first with gap | rfl
  · exact goesOn_of_isGap gap
  · exact ends

theorem scanChannel_of_isGap {c : Char} {text : List Char} (gap : isGap c = true) :
    scanChannel (c :: text) = none := by
  rcases isGap_iff.mp gap with rfl | rfl | rfl | rfl <;> rfl

theorem Channel.head_not_gap {word rest : List Char} {x : Float} (channel : Channel word x)
    (stop : ∀ c ∈ rest.head?, Literal.goesOn c = false) :
    ∀ c ∈ (word ++ rest).head?, isGap c = false := by
  intro c first
  rw [← Bool.not_eq_true]
  intro gap
  obtain ⟨others, split⟩ := List.head?_eq_some_iff.mp first
  have scanned := scanChannel_append channel stop
  rw [split, scanChannel_of_isGap gap] at scanned
  cases scanned

theorem Row.head_not_gap {row rest : List Char} {channels : List Float}
    (spelled : Row row channels) : ∀ c ∈ (row ++ rest).head?, isGap c = false := by
  cases spelled with
  | last channel blank =>
      simp only [List.append_assoc, List.cons_append]
      exact channel.head_not_gap fun c => goesOn_head_of_gap blank rfl
  | more channel blankBefore =>
      simp only [List.append_assoc, List.cons_append]
      exact channel.head_not_gap fun c => goesOn_head_of_gap blankBefore rfl

theorem scanChannels_append {row : List Char} {channels : List Float}
    (spelled : Row row channels) :
    ∀ {limit : Nat}, channels.length ≤ limit → ∀ rest : List Char,
      scanChannels limit (row ++ rest) = some (channels, rest) := by
  induction spelled with
  | @last word gap x channel blank =>
      intro limit limited rest
      obtain ⟨limit, rfl⟩ := Nat.exists_eq_add_one.mpr limited
      have scanned : scanChannel (word ++ (gap ++ ')' :: rest)) = some (x, gap ++ ')' :: rest) :=
        scanChannel_append channel fun c => goesOn_head_of_gap blank rfl
      have behind : skipGaps (gap ++ ')' :: rest) = ')' :: rest :=
        skipGaps_append blank (by simp; rfl)
      simp [scanChannels, scanned, behind]
  | @more word before after row x channels channel blankBefore blankAfter others ih =>
      intro limit limited rest
      obtain ⟨limit, rfl⟩ := Nat.exists_eq_add_one.mpr (Nat.zero_lt_of_lt limited)
      have scanned : scanChannel (word ++ (before ++ ',' :: (after ++ (row ++ rest)))) =
          some (x, before ++ ',' :: (after ++ (row ++ rest))) :=
        scanChannel_append channel fun c => goesOn_head_of_gap blankBefore rfl
      have comma : skipGaps (before ++ ',' :: (after ++ (row ++ rest))) =
          ',' :: (after ++ (row ++ rest)) :=
        skipGaps_append blankBefore (by simp; rfl)
      have next : skipGaps (after ++ (row ++ rest)) = row ++ rest :=
        skipGaps_append blankAfter others.head_not_gap
      have read := ih (Nat.le_of_succ_le_succ limited) rest
      simp [scanChannels, scanned, comma, next, read]

theorem exists_row_of_scanChannels {limit : Nat} {text rest : List Char} {channels : List Float}
    (scanned : scanChannels limit text = some (channels, rest)) :
    ∃ row, text = row ++ rest ∧ Row row channels := by
  induction limit generalizing text channels with
  | zero => cases scanned
  | succ limit ih =>
      rw [scanChannels] at scanned
      split at scanned
      next => cases scanned
      next x behind read =>
        obtain ⟨word, rfl, channel⟩ := exists_channel_of_scanChannel read
        obtain ⟨gap, split, blank⟩ := exists_gap behind
        split at scanned
        next closed =>
          cases scanned
          rw [closed] at split
          exact ⟨word ++ gap ++ [')'], by simp [split], .last channel blank⟩
        next after parted =>
          obtain ⟨⟨channels, behind⟩, read, same⟩ := Option.map_eq_some_iff.mp scanned
          cases same
          obtain ⟨row, next, others⟩ := ih read
          obtain ⟨gapAfter, splitAfter, blankAfter⟩ := exists_gap after
          rw [parted, splitAfter, next] at split
          exact ⟨word ++ gap ++ ',' :: gapAfter ++ row, by simp [split],
            .more channel blank blankAfter others⟩
        next => cases scanned

theorem ofChannels?_eq_some_iff {channels : List Float} {color : Color} :
    ofChannels? channels = some color ↔ OfChannels channels color := by
  constructor
  · intro given
    unfold ofChannels? at given
    split at given <;> cases given
    · exact .three ..
    · exact .four ..
  · intro counted
    cases counted <;> rfl

theorem ofHexDigits?_eq_some_iff {values : List Nat} {color : Color} :
    ofHexDigits? values = some color ↔ OfDigits values color := by
  have twice (n : Nat) : 17 * n = 16 * n + n := by omega
  constructor
  · intro given
    unfold ofHexDigits? at given
    simp only [twice] at given
    split at given <;> cases given
    · exact .short ..
    · exact .shortAlpha ..
    · exact .long ..
    · exact .longAlpha ..
  · intro counted
    cases counted <;> simp only [ofHexDigits?, twice] <;> rfl

theorem Arguments.head_not_letter {arguments : List Char} {color : Color}
    (spelled : Arguments arguments color) : ∀ c ∈ arguments.head?, c.toLower ≠ 'a' := by
  obtain @⟨before, after, row, _, _, blank⟩ := spelled
  intro c first
  rw [List.append_assoc] at first
  rcases isGap_or_eq_of_head blank first with gap | rfl
  · rcases isGap_iff.mp gap with rfl | rfl | rfl | rfl <;> decide
  · decide

def ofArguments? (text : List Char) : Option Color :=
  match skipGaps text with
  | '(' :: rest =>
      match scanChannels 4 (skipGaps rest) with
      | some (channels, []) => ofChannels? channels
      | _ => none
  | _ => none

theorem ofFunction?_cons (c : Char) (rest : List Char) :
    ofFunction? (c :: rest) = ofArguments? (if c.toLower = 'a' then rest else c :: rest) := rfl

theorem ofArguments?_eq_some_iff {text : List Char} {color : Color} :
    ofArguments? text = some color ↔ Arguments text color := by
  constructor
  · intro found
    obtain ⟨before, splitBefore, blankBefore⟩ := exists_gap text
    rw [ofArguments?] at found
    split at found
    next rest opened =>
      obtain ⟨after, splitAfter, blankAfter⟩ := exists_gap rest
      split at found
      next channels read =>
        obtain ⟨row, same, spelled⟩ := exists_row_of_scanChannels read
        rw [List.append_nil] at same
        rw [splitBefore, opened, splitAfter, same, ← List.cons_append, ← List.append_assoc]
        exact .within blankBefore blankAfter spelled (ofChannels?_eq_some_iff.mp found)
      next => cases found
    next => cases found
  · intro spelled
    obtain @⟨before, after, row, channels, _, blankBefore, blankAfter, spelled, counted⟩ := spelled
    have outer : skipGaps (before ++ '(' :: (after ++ row)) = '(' :: (after ++ row) :=
      skipGaps_append blankBefore (by simp; rfl)
    have inner : skipGaps (after ++ row) = row :=
      skipGaps_append blankAfter (List.append_nil row ▸ spelled.head_not_gap)
    have limited : channels.length ≤ 4 := by cases counted <;> simp
    have read : scanChannels 4 row = some (channels, []) := by
      simpa using scanChannels_append spelled limited []
    simp [ofArguments?, outer, inner, read, ofChannels?_eq_some_iff.mpr counted]

theorem ofFunction?_eq_some_iff {text : List Char} {color : Color} :
    ofFunction? text = some color ↔ ∃ letter arguments, text = letter ++ arguments ∧
      letter.map Char.toLower ∈ [[], ['a']] ∧ Arguments arguments color := by
  constructor
  · intro found
    cases text with
    | nil => cases found
    | cons c rest =>
        rw [ofFunction?_cons, ofArguments?_eq_some_iff] at found
        split at found
        next letter => exact ⟨[c], rest, rfl, by simp [letter], found⟩
        next => exact ⟨[], c :: rest, rfl, by simp, found⟩
  · rintro ⟨letter, arguments, rfl, cased, spelled⟩
    simp only [List.mem_cons, List.map_eq_nil_iff, List.not_mem_nil, or_false,
      List.map_eq_singleton_iff] at cased
    rcases cased with rfl | ⟨c, rfl, letter⟩
    · have notLetter := spelled.head_not_letter
      rw [← ofArguments?_eq_some_iff] at spelled
      cases arguments with
      | nil => cases spelled
      | cons c rest =>
          rw [List.nil_append, ofFunction?_cons, if_neg (notLetter c rfl), spelled]
    · rw [List.singleton_append, ofFunction?_cons, if_pos letter, ofArguments?_eq_some_iff]
      exact spelled

theorem named?_eq_some_iff {word : List Char} {color : Color} :
    named? word = some color ↔
      ∃ name, (name, color) ∈ named ∧ word.map Char.toLower = name.toList := by
  have distinct : (named.map Prod.fst).Nodup := by decide +kernel
  rw [named?, List.lookup_eq_some_iff]
  constructor
  · rintro ⟨before, after, split, -⟩
    exact ⟨_, split ▸ by simp, String.toList_ofList.symm⟩
  · rintro ⟨name, listed, cased⟩
    obtain ⟨before, after, split⟩ := List.mem_iff_append.mp listed
    rw [cased, String.ofList_toList]
    refine ⟨before, after, split, fun entry member => ?_⟩
    rw [split, List.map_append, List.map_cons, List.nodup_append] at distinct
    have other := distinct.2.2 entry.1 (List.mem_map_of_mem member) name List.mem_cons_self
    simpa using other.symm

theorem not_reserved {name : String} {color : Color} (listed : (name, color) ∈ named) :
    name.toList.take 3 ≠ "rgb".toList ∧ name.toList.head? ≠ some '#' := by
  have free : named.all (fun entry =>
      entry.1.toList.take 3 != "rgb".toList && entry.1.toList.head? != some '#') = true := by
    decide +kernel
  have unreserved := List.all_eq_true.mp free _ listed
  rw [Bool.and_eq_true, bne_iff_ne, bne_iff_ne] at unreserved
  exact unreserved

theorem ofCss?_of_head {text : String} {word : List Char}
    (trimmed : Text.trim text.toList = word) (first : ∀ c ∈ word.head?, c ≠ '#') :
    ofCss? text = match scanName "rgb".toList word with
      | some rest => ofFunction? rest
      | none => named? word := by
  rw [ofCss?, trimmed]
  cases word with
  | nil => rfl
  | cons c word =>
      have other : c ≠ '#' := first c rfl
      split
      next same => cases same; exact absurd rfl other
      next => rfl

theorem ofCss?_of_function {text : String} {name arguments : List Char} {color : Color}
    (trimmed : Text.trim text.toList = name ++ arguments)
    (cased : name.map Char.toLower ∈ ["rgb".toList, "rgba".toList])
    (spelled : Arguments arguments color) : ofCss? text = some color := by
  obtain ⟨given, letter, rfl, cased, short⟩ : ∃ given letter, name = given ++ letter ∧
      given.map Char.toLower = "rgb".toList ∧ letter.map Char.toLower ∈ [[], ['a']] := by
    refine ⟨name.take 3, name.drop 3, (List.take_append_drop 3 name).symm, ?_⟩
    rw [List.map_take, List.map_drop]
    simp only [List.mem_cons, List.not_mem_nil, or_false] at cased
    rcases cased with same | same <;> rw [same] <;> decide
  have first : ∀ c ∈ (given ++ (letter ++ arguments)).head?, c ≠ '#' := by
    obtain ⟨d, others, rfl, lower, -⟩ := List.map_eq_cons_iff.mp cased
    rintro c head rfl
    obtain rfl : d = '#' := by simpa using head
    cases lower
  rw [List.append_assoc] at trimmed
  rw [ofCss?_of_head trimmed first, scanName_append cased rfl, if_pos rfl]
  exact ofFunction?_eq_some_iff.mpr ⟨letter, arguments, rfl, short, spelled⟩

theorem ofCss?_of_name {text name : String} {color : Color} (listed : (name, color) ∈ named)
    (cased : (Text.trim text.toList).map Char.toLower = name.toList) :
    ofCss? text = some color := by
  obtain ⟨noChannels, noDigits⟩ := not_reserved listed
  rw [← cased] at noChannels noDigits
  have first : ∀ c ∈ (Text.trim text.toList).head?, c ≠ '#' := by
    rintro c head rfl
    rw [List.head?_map, head] at noDigits
    exact noDigits rfl
  rw [ofCss?_of_head rfl first]
  split
  next rest scanned =>
    obtain ⟨given, split, short⟩ := exists_of_scanName scanned
    have three : given.length = 3 := by simpa using congrArg List.length short
    rw [split, ← List.map_take, List.take_left' three] at noChannels
    exact absurd short noChannels
  next => exact named?_eq_some_iff.mpr ⟨name, listed, cased⟩

theorem ofCss?_eq_some_iff {text : String} {color : Color} :
    ofCss? text = some color ↔ Spells (Text.trim text.toList) color := by
  constructor
  · intro found
    rw [ofCss?] at found
    generalize Text.trim text.toList = word at found ⊢
    split at found
    next digits =>
      obtain ⟨values, read, given⟩ := Option.bind_eq_some_iff.mp found
      rw [Text.mapM_eq_some_iff] at read
      simp only [Text.hexValue?_eq] at read
      exact .hex read (ofHexDigits?_eq_some_iff.mp given)
    next =>
      split at found
      next rest read =>
        obtain ⟨name, rfl, cased⟩ := exists_of_scanName read
        obtain ⟨letter, arguments, rfl, short, spelled⟩ := ofFunction?_eq_some_iff.mp found
        rw [← List.append_assoc]
        refine .function ?_ spelled
        rw [List.map_append, cased]
        simp only [List.mem_cons, List.not_mem_nil, or_false] at short ⊢
        exact short.imp (fun none => by rw [none]; rfl) (fun some => by rw [some]; rfl)
      next =>
        obtain ⟨name, listed, cased⟩ := named?_eq_some_iff.mp found
        exact .name listed cased
  · intro spelled
    generalize trimmed : Text.trim text.toList = word at spelled
    cases spelled with
    | @hex digits values _ spelled counted =>
        have read : digits.mapM Text.hexValue? = some values := by
          rw [Text.mapM_eq_some_iff]
          simpa only [Text.hexValue?_eq] using spelled
        rw [ofCss?, trimmed]
        simp [read, ofHexDigits?_eq_some_iff.mpr counted]
    | function cased spelled => exact ofCss?_of_function trimmed cased spelled
    | name listed cased => exact ofCss?_of_name listed (trimmed ▸ cased)

end Color

/-- A text has the color of its spelling, and a text that spells no color gives the error that
carries it as it was given. -/
theorem cssColors_spells (text : String) :
    (∀ color, cssColors text = .ok color ↔ Color.Spells (Text.trim text.toList) color) ∧
      ∀ error, cssColors text = .error error ↔
        (∀ color, ¬Color.Spells (Text.trim text.toList) color) ∧
          error = .unresolvedColor text := by
  simp only [← Color.ofCss?_eq_some_iff, cssColors]
  cases found : Color.ofCss? text with
  | none => simp [eq_comm]
  | some color => simp

example : cssColors " RGBA(1 , .5e1,2.)\n" = .ok ⟨1, 5, 2, 1⟩ := by decide +kernel

end Tracery
