import Tracery.Proofs.Decimal.Rounding
import Tracery.Proofs.NumberText
import Tracery.Proofs.Paint.Grammar

/-! Paint texts are color texts. Each has the color it was painted from, rounded as it was for the
text, and that color is painted as the same text again. -/

namespace Tracery

open Binary (isFinite roundHalfUp value)

namespace Color

variable {c : Color}

structure Finite (c : Color) : Prop where
  r : isFinite c.r = true
  g : isFinite c.g = true
  b : isFinite c.b = true
  a : isFinite c.a = true

/-- A color with whole channels and, if asked for, a whole opacity. -/
def rounded (c : Color) (roundAlpha : Bool) : Color where
  r := roundHalfUp c.r
  g := roundHalfUp c.g
  b := roundHalfUp c.b
  a := if roundAlpha then roundHalfUp c.a else c.a

def unsigned (c : Color) : Color :=
  ⟨Binary.unsigned c.r, Binary.unsigned c.g, Binary.unsigned c.b, Binary.unsigned c.a⟩

theorem Finite.rounded (finite : c.Finite) (roundAlpha : Bool) : (c.rounded roundAlpha).Finite where
  r := (Binary.isFinite_roundHalfUp c.r).trans finite.r
  g := (Binary.isFinite_roundHalfUp c.g).trans finite.g
  b := (Binary.isFinite_roundHalfUp c.b).trans finite.b
  a := by
    cases roundAlpha with
    | true => exact (Binary.isFinite_roundHalfUp c.a).trans finite.a
    | false => exact finite.a

theorem unsigned_beq (finite : c.Finite) : (c.unsigned == c) = true := by
  change (_ && _ && _ && _) = true
  simp only [Bool.and_eq_true]
  exact ⟨⟨⟨Binary.unsigned_beq finite.r, Binary.unsigned_beq finite.g⟩,
    Binary.unsigned_beq finite.b⟩, Binary.unsigned_beq finite.a⟩

def channelsText (c : Color) : String :=
  "rgba(" ++ numberText c.r ++ "," ++ numberText c.g ++ "," ++ numberText c.b ++ "," ++
    numberText c.a ++ ")"

theorem paint_eq (c : Color) (roundAlpha : Bool) :
    c.paint roundAlpha = (c.rounded roundAlpha).channelsText := by
  cases roundAlpha <;> rfl

theorem channelsText_unsigned (c : Color) : c.unsigned.channelsText = c.channelsText := by
  simp only [channelsText, unsigned, numberText_unsigned]

theorem rounded_unsigned_rounded (c : Color) (roundAlpha : Bool) :
    (c.rounded roundAlpha).unsigned.rounded roundAlpha = (c.rounded roundAlpha).unsigned := by
  cases roundAlpha <;> simp [rounded, unsigned, Binary.roundHalfUp_unsigned_roundHalfUp]

theorem toList_channelsText (c : Color) :
    c.channelsText.toList =
      "rgba".toList ++ '(' :: ((numberText c.r).toList ++ ',' :: ((numberText c.g).toList ++
        ',' :: ((numberText c.b).toList ++ ',' :: ((numberText c.a).toList ++ [')'])))) := by
  simp [channelsText]

theorem trim_channelsText (c : Color) :
    Text.trim c.channelsText.toList = c.channelsText.toList := by
  have name : "rgba".toList.all (!Text.isBlank ·) = true := by decide
  have number (x : Float) : ∀ d ∈ (numberText x).toList, Text.isBlank d = false :=
    fun _ => isBlank_of_mem_numberText
  apply Text.trim_of_solid
  rw [toList_channelsText]
  simp only [List.forall_mem_append, List.forall_mem_cons]
  exact ⟨by simpa using name, rfl, number c.r, rfl, number c.g, rfl, number c.b, rfl, number c.a,
    rfl, by simp⟩

theorem channel_numberText {x : Float} (finite : isFinite x = true) :
    Channel (numberText x).toList (Binary.unsigned x) := by
  have canonical := canonical_markup finite
  rw [toList_numberText finite, ← toFloat_markup finite]
  exact .number canonical.spells canonical.hasDigits

theorem spells_channelsText (finite : c.Finite) : Spells c.channelsText.toList c.unsigned := by
  have none : ∀ d ∈ [], isGap d = true := by simp
  have row := Row.more (channel_numberText finite.r) none none <|
    .more (channel_numberText finite.g) none none <|
    .more (channel_numberText finite.b) none none <|
    .last (channel_numberText finite.a) none
  have arguments := Arguments.within none none row (.four ..)
  have whole : Spells ("rgba".toList ++ _) c.unsigned := .function (by decide) arguments
  rw [toList_channelsText]
  simpa using whole

theorem ofCss?_channelsText (finite : c.Finite) : ofCss? c.channelsText = some c.unsigned := by
  rw [ofCss?_eq_some_iff, trim_channelsText]
  exact spells_channelsText finite

end Color

/-- A finite color is read back from its paint text with its channels as they are in the text,
zeros without their signs, and then is painted as the same text. -/
theorem cssColors_paint {c : Color} (finite : c.Finite) (roundAlpha : Bool) :
    cssColors (c.paint roundAlpha) = .ok (c.rounded roundAlpha).unsigned ∧
      ((c.rounded roundAlpha).unsigned == c.rounded roundAlpha) = true ∧
      (∀ x ∈ [c.r, c.g, c.b, c.a], value (roundHalfUp x) = ⌊value x + 1 / 2⌋) ∧
      (c.rounded roundAlpha).unsigned.paint roundAlpha = c.paint roundAlpha := by
  have rounded := finite.rounded roundAlpha
  refine ⟨?_, Color.unsigned_beq rounded, ?_, ?_⟩
  · rw [Color.paint_eq, cssColors, Color.ofCss?_channelsText rounded]
  · simp only [List.forall_mem_cons, Binary.value_roundHalfUp, finite.r, finite.g, finite.b,
      finite.a]
    simp
  · rw [Color.paint_eq, Color.rounded_unsigned_rounded, Color.channelsText_unsigned,
      Color.paint_eq]

theorem cssColors_paint_halves :
    let c : Color := ⟨-0.3, 2.5, 1e300, 0.5⟩
    c.Finite ∧ cssColors (c.paint false) = .ok ⟨0, 3, 1e300, 0.5⟩ ∧
      cssColors (c.paint true) = .ok ⟨0, 3, 1e300, 1⟩ := by
  have finite : (⟨-0.3, 2.5, 1e300, 0.5⟩ : Color).Finite := by
    constructor <;> decide +kernel
  refine ⟨finite, ?_, ?_⟩
  · rw [(cssColors_paint finite false).1]
    decide +kernel
  · rw [(cssColors_paint finite true).1]
    decide +kernel

end Tracery
