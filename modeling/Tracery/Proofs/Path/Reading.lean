import Tracery.Path.RoundedPolygon
import Tracery.Proofs.NumberText

/-! Points and paths read back from their texts. No number has a comma or a blank in its text, and
no letter of a command is a number, so that a text says where each part of it ends. -/

namespace Tracery

namespace Text

def split (mark : Char) (text : String) : List String :=
  (text.toList.splitOn mark).map String.ofList

/-- The parts of a text that blanks stand between; an empty text has none. -/
def words (text : String) : List String := if text.isEmpty then [] else split ' ' text

structure IsWord (text : String) : Prop where
  written : text ≠ ""
  apart : ' ' ∉ text.toList

theorem split_intercalate {separator : String} {mark : Char} (single : separator.toList = [mark])
    {parts : List String} (written : parts ≠ []) (apart : ∀ part ∈ parts, mark ∉ part.toList) :
    split mark (separator.intercalate parts) = parts := by
  rw [split, String.toList_intercalate, single,
    List.splitOn_intercalate mark (by simpa using apart) (by simpa using written)]
  simp

theorem intercalate_eq_empty_iff {parts : List String} (solid : ∀ part ∈ parts, IsWord part) :
    " ".intercalate parts = "" ↔ parts = [] := by
  cases parts with
  | nil => simp
  | cons first rest =>
      have written : first ≠ "" := (solid first List.mem_cons_self).written
      cases rest <;> simp [written]

theorem words_intercalate {parts : List String} (solid : ∀ part ∈ parts, IsWord part) :
    words (" ".intercalate parts) = parts := by
  by_cases bare : parts = []
  · rw [bare]
    rfl
  · have written : " ".intercalate parts ≠ "" := mt (intercalate_eq_empty_iff solid).mp bare
    rw [words, if_neg (by simpa using written),
      split_intercalate rfl bare fun part member => (solid part member).apart]

end Text

namespace Vec

def unsigned (v : Vec) : Vec := ⟨Binary.unsigned v.x, Binary.unsigned v.y⟩

def ofText? (text : String) : Option Vec :=
  match Text.split ',' text with
  | [x, y] => do return ⟨← (Value.text x).number?, ← (Value.text y).number?⟩
  | _ => none

theorem text_unsigned (v : Vec) : v.unsigned.text = v.text := by
  simp only [text, unsigned, numberText_unsigned]

theorem ofText?_text (v : Vec) : ofText? v.text = some v.unsigned := by
  have joined : v.text = ",".intercalate [numberText v.x, numberText v.y] := by simp [text]
  have apart (x : Float) : ',' ∉ (numberText x).toList := not_mem_numberText (by decide) x
  have parts : Text.split ',' v.text = [numberText v.x, numberText v.y] := by
    rw [joined, Text.split_intercalate rfl (List.cons_ne_nil _ _)]
    simp [apart]
  simp [ofText?, parts, Value.number?, readNumber?_numberText, unsigned]

theorem isWord_text (v : Vec) : Text.IsWord v.text where
  written := by simp [text]
  apart := by
    have apart (x : Float) : ' ' ∉ (numberText x).toList := not_mem_numberText (by decide) x
    simp [text, apart]

def ofTexts? (text : String) : Option (List Vec) := (Text.words text).mapM ofText?

theorem isWord_of_mem_texts {points : List Vec} {word : String}
    (member : word ∈ points.map text) : Text.IsWord word := by
  obtain ⟨point, -, rfl⟩ := List.mem_map.mp member
  exact point.isWord_text

theorem ofTexts?_intercalate (points : List Vec) :
    ofTexts? (" ".intercalate (points.map text)) = some (points.map unsigned) := by
  rw [ofTexts?, Text.words_intercalate fun _ => isWord_of_mem_texts, List.mapM_map]
  induction points with
  | nil => rfl
  | cons point rest ih => simp [ofText?_text, ih]

end Vec

namespace PathCommand

def unsigned : PathCommand → PathCommand
  | .moveTo point => .moveTo point.unsigned
  | .lineTo point => .lineTo point.unsigned
  | .quadTo control finish => .quadTo control.unsigned finish.unsigned
  | .close => .close

def letter : PathCommand → String
  | .moveTo _ => "M"
  | .lineTo _ => "L"
  | .quadTo _ _ => "Q"
  | .close => "Z"

def points : PathCommand → List Vec
  | .moveTo point => [point]
  | .lineTo point => [point]
  | .quadTo control finish => [control, finish]
  | .close => []

def words (command : PathCommand) : List String := command.letter :: command.points.map Vec.text

def ofWords? : List String → Option (List PathCommand)
  | [] => some []
  | "M" :: point :: rest => do return .moveTo (← Vec.ofText? point) :: (← ofWords? rest)
  | "L" :: point :: rest => do return .lineTo (← Vec.ofText? point) :: (← ofWords? rest)
  | "Q" :: control :: finish :: rest => do
      return .quadTo (← Vec.ofText? control) (← Vec.ofText? finish) :: (← ofWords? rest)
  | "Z" :: rest => do return .close :: (← ofWords? rest)
  | _ => none

def ofPathData? (text : String) : Option (List PathCommand) := ofWords? (Text.words text)

theorem text_eq_intercalate (command : PathCommand) :
    command.text = " ".intercalate command.words := by
  cases command <;> simp [text, words, letter, points, String.append_assoc]

theorem isWord_of_mem_words {command : PathCommand} {word : String}
    (member : word ∈ command.words) : Text.IsWord word := by
  rcases List.mem_cons.mp member with rfl | member
  · cases command <;> exact ⟨by simp [letter], by simp [letter]⟩
  · exact Vec.isWord_of_mem_texts member

theorem ofWords?_words (commands : List PathCommand) :
    ofWords? (commands.flatMap words) = some (commands.map unsigned) := by
  induction commands with
  | nil => rfl
  | cons command rest ih =>
      cases command <;> simp [words, letter, points, ofWords?, Vec.ofText?_text, ih, unsigned]

theorem text_unsigned (command : PathCommand) : command.unsigned.text = command.text := by
  cases command <;> simp [unsigned, text, Vec.text_unsigned]

end PathCommand

open PathCommand (ofPathData?)

theorem pathData_eq_intercalate (commands : List PathCommand) :
    pathData commands = " ".intercalate (commands.flatMap PathCommand.words) := by
  induction commands with
  | nil => rfl
  | cons command rest ih =>
      rw [pathData, List.map_cons, List.flatMap_cons]
      cases rest with
      | nil => simp [PathCommand.text_eq_intercalate]
      | cons next rest =>
          have here : command.words ≠ [] := List.cons_ne_nil _ _
          have more : (next :: rest).flatMap PathCommand.words ≠ [] := by
            simp [PathCommand.words]
          rw [String.intercalate_cons_of_ne_nil (by simp), ← pathData, ih,
            String.intercalate_append_of_ne_nil here more, PathCommand.text_eq_intercalate]

theorem pathData_map_unsigned (commands : List PathCommand) :
    pathData (commands.map PathCommand.unsigned) = pathData commands := by
  simp only [pathData, List.map_map, Function.comp_def, PathCommand.text_unsigned]

theorem ofPathData?_pathData (commands : List PathCommand) :
    ofPathData? (pathData commands) = some (commands.map PathCommand.unsigned) := by
  have solid : ∀ word ∈ commands.flatMap PathCommand.words, Text.IsWord word := by
    intro word member
    obtain ⟨command, -, member⟩ := List.mem_flatMap.mp member
    exact PathCommand.isWord_of_mem_words member
  rw [ofPathData?, pathData_eq_intercalate, Text.words_intercalate solid,
    PathCommand.ofWords?_words]

theorem pathData_eq_iff {first second : List PathCommand} :
    pathData first = pathData second ↔
      first.map PathCommand.unsigned = second.map PathCommand.unsigned := by
  constructor
  · intro same
    apply Option.some.inj
    rw [← ofPathData?_pathData, same, ofPathData?_pathData]
  · intro same
    rw [← pathData_map_unsigned, same, pathData_map_unsigned]

/-- Path data is read back as the commands that it was written from, with zeros for negative
zeros, and is the same for no others. -/
theorem pathData_readable (commands : List PathCommand) :
    ofPathData? (pathData commands) = some (commands.map PathCommand.unsigned) ∧
      ∀ others, pathData commands = pathData others ↔
        commands.map PathCommand.unsigned = others.map PathCommand.unsigned :=
  ⟨ofPathData?_pathData commands, fun _ => pathData_eq_iff⟩

end Tracery
