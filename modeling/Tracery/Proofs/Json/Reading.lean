import Tracery.Json
import Tracery.Proofs.Decimal.Spelling
import Tracery.Proofs.Text

/-! JSON read back. What is written of a tree, whatever its strings are made of,
reads as that tree. -/

namespace Tracery.Json

open Literal (goesOn)

mutual
def literals : Json → List Literal
  | .null | .bool _ | .string _ => []
  | .number literal => [literal]
  | .array items => literalsAll items
  | .object fields => literalsOfFields fields
termination_by structural json => json

def literalsAll : List Json → List Literal
  | [] => []
  | item :: rest => item.literals ++ literalsAll rest
termination_by structural items => items

def literalsOfFields : List (Option String × Json) → List Literal
  | [] => []
  | (_, item) :: rest => item.literals ++ literalsOfFields rest
termination_by structural fields => fields
end

theorem joinParts_unit {n : Nat} (low : n < 0xD800) (parts : List StringPart) :
    joinParts (.unit n :: parts) = (joinParts parts).map (Char.ofNat n :: ·) := by
  have high : isHighSurrogate n = false := by simp [isHighSurrogate, low]
  have second : isLowSurrogate n = false := by
    simp only [isLowSurrogate, Bool.and_eq_false_iff, decide_eq_false_iff_not]
    omega
  cases parts with
  | nil => simp [joinParts, high, second]
  | cons part parts => cases part <;> simp [joinParts, high, second]

theorem scanParts_plain {c : Char} (quote : c ≠ '"') (backslash : c ≠ '\\')
    (printed : ¬ c.toNat < 0x20) (rest : List Char) :
    scanParts (c :: rest) =
      (scanParts rest).map fun (parts, rest) => (.char c :: parts, rest) := by
  conv_lhs => unfold scanParts
  split <;> simp_all [Option.map_eq_bind]

theorem scanParts_unit {a b : Nat} (left : a < 16) (right : b < 16) (rest : List Char) :
    scanParts ('\\' :: 'u' :: '0' :: '0' :: Text.hexDigit a :: Text.hexDigit b :: rest) =
      (scanParts rest).map fun (parts, rest) => (.unit (16 * a + b) :: parts, rest) := by
  have zero : Text.hexValue? '0' = some 0 := by decide
  have number : Text.hexNumber? ['0', '0', Text.hexDigit a, Text.hexDigit b] =
      some (16 * a + b) := by
    simp [Text.hexNumber?, zero, Text.hexValue?_hexDigit left, Text.hexValue?_hexDigit right]
  rw [scanParts, number]
  simp [Option.map_eq_bind]

theorem scanParts_escaped {letter c : Char} (named : escaped? letter = some c)
    (rest : List Char) :
    scanParts ('\\' :: letter :: rest) =
      (scanParts rest).map fun (parts, rest) => (.char c :: parts, rest) := by
  have letter_ne : letter ≠ 'u' := by
    rintro rfl
    cases named
  rw [scanParts]
  · simp [named, Option.map_eq_bind]
  · simp_all

theorem exists_scanParts_escape (c : Char) :
    ∃ part, (∀ rest, scanParts (escape c ++ rest) =
        (scanParts rest).map fun (parts, rest) => (part :: parts, rest)) ∧
      ∀ parts, joinParts (part :: parts) = (joinParts parts).map (c :: ·) := by
  unfold escape
  split
  case h_8 =>
    split
    next control =>
      refine ⟨.unit (16 * (c.toNat / 16) + c.toNat % 16),
        scanParts_unit (by omega) (Nat.mod_lt _ (by decide)), ?_⟩
      intro parts
      rw [Nat.div_add_mod, joinParts_unit (by omega), Char.ofNat_toNat]
    next printed =>
      exact ⟨.char c, scanParts_plain (by assumption) (by assumption) printed,
        fun _ => by rw [joinParts]⟩
  all_goals exact ⟨.char _, scanParts_escaped rfl, fun _ => by rw [joinParts]⟩

theorem exists_scanParts_escapes (content : List Char) :
    ∃ parts, joinParts parts = some content ∧
      ∀ rest, scanParts (content.flatMap escape ++ '"' :: rest) = some (parts, rest) := by
  induction content with
  | nil => exact ⟨[], by simp [joinParts], by simp [scanParts]⟩
  | cons c content ih =>
      obtain ⟨parts, joined, scanned⟩ := ih
      obtain ⟨part, first, spells⟩ := exists_scanParts_escape c
      refine ⟨part :: parts, by rw [spells, joined, Option.map_some], fun rest => ?_⟩
      rw [List.flatMap_cons, List.append_assoc, first, scanned, Option.map_some]

theorem exists_writeString (content : Option String) :
    ∃ text, (∀ rest, writeString content rest = '"' :: (text ++ rest)) ∧
      ∀ rest, scanString (text ++ rest) = some (content, rest) := by
  cases content with
  | none => exact ⟨['\\', 'u', 'd', '8', '0', '0', '"'], fun _ => rfl, fun _ => rfl⟩
  | some content =>
      obtain ⟨parts, joined, scanned⟩ := exists_scanParts_escapes content.toList
      refine ⟨content.toList.flatMap escape ++ ['"'], fun rest => ?_, fun rest => ?_⟩
      · simp [writeString]
      · simp only [List.append_assoc, List.singleton_append, scanString, scanned,
          Option.map_some, joined, String.ofList_toList]

theorem isNumber_of_canonical {l : Literal} (canonical : l.Canonical) : isNumber l = true := by
  obtain ⟨sign, whole, leading, fraction, -⟩ := canonical
  simp only [isNumber, Bool.and_eq_true, Bool.or_eq_true, bne_iff_ne, ne_eq, beq_iff_eq,
    Bool.not_eq_true', List.isEmpty_eq_false_iff]
  exact ⟨⟨⟨sign, whole⟩, leading⟩, fraction⟩

theorem scanWord_chars {l : Literal} (canonical : l.Canonical) {rest : List Char}
    (stop : ∀ c ∈ rest.head?, goesOn c = false) :
    scanWord (l.chars ++ rest) = some (.number l, rest) := by
  have scanned := Literal.scan_chars canonical stop
  obtain ⟨c, others, begins, other⟩ := Literal.exists_chars canonical
  rw [begins, List.cons_append] at scanned ⊢
  rw [scanWord, scanned]
  · simp [isNumber_of_canonical canonical]
  · exact fun _ same => other 'n' (by decide) (by decide) (List.cons.inj same).1
  · exact fun _ same => other 't' (by decide) (by decide) (List.cons.inj same).1
  · exact fun _ same => other 'f' (by decide) (by decide) (List.cons.inj same).1

/-! Trees. What is written begins with no blank and ends before the given rest. -/

mutual
theorem exists_write (json : Json) (canonical : ∀ l ∈ json.literals, l.Canonical)
    (rest : List Char) :
    ∃ c text, json.write rest = c :: (text ++ rest) ∧ isGap c = false ∧ c ≠ ']' := by
  cases json with
  | null => exact ⟨'n', ['u', 'l', 'l'], rfl, by decide, by decide⟩
  | bool b =>
      cases b with
      | true => exact ⟨'t', ['r', 'u', 'e'], rfl, by decide, by decide⟩
      | false => exact ⟨'f', ['a', 'l', 's', 'e'], rfl, by decide, by decide⟩
  | number l =>
      obtain ⟨c, others, begins, other⟩ :=
        Literal.exists_chars (canonical l (List.mem_singleton.mpr rfl))
      refine ⟨c, others, by rw [write, begins, List.cons_append], ?_,
        other ']' (by decide) (by decide)⟩
      simp only [isGap, Bool.or_eq_false_iff, beq_eq_false_iff_ne]
      exact ⟨⟨⟨other ' ' (by decide) (by decide), other '\t' (by decide) (by decide)⟩,
        other '\n' (by decide) (by decide)⟩, other '\r' (by decide) (by decide)⟩
  | string content =>
      obtain ⟨text, written, -⟩ := exists_writeString content
      exact ⟨'"', text, by rw [write, written], by decide, by decide⟩
  | array items =>
      cases items with
      | nil => exact ⟨'[', [']'], rfl, by decide, by decide⟩
      | cons item items =>
          simp only [literals, literalsAll, List.forall_mem_append] at canonical
          obtain ⟨d, behind, later, -⟩ := exists_writeItems items canonical.2 rest
          obtain ⟨c, text, first, -⟩ :=
            exists_write item canonical.1 (writeItems items rest)
          refine ⟨'[', c :: text ++ d :: behind, ?_, by decide, by decide⟩
          rw [write, first, later]
          simp
  | object fields =>
      cases fields with
      | nil => exact ⟨'\x7b', ['\x7d'], rfl, by decide, by decide⟩
      | cons field fields =>
          obtain ⟨key, item⟩ := field
          simp only [literals, literalsOfFields, List.forall_mem_append] at canonical
          obtain ⟨d, behind, later, -⟩ := exists_writeFields fields canonical.2 rest
          obtain ⟨c, text, first, -⟩ :=
            exists_write item canonical.1 (writeFields fields rest)
          obtain ⟨name, written, -⟩ := exists_writeString key
          refine ⟨'\x7b', '"' :: name ++ ':' :: c :: text ++ d :: behind, ?_,
            by decide, by decide⟩
          rw [write, written, first, later]
          simp
termination_by structural json

theorem exists_writeItems (items : List Json)
    (canonical : ∀ l ∈ literalsAll items, l.Canonical) (rest : List Char) :
    ∃ c text, writeItems items rest = c :: (text ++ rest) ∧ goesOn c = false := by
  cases items with
  | nil => exact ⟨']', [], rfl, by decide⟩
  | cons item items =>
      simp only [literalsAll, List.forall_mem_append] at canonical
      obtain ⟨d, behind, later, -⟩ := exists_writeItems items canonical.2 rest
      obtain ⟨c, text, first, -⟩ := exists_write item canonical.1 (writeItems items rest)
      refine ⟨',', c :: text ++ d :: behind, ?_, by decide⟩
      rw [writeItems, first, later]
      simp
termination_by structural items

theorem exists_writeFields (fields : List (Option String × Json))
    (canonical : ∀ l ∈ literalsOfFields fields, l.Canonical) (rest : List Char) :
    ∃ c text, writeFields fields rest = c :: (text ++ rest) ∧ goesOn c = false := by
  cases fields with
  | nil => exact ⟨'\x7d', [], rfl, by decide⟩
  | cons field fields =>
      obtain ⟨key, item⟩ := field
      simp only [literalsOfFields, List.forall_mem_append] at canonical
      obtain ⟨d, behind, later, -⟩ := exists_writeFields fields canonical.2 rest
      obtain ⟨c, text, first, -⟩ := exists_write item canonical.1 (writeFields fields rest)
      obtain ⟨name, written, -⟩ := exists_writeString key
      refine ⟨',', '"' :: name ++ ':' :: c :: text ++ d :: behind, ?_, by decide⟩
      rw [writeFields, written, first, later]
      simp
termination_by structural fields
end

theorem length_lt_writeItems {items : List Json}
    (canonical : ∀ l ∈ literalsAll items, l.Canonical) (rest : List Char) :
    rest.length < (writeItems items rest).length := by
  obtain ⟨c, text, written, -⟩ := exists_writeItems items canonical rest
  rw [written, List.length_cons, List.length_append]
  omega

theorem length_lt_writeFields {fields : List (Option String × Json)}
    (canonical : ∀ l ∈ literalsOfFields fields, l.Canonical) (rest : List Char) :
    rest.length < (writeFields fields rest).length := by
  obtain ⟨c, text, written, -⟩ := exists_writeFields fields canonical rest
  rw [written, List.length_cons, List.length_append]
  omega

theorem writeItems_stops {items : List Json}
    (canonical : ∀ l ∈ literalsAll items, l.Canonical) (rest : List Char) :
    ∀ c ∈ (writeItems items rest).head?, goesOn c = false := by
  obtain ⟨c, text, written, stops⟩ := exists_writeItems items canonical rest
  simpa [written] using stops

theorem writeFields_stops {fields : List (Option String × Json)}
    (canonical : ∀ l ∈ literalsOfFields fields, l.Canonical) (rest : List Char) :
    ∀ c ∈ (writeFields fields rest).head?, goesOn c = false := by
  obtain ⟨c, text, written, stops⟩ := exists_writeFields fields canonical rest
  simpa [written] using stops

theorem skipGaps_cons {c : Char} (gap : isGap c = false) (text : List Char) :
    skipGaps (c :: text) = c :: text := by
  rw [skipGaps, List.dropWhile_cons_of_neg (by simp [gap])]

/-! What is scanned of each form of value that is made of parts. -/

theorem scanValue_number {l : Literal} (known : l.Canonical) {rest : List Char}
    (stop : ∀ c ∈ rest.head?, goesOn c = false) (limit : Nat) :
    scanValue (limit + 1) (l.chars ++ rest) = some (.number l, rest) := by
  obtain ⟨c, text, begins, gap, -⟩ :=
    exists_write (.number l) (fun _ member => List.mem_singleton.mp member ▸ known) rest
  obtain ⟨d, others, first, other⟩ := Literal.exists_chars known
  have word := scanWord_chars known stop
  rw [write] at begins
  rw [first, List.cons_append] at begins word ⊢
  obtain ⟨rfl, -⟩ := List.cons.inj begins
  rw [scanValue, skipGaps_cons gap]
  -- A digit or a minus begins no other kind of value.
  split
  next same => exact absurd (List.cons.inj same).1 (other _ (by decide) (by decide))
  next same => exact absurd (List.cons.inj same).1 (other _ (by decide) (by decide))
  next same => exact absurd (List.cons.inj same).1 (other _ (by decide) (by decide))
  next => exact word

theorem scanValue_array {item : Json} {items : List Json} {limit : Nat} {rest : List Char}
    (canonical : ∀ l ∈ item.literals, l.Canonical)
    (inner : scanItems limit (writeItems (item :: items) rest).tail = some (item :: items, rest)) :
    scanValue (limit + 1) ((Json.array (item :: items)).write rest) =
      some (.array (item :: items), rest) := by
  obtain ⟨c, others, first, solid, other⟩ := exists_write item canonical (writeItems items rest)
  rw [writeItems, List.tail_cons, first] at inner
  rw [write, first, scanValue, skipGaps_cons (by decide)]
  simp only
  rw [skipGaps_cons solid]
  split
  next same => exact absurd (List.cons.inj same).1 other
  next => rw [inner, Option.map_some]

theorem scanValue_object {key : Option String} {item : Json}
    {fields : List (Option String × Json)} {limit : Nat} {rest : List Char}
    (inner : scanFields limit (writeFields ((key, item) :: fields) rest).tail =
      some ((key, item) :: fields, rest)) :
    scanValue (limit + 1) ((Json.object ((key, item) :: fields)).write rest) =
      some (.object ((key, item) :: fields), rest) := by
  obtain ⟨name, written, -⟩ := exists_writeString key
  rw [writeFields, List.tail_cons, written] at inner
  rw [write, written, scanValue, skipGaps_cons (by decide)]
  simp only
  rw [skipGaps_cons (by decide)]
  split
  next same => exact absurd (List.cons.inj same).1 (by decide)
  next => rw [inner, Option.map_some]

mutual
theorem scanValue_write (json : Json) (canonical : ∀ l ∈ json.literals, l.Canonical)
    (limit : Nat) (rest : List Char)
    (enough : (json.write rest).length ≤ limit + rest.length)
    (stop : ∀ c ∈ rest.head?, goesOn c = false) :
    scanValue limit (json.write rest) = some (json, rest) := by
  cases limit with
  | zero =>
      obtain ⟨c, text, begins, -⟩ := exists_write json canonical rest
      rw [begins, List.length_cons, List.length_append] at enough
      omega
  | succ limit =>
      cases json with
      | null => rfl
      | bool b => cases b <;> rfl
      | number l => exact scanValue_number (canonical l (List.mem_singleton.mpr rfl)) stop limit
      | string content =>
          obtain ⟨text, written, scanned⟩ := exists_writeString content
          rw [write, written, scanValue, skipGaps_cons (by decide)]
          simp only [scanned, Option.map_some]
      | array items =>
          cases items with
          | nil => rfl
          | cons item items =>
              rw [write, List.length_cons] at enough
              have inner := scanItems_write (item :: items) canonical (by simp) limit rest
                (by rw [writeItems, List.length_cons]; omega)
              simp only [literals, literalsAll, List.forall_mem_append] at canonical
              exact scanValue_array canonical.1 inner
      | object fields =>
          cases fields with
          | nil => rfl
          | cons field fields =>
              obtain ⟨key, item⟩ := field
              rw [write, List.length_cons] at enough
              exact scanValue_object (scanFields_write ((key, item) :: fields) canonical (by simp)
                limit rest (by rw [writeFields, List.length_cons]; omega))
termination_by structural json

theorem scanItems_write (items : List Json)
    (canonical : ∀ l ∈ literalsAll items, l.Canonical) (nonempty : items ≠ [])
    (limit : Nat) (rest : List Char)
    (enough : (writeItems items rest).length ≤ limit + rest.length + 1) :
    scanItems limit (writeItems items rest).tail = some (items, rest) := by
  cases items with
  | nil => exact absurd rfl nonempty
  | cons item items =>
      simp only [literalsAll, List.forall_mem_append] at canonical
      have later := length_lt_writeItems canonical.2 rest
      obtain ⟨c, text, begins, -⟩ := exists_write item canonical.1 (writeItems items rest)
      have spent : (item.write (writeItems items rest)).length =
          text.length + (writeItems items rest).length + 1 := by
        rw [begins, List.length_cons, List.length_append]
      rw [writeItems, List.length_cons] at enough
      rw [writeItems, List.tail_cons]
      cases limit with
      | zero => omega
      | succ limit =>
          -- The comma or the bracket behind an item ends the number that the item may be.
          have first := scanValue_write item canonical.1 limit (writeItems items rest)
            (by omega) (writeItems_stops canonical.2 rest)
          rw [scanItems]
          simp only [first, Option.bind_eq_bind, Option.bind_some]
          cases items with
          | nil => rfl
          | cons next items =>
              have others := scanItems_write (next :: items) canonical.2 (by simp) limit rest
                (by omega)
              rw [writeItems, List.tail_cons] at others
              rw [writeItems, skipGaps_cons (by decide)]
              simp only [others, Option.bind_some]
              rfl
termination_by structural items

theorem scanFields_write (fields : List (Option String × Json))
    (canonical : ∀ l ∈ literalsOfFields fields, l.Canonical) (nonempty : fields ≠ [])
    (limit : Nat) (rest : List Char)
    (enough : (writeFields fields rest).length ≤ limit + rest.length + 1) :
    scanFields limit (writeFields fields rest).tail = some (fields, rest) := by
  cases fields with
  | nil => exact absurd rfl nonempty
  | cons field fields =>
      obtain ⟨key, item⟩ := field
      simp only [literalsOfFields, List.forall_mem_append] at canonical
      have later := length_lt_writeFields canonical.2 rest
      obtain ⟨name, written, scanned⟩ := exists_writeString key
      obtain ⟨c, text, begins, -⟩ := exists_write item canonical.1 (writeFields fields rest)
      have spent : (item.write (writeFields fields rest)).length =
          text.length + (writeFields fields rest).length + 1 := by
        rw [begins, List.length_cons, List.length_append]
      rw [writeFields, written] at enough
      simp only [List.length_cons, List.length_append] at enough
      rw [writeFields, List.tail_cons, written]
      cases limit with
      | zero => omega
      | succ limit =>
          have first := scanValue_write item canonical.1 limit (writeFields fields rest)
            (by omega) (writeFields_stops canonical.2 rest)
          rw [scanFields, skipGaps_cons (by decide)]
          simp only [scanned, Option.bind_eq_bind, Option.bind_some]
          rw [skipGaps_cons (by decide)]
          simp only [first, Option.bind_some]
          cases fields with
          | nil => rfl
          | cons next fields =>
              have others := scanFields_write (next :: fields) canonical.2 (by simp) limit rest
                (by omega)
              rw [writeFields, List.tail_cons] at others
              rw [writeFields, skipGaps_cons (by decide)]
              simp only [others, Option.bind_some]
              rfl
termination_by structural fields
end

/-- A tree with numbers as they are written is read from its text. -/
theorem read?_written {json : Json} (canonical : ∀ l ∈ json.literals, l.Canonical) :
    read? json.written = some json := by
  have scanned := scanValue_write json canonical ((json.write []).length + 1) []
    (by simp) (by simp)
  rw [read?, written, String.toList_ofList, scanned]
  rfl

end Tracery.Json
