import Tracery.Proofs.Text
import Tracery.Toml.Reader

/-! Documents of lines, each of which gives a value to a bare key. Such a document is read as the
entries of its lines, if no key comes twice. -/

namespace Tracery.Toml

structure Line where
  name : String
  text : List Char
  value : Toml

namespace Line

def chars (line : Line) : List Char :=
  line.name.toList ++ ' ' :: '=' :: ' ' :: line.text ++ ['\n']

def entry (line : Line) : String × Toml := (line.name, line.value)

def statement (line : Line) : Statement := .pair [line.name] line.value

/-- Whether the name of a line is a bare key and its text is read as its value. -/
structure Sound (line : Line) : Prop where
  named : line.name.toList ≠ []
  bare : ∀ c ∈ line.name.toList, isBareKeyChar c = true
  reads : ∀ limit rest, line.text.length ≤ limit →
    scanValue nestingLimit (limit + 1) (skipGaps (line.text ++ '\n' :: rest)) =
      some (line.value, '\n' :: rest)

variable {line : Line}

theorem Sound.exists_name_eq (sound : line.Sound) :
    ∃ c others, line.name.toList = c :: others ∧
      ∀ {d : Char}, isBareKeyChar d = false → c ≠ d := by
  obtain ⟨c, others, name⟩ := List.exists_cons_of_ne_nil sound.named
  refine ⟨c, others, name, ?_⟩
  rintro d other rfl
  rw [sound.bare c (name ▸ List.mem_cons_self)] at other
  cases other

theorem Sound.exists_chars_eq (sound : line.Sound) :
    ∃ c others, line.chars = c :: others ∧ ∀ {d : Char}, isBareKeyChar d = false → c ≠ d := by
  obtain ⟨c, others, name, first⟩ := sound.exists_name_eq
  exact ⟨c, _, by rw [chars, name, List.cons_append, List.cons_append], first⟩

theorem Sound.skipGaps_name (sound : line.Sound) (rest : List Char) :
    skipGaps (line.name.toList ++ rest) = line.name.toList ++ rest := by
  obtain ⟨c, others, name, first⟩ := sound.exists_name_eq
  have solid : isGap c = false := by
    rw [isGap, Bool.or_eq_false_iff, beq_eq_false_iff_ne, beq_eq_false_iff_ne]
    exact ⟨first (by decide), first (by decide)⟩
  rw [name, List.cons_append, skipGaps, List.dropWhile_cons_of_neg (by simp [solid])]

theorem Sound.scanName_append (sound : line.Sound) {rest : List Char}
    (stop : ∀ c ∈ rest.head?, isBareKeyChar c = false) :
    scanName (line.name.toList ++ rest) = some (line.name, rest) := by
  have scanned := Text.span_append sound.bare stop
  obtain ⟨c, others, name, first⟩ := sound.exists_name_eq
  rw [name, List.cons_append] at scanned ⊢
  rw [scanName, scanned]
  · simp only [← name, String.ofList_toList]
  · exact fun _ same => first (by decide) (List.cons.inj same).1
  · exact fun _ same => first (by decide) (List.cons.inj same).1

theorem Sound.scanKey_append (sound : line.Sound) (limit : Nat) (rest : List Char) :
    scanKey (limit + 1) (line.name.toList ++ ' ' :: '=' :: rest) =
      some ([line.name], '=' :: rest) := by
  have stop : ∀ c ∈ (' ' :: '=' :: rest).head?, isBareKeyChar c = false := by
    rintro c ⟨⟩
    decide
  simp only [scanKey, sound.skipGaps_name, sound.scanName_append stop, Option.bind_eq_bind,
    Option.bind_some]
  rfl

theorem Sound.scanStatement_append (sound : line.Sound) (rest : List Char) :
    scanStatement (line.chars ++ rest) = some (line.statement, rest) := by
  have whole : line.chars ++ rest =
      line.name.toList ++ ' ' :: '=' :: ' ' :: (line.text ++ '\n' :: rest) := by
    simp [chars]
  obtain ⟨c, others, name, first⟩ := sound.exists_name_eq
  have key : scanKey nestingLimit _ = _ :=
    sound.scanKey_append 78 (' ' :: (line.text ++ '\n' :: rest))
  have value := sound.reads (line.chars ++ rest).length rest (by simp [chars]; omega)
  rw [whole] at value ⊢
  rw [name, List.cons_append] at key value ⊢
  rw [scanStatement, key]
  · have blank : skipGaps (' ' :: (line.text ++ '\n' :: rest)) =
        skipGaps (line.text ++ '\n' :: rest) := rfl
    simp only [Option.bind_eq_bind, Option.bind_some, blank, value]
    rfl
  · exact fun _ same => first (by decide) (List.cons.inj same).1
  · exact fun _ same => first (by decide) (List.cons.inj same).1

theorem length_le_chars (lines : List Line) : lines.length ≤ (lines.flatMap chars).length := by
  induction lines with
  | nil => exact Nat.le_refl 0
  | cons line lines ih =>
      rw [List.flatMap_cons, List.length_append, List.length_cons, chars, List.length_append]
      simp only [List.length_singleton]
      omega

theorem scanStatements_chars {lines : List Line} (sound : ∀ line ∈ lines, line.Sound) {limit : Nat}
    (enough : lines.length < limit) :
    scanStatements limit (lines.flatMap chars) = some (lines.map statement) := by
  induction lines generalizing limit with
  | nil =>
      cases limit with
      | zero => cases enough
      | succ limit => rfl
  | cons line lines ih =>
      rw [List.forall_mem_cons] at sound
      cases limit with
      | zero => cases enough
      | succ limit =>
          have later := ih sound.2 (Nat.lt_of_succ_lt_succ enough)
          have here := sound.1.scanStatement_append (lines.flatMap chars)
          have solid : skipGaps (line.chars ++ lines.flatMap chars) =
              line.chars ++ lines.flatMap chars := by
            simp only [chars, List.append_assoc]
            exact sound.1.skipGaps_name _
          obtain ⟨c, others, begins, first⟩ := sound.1.exists_chars_eq
          rw [List.flatMap_cons, scanStatements, solid]
          rw [begins, List.cons_append] at here ⊢
          split
          next same => cases same
          next same => exact absurd (List.cons.inj same).1 (first (by decide))
          next same => exact absurd (List.cons.inj same).1 (first (by decide))
          next same => exact absurd (List.cons.inj same).1 (first (by decide))
          next =>
            simp only [here, later, Option.bind_eq_bind, Option.bind_some, List.map_cons]
            rfl

end Line

theorem alter_of_fresh {key : String} {entries : Entries} (fresh : key ∉ entries.map Prod.fst)
    (change : Option Toml → Option Toml) :
    alter key change entries = (change none).map fun value => entries ++ [(key, value)] := by
  induction entries with
  | nil => rfl
  | cons entry entries ih =>
      rw [List.map_cons, List.mem_cons, not_or] at fresh
      obtain ⟨k, value⟩ := entry
      rw [alter, if_neg (Ne.symm fresh.1), ih fresh.2, Option.map_map]
      rfl

theorem add_statement {line : Line} {entries : Entries}
    (fresh : line.name ∉ entries.map Prod.fst) :
    Draft.add ⟨[], entries⟩ line.statement = some ⟨[], entries ++ [line.entry]⟩ := by
  simp only [Draft.add, Line.statement, within, put, alter_of_fresh fresh]
  rfl

theorem foldlM_add_statements {lines : List Line} {entries : Entries}
    (distinct : (entries.map Prod.fst ++ lines.map Line.name).Nodup) :
    (lines.map Line.statement).foldlM Draft.add ⟨[], entries⟩ =
      some ⟨[], entries ++ lines.map Line.entry⟩ := by
  induction lines generalizing entries with
  | nil => simp
  | cons line lines ih =>
      have fresh : line.name ∉ entries.map Prod.fst := by
        intro member
        exact (List.nodup_append.mp distinct).2.2 _ member _ List.mem_cons_self rfl
      have next : ((entries ++ [line.entry]).map Prod.fst ++ lines.map Line.name).Nodup := by
        simpa [Line.entry] using distinct
      simp only [List.map_cons, List.foldlM_cons, add_statement fresh, Option.bind_eq_bind,
        Option.bind_some, ih next]
      simp

theorem read?_of_unmarked {text : List Char} (unmarked : ∀ rest, text ≠ '\ufeff' :: rest) :
    read? (String.ofList text) = (scanStatements (text.length + 1) text).bind ofStatements? := by
  rw [read?, String.toList_ofList]
  split
  next => exact absurd rfl (unmarked _)
  next => rfl

theorem read?_lines {lines : List Line} (sound : ∀ line ∈ lines, line.Sound)
    (distinct : (lines.map Line.name).Nodup) :
    read? (String.ofList (lines.flatMap Line.chars)) = some (lines.map Line.entry) := by
  have enough : lines.length < (lines.flatMap Line.chars).length + 1 :=
    Nat.lt_succ_of_le (Line.length_le_chars lines)
  have held : ofStatements? (lines.map Line.statement) = some (lines.map Line.entry) := by
    have added : (lines.map Line.statement).foldlM Draft.add ({} : Draft) = _ :=
      foldlM_add_statements (by simpa using distinct)
    rw [ofStatements?, added]
    rfl
  have unmarked : ∀ rest, lines.flatMap Line.chars ≠ '\ufeff' :: rest := by
    intro rest same
    cases lines with
    | nil => cases same
    | cons line lines =>
        obtain ⟨c, others, begins, first⟩ := (sound line List.mem_cons_self).exists_chars_eq
        rw [List.flatMap_cons, begins] at same
        exact first (by decide) (List.cons.inj same).1
  rw [read?_of_unmarked unmarked, Line.scanStatements_chars sound enough, Option.bind_some, held]

end Tracery.Toml
