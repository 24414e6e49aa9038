import Tracery.Options.File
import Tracery.Proofs.Toml.Lines
import Tracery.Proofs.Toml.Quoting

/-! Options as files read back. Each of their fields is a line of the file, and is read in full
whichever strings are listed in it. -/

namespace Tracery

namespace Toml

theorem scanValue_booleanText (levels limit : Nat) (b : Bool) (rest : List Char) :
    scanValue levels (limit + 1) (booleanText b ++ '\n' :: rest) =
      some (.boolean b, '\n' :: rest) := by
  have token : (booleanText b ++ '\n' :: rest).span isTokenChar =
      (booleanText b, '\n' :: rest) := by
    have letters : (booleanText b).all isTokenChar = true := by cases b <;> rfl
    apply Text.span_append (List.all_eq_true.mp letters)
    simp [isTokenChar]
  have undated : isDate (booleanText b) = false := by cases b <;> decide
  have known : ofToken? (booleanText b) = some (.boolean b) := by cases b <;> rfl
  have scanned : scanToken (booleanText b ++ '\n' :: rest) = some (.boolean b, '\n' :: rest) := by
    simp only [scanToken, token, undated, known, Bool.false_and, Bool.false_eq_true, if_false,
      Option.map_some]
  cases b <;> exact scanned

theorem exists_quote_eq (content : List Char) :
    ∃ c text, quote content = c :: text ∧ (c = '"' ∨ c = '\'') := by
  have double (long : Bool) : ∃ text, quoteBasic long content = '"' :: text := by
    cases long <;> exact ⟨_, rfl⟩
  have single (long : Bool) : ∃ text, quoteLiteral long content = '\'' :: text := by
    cases long <;> exact ⟨_, rfl⟩
  unfold quote
  simp only
  split_ifs
  · obtain ⟨text, written⟩ := double false
    exact ⟨_, text, written, .inl rfl⟩
  · obtain ⟨text, written⟩ := single false
    exact ⟨_, text, written, .inr rfl⟩
  · obtain ⟨text, written⟩ := double true
    exact ⟨_, text, written, .inl rfl⟩
  · obtain ⟨text, written⟩ := single true
    exact ⟨_, text, written, .inr rfl⟩
  · obtain ⟨text, written⟩ := double (!!content.contains '\n')
    exact ⟨_, text, written, .inl rfl⟩

theorem scanValue_quote (levels limit : Nat) (content : List Char) {rest : List Char}
    (stop : EndsQuote rest) :
    scanValue levels (limit + 1) (quote content ++ rest) =
      some (.string (String.ofList content), rest) := by
  have scanned := scanQuoted_quote content stop
  obtain ⟨c, text, begins, same⟩ := exists_quote_eq content
  rw [begins, List.cons_append] at scanned ⊢
  rcases same with rfl | rfl
  · rw [scanValue, scanned]
    rfl
  · rw [scanValue, scanned]
    rfl

theorem skipFiller_quote (content rest : List Char) :
    skipFiller false (quote content ++ rest) = quote content ++ rest := by
  obtain ⟨c, text, begins, same⟩ := exists_quote_eq content
  rw [begins]
  rcases same with rfl | rfl <;> rfl

theorem scanItems_of_quote {levels limit : Nat} {item : String} {text others rest : List Char}
    {items : List Toml} (stop : EndsQuote others)
    (ahead : skipFiller false text = quote item.toList ++ others)
    (behind : skipFiller false others = ']' :: rest ∧ items = [] ∨
      ∃ more, skipFiller false others = ',' :: more ∧
        scanItems levels (limit + 1) more = some (items, rest)) :
    scanItems levels (limit + 2) text = some (string item :: items, rest) := by
  have value := scanValue_quote levels limit item.toList stop
  obtain ⟨c, text, begins, same⟩ := exists_quote_eq item.toList
  rw [begins, List.cons_append] at value ahead
  rw [scanItems, ahead]
  split
  next bracket => rcases same with rfl | rfl <;> cases (List.cons.inj bracket).1
  next =>
    rcases behind with ⟨closed, rfl⟩ | ⟨more, comma, later⟩
    · simp only [value, closed, String.ofList_toList, Option.bind_eq_bind, Option.bind_some]
      rfl
    · simp only [value, comma, later, String.ofList_toList, Option.bind_eq_bind,
        Option.bind_some]
      rfl

def itemLine (item : String) : List Char := "\n    ".toList ++ quote item.toList ++ [',']

theorem skipFiller_itemLine (item : String) (rest : List Char) :
    skipFiller false (itemLine item ++ rest) = quote item.toList ++ ',' :: rest := by
  have blank : skipFiller false ("\n    ".toList ++ (quote item.toList ++ ',' :: rest)) =
      skipFiller false (quote item.toList ++ ',' :: rest) := rfl
  rw [← skipFiller_quote item.toList (',' :: rest), ← blank]
  simp [itemLine]

theorem scanItems_itemLines (levels : Nat) {items : List String} {limit : Nat}
    (enough : items.length < limit) (rest : List Char) :
    scanItems levels limit (items.flatMap itemLine ++ '\n' :: ']' :: rest) =
      some (items.map string, rest) := by
  induction items generalizing limit with
  | nil =>
      cases limit with
      | zero => cases enough
      | succ limit => rfl
  | cons item items ih =>
      obtain _ | _ | limit := limit
      · cases enough
      · simp at enough
      · have later := ih (Nat.lt_of_succ_lt_succ enough)
        rw [List.flatMap_cons, List.append_assoc]
        exact scanItems_of_quote (by simp [EndsQuote]) (skipFiller_itemLine ..)
          (.inr ⟨_, rfl, later⟩)

theorem scanItems_singleton (levels limit : Nat) (item : String) (rest : List Char) :
    scanItems levels (limit + 2) (quote item.toList ++ ']' :: rest) =
      some ([string item], rest) :=
  scanItems_of_quote (by simp [EndsQuote]) (skipFiller_quote ..) (.inl ⟨rfl, rfl⟩)

theorem stringsText_of_many (first second : String) (items : List String) :
    stringsText (first :: second :: items) =
      '[' :: ((first :: second :: items).flatMap itemLine ++ ['\n', ']']) := rfl

theorem length_le_itemLines (items : List String) :
    items.length ≤ (items.flatMap itemLine).length := by
  induction items with
  | nil => exact le_rfl
  | cons item items ih =>
      rw [List.flatMap_cons, List.length_append, List.length_cons, itemLine, List.length_append,
        List.length_singleton]
      omega

theorem length_lt_stringsText (items : List String) :
    items.length < (stringsText items).length := by
  obtain _ | ⟨first, _ | ⟨second, items⟩⟩ := items
  · decide
  · simp [stringsText]
  · have counted := length_le_itemLines (first :: second :: items)
    simp only [stringsText_of_many, List.length_cons, List.length_append] at counted ⊢
    omega

theorem scanValue_bracket {levels limit : Nat} {text rest : List Char} {items : List Toml}
    (scanned : scanItems levels limit text = some (items, rest)) :
    scanValue (levels + 1) (limit + 1) ('[' :: text) = some (.array items, rest) := by
  rw [scanValue, if_pos levels.succ_pos, Nat.add_sub_cancel, scanned]
  rfl

theorem scanValue_stringsText (levels : Nat) {limit : Nat} {items : List String}
    (enough : items.length < limit) (rest : List Char) :
    scanValue (levels + 1) (limit + 1) (stringsText items ++ rest) =
      some (.array (items.map string), rest) := by
  obtain _ | ⟨first, _ | ⟨second, items⟩⟩ := items
  · obtain _ | limit := limit
    · cases enough
    · exact scanValue_bracket rfl
  · obtain _ | _ | limit := limit
    · cases enough
    · simp at enough
    · have scanned := scanValue_bracket (scanItems_singleton levels limit first rest)
      simpa [stringsText] using scanned
  · have scanned := scanValue_bracket (scanItems_itemLines levels enough rest)
    rw [stringsText_of_many]
    simpa using scanned

theorem strings?_array (items : List String) :
    strings? (.array (items.map string)) = some items := by
  rw [strings?, List.mapM_map]
  induction items with
  | nil => rfl
  | cons item items ih => simp [string?, ih]

namespace Line

variable {name : String} (named : name.toList ≠ [])
  (bare : ∀ c ∈ name.toList, isBareKeyChar c = true)
include named bare

theorem Sound.boolean (b : Bool) : Sound ⟨name, booleanText b, .boolean b⟩ where
  named := named
  bare := bare
  reads := by
    intro limit rest _
    have solid : skipGaps (booleanText b ++ '\n' :: rest) = booleanText b ++ '\n' :: rest := by
      cases b <;> rfl
    rw [solid, scanValue_booleanText]

theorem Sound.strings (items : List String) :
    Sound ⟨name, stringsText items, .array (items.map string)⟩ where
  named := named
  bare := bare
  reads := by
    intro limit rest enough
    have solid : skipGaps (stringsText items ++ '\n' :: rest) =
        stringsText items ++ '\n' :: rest := by
      obtain _ | ⟨first, _ | ⟨second, items⟩⟩ := items <;> rfl
    rw [solid]
    exact scanValue_stringsText 78 ((length_lt_stringsText items).trans_le enough) _

end Line

end Toml

namespace Options

def lines (options : Options) : List Toml.Line :=
  [⟨"strict", Toml.booleanText options.strict, .boolean options.strict⟩,
    ⟨"round_alpha", Toml.booleanText options.roundAlpha, .boolean options.roundAlpha⟩,
    ⟨"extra_attributes", Toml.stringsText options.extraAttributes,
      .array (options.extraAttributes.map .string)⟩]

theorem chars_eq (options : Options) : options.chars = options.lines.flatMap Toml.Line.chars := by
  change "strict".toList ++ [' ', '=', ' '] ++ Toml.booleanText options.strict ++
    ('\n' :: "round_alpha".toList ++ [' ', '=', ' ']) ++ Toml.booleanText options.roundAlpha ++
    ('\n' :: "extra_attributes".toList ++ [' ', '=', ' ']) ++
    Toml.stringsText options.extraAttributes ++ ['\n'] = _
  simp only [lines, Toml.Line.chars, List.flatMap_cons, List.flatMap_nil, List.append_assoc,
    List.cons_append, List.nil_append, List.append_nil]

theorem sound_lines (options : Options) : ∀ line ∈ options.lines, line.Sound := by
  have letters : ∀ name ∈ ["strict", "round_alpha", "extra_attributes"],
      name.toList ≠ [] ∧ name.toList.all Toml.isBareKeyChar = true := by decide
  simp only [List.forall_mem_cons, List.all_eq_true] at letters
  obtain ⟨⟨strict, strictBare⟩, ⟨alpha, alphaBare⟩, ⟨extra, extraBare⟩, -⟩ := letters
  simp only [lines, List.forall_mem_cons]
  exact ⟨.boolean strict strictBare _, .boolean alpha alphaBare _, .strings extra extraBare _,
    nofun⟩

/-- Whatever is listed in options, they are read from the text of their file, which is a document of
just their three fields, each with a value of its own sort. -/
theorem ofText_text (options : Options) :
    ofText options.text = .ok options ∧
      Toml.read? options.text = some [("strict", .boolean options.strict),
        ("round_alpha", .boolean options.roundAlpha),
        ("extra_attributes", .array (options.extraAttributes.map .string))] := by
  have distinct : (options.lines.map Toml.Line.name).Nodup := by
    change ["strict", "round_alpha", "extra_attributes"].Nodup
    decide
  have entries : Toml.read? options.text = some (options.lines.map Toml.Line.entry) := by
    rw [text, chars_eq, Toml.read?_lines options.sound_lines distinct]
  have strict : (options.lines.map Toml.Line.entry).lookup "strict" =
      some (.boolean options.strict) := rfl
  have roundAlpha : (options.lines.map Toml.Line.entry).lookup "round_alpha" =
      some (.boolean options.roundAlpha) := rfl
  have extraAttributes : (options.lines.map Toml.Line.entry).lookup "extra_attributes" =
      some (.array (options.extraAttributes.map .string)) := rfl
  have fields : read? options.text = some options := by
    simp only [read?, entries, field?, strict, roundAlpha, extraAttributes, Toml.boolean?,
      Toml.strings?_array, Option.bind_eq_bind, Option.bind_some]
    rfl
  exact ⟨by rw [ofText, fields], entries⟩

end Options
end Tracery
