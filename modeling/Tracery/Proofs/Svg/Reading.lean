import Tracery.Proofs.Svg.Serialization
import Tracery.Proofs.Text

/-! Markup read back. One reader gives the tree of every element whose tags and
attribute names are names, whatever texts and attribute values are made of. -/

namespace Tracery.Svg

def isNameChar (c : Char) : Bool :=
  !Text.isBlank c && !(['<', '>', '/', '=', '&', '"', '\''].contains c)

def isName (name : String) : Bool :=
  !name.toList.isEmpty && name.toList.all isNameChar

/-- A text without its escapes. An ampersand that begins none is refused. -/
def unescape? : List Char → Option (List Char)
  | [] => some []
  | '&' :: 'a' :: 'm' :: 'p' :: ';' :: rest => (unescape? rest).map ('&' :: ·)
  | '&' :: 'l' :: 't' :: ';' :: rest => (unescape? rest).map ('<' :: ·)
  | '&' :: 'g' :: 't' :: ';' :: rest => (unescape? rest).map ('>' :: ·)
  | '&' :: 'q' :: 'u' :: 'o' :: 't' :: ';' :: rest =>
      (unescape? rest).map ('"' :: ·)
  | '&' :: 'a' :: 'p' :: 'o' :: 's' :: ';' :: rest =>
      (unescape? rest).map ('\'' :: ·)
  | c :: rest => if c = '&' then none else (unescape? rest).map (c :: ·)

def readAttribute? (text : List Char) :
    Option ((String × String) × List Char) :=
  match text.span isNameChar with
  | (name, '=' :: '"' :: rest) =>
      match rest.span (· != '"') with
      | (value, '"' :: rest) =>
          (unescape? value).map fun value =>
            ((String.ofList name, String.ofList value), rest)
      | _ => none
  | _ => none

def readAttributes? : Nat → List Char →
    Option (List (String × String) × List Char)
  | limit + 1, ' ' :: rest => do
      let (first, rest) ← readAttribute? rest
      let (others, rest) ← readAttributes? limit rest
      return (first :: others, rest)
  | _, text => some ([], text)

def splitStyle (attrs : List (String × String)) :
    List (String × String) × Option String :=
  match attrs.getLast? with
  | some ("style", style) => (attrs.dropLast, some style)
  | _ => (attrs, none)

namespace Tree

mutual
/-- A tree at the start of a text, at most so many levels and siblings. -/
def read? : Nat → List Char → Option (Tree × List Char)
  | limit + 1, '<' :: rest => do
      let (tag, rest) := rest.span isNameChar
      let (shown, rest) ← readAttributes? rest.length rest
      let (attrs, style) := splitStyle shown
      match rest with
      | '/' :: '>' :: rest =>
          return (⟨String.ofList tag, attrs, style, none, []⟩, rest)
      | '>' :: rest =>
          let (text, rest) := rest.span (· != '<')
          let text ← unescape? text
          let (children, rest) ← readAll? limit rest
          let rest ← rest.dropPrefix? (endTagMarkup (String.ofList tag))
          let text := if text.isEmpty && !children.isEmpty then none
            else some (String.ofList text)
          return (⟨String.ofList tag, attrs, style, text, children⟩, rest)
      | _ => none
  | _, _ => none
termination_by structural limit => limit

def readAll? : Nat → List Char → Option (List Tree × List Char)
  | 0, _ => none
  | limit + 1, text =>
      match text with
      | '<' :: '/' :: rest => some ([], '<' :: '/' :: rest)
      | text => do
          let (first, rest) ← read? limit text
          let (others, rest) ← readAll? limit rest
          return (first :: others, rest)
termination_by structural limit => limit
end

def ofMarkup? (text : String) : Option Tree :=
  match read? text.toList.length text.toList with
  | some (tree, []) => some tree
  | _ => none

mutual
/-- Whether tags and attribute names are names, and no attribute is called as
the style is. -/
def isPlain : Tree → Bool
  | ⟨tag, attrs, _, _, children⟩ =>
      isName tag && attrs.all (fun (name, _) => isName name && name != "style") &&
        allPlain children
termination_by structural tree => tree

def allPlain : List Tree → Bool
  | [] => true
  | tree :: rest => tree.isPlain && allPlain rest
termination_by structural trees => trees
end

mutual
/-- What markup tells of a tree: an empty text beside children is none. -/
def readable : Tree → Tree
  | ⟨tag, attrs, style, text, children⟩ =>
      ⟨tag, attrs, style,
        if text = some "" && !children.isEmpty then none else text,
        readableAll children⟩
termination_by structural tree => tree

def readableAll : List Tree → List Tree
  | [] => []
  | tree :: rest => tree.readable :: readableAll rest
termination_by structural trees => trees
end

end Tree

theorem unescape?_cons {c : Char} (plain : c ≠ '&') (rest : List Char) :
    unescape? (c :: rest) = (unescape? rest).map (c :: ·) := by
  conv_lhs => unfold unescape?
  split <;> simp_all

theorem unescape?_escapeChar (c : Char) (rest : List Char) :
    unescape? (escapeChar c ++ rest) = (unescape? rest).map (c :: ·) := by
  unfold escapeChar
  split
  · simp [unescape?]
  · simp [unescape?]
  · simp [unescape?]
  · simp [unescape?]
  · simp [unescape?]
  · exact unescape?_cons (by assumption) rest

@[simp] theorem unescape?_escapeChars (text : List Char) :
    unescape? (escapeChars text) = some text := by
  induction text with
  | nil => simp [escapeChars, unescape?]
  | cons c rest ih =>
      rw [escapeChars, List.flatMap_cons, unescape?_escapeChar, ← escapeChars, ih]
      rfl

def reserved : List Char := ['&', '<', '>', '"', '\'']

theorem exists_escapeChar_eq {c : Char} (listed : c ∈ reserved) :
    ∃ letters, escapeChar c = '&' :: letters ∧ ∀ d ∈ letters, d ∉ reserved := by
  have plain {letters : List Char} (other : letters.all (!reserved.contains ·) = true) :
      ∀ d ∈ letters, d ∉ reserved := by simpa using other
  simp only [reserved, List.mem_cons, List.not_mem_nil, or_false] at listed
  rcases listed with rfl | rfl | rfl | rfl | rfl
  all_goals exact ⟨_, rfl, plain (by decide)⟩

theorem escapeChar_of_not_mem {c : Char} (plain : c ∉ reserved) : escapeChar c = [c] := by
  simp only [reserved, List.mem_cons, List.not_mem_nil, or_false, not_or] at plain
  unfold escapeChar
  split <;> simp_all

theorem eq_ampersand_of_mem_escapeChars {text : List Char} {c : Char}
    (member : c ∈ escapeChars text) (listed : c ∈ reserved) : c = '&' := by
  obtain ⟨source, -, inside⟩ := List.mem_flatMap.mp member
  by_cases escaped : source ∈ reserved
  · obtain ⟨letters, written, plain⟩ := exists_escapeChar_eq escaped
    rw [written, List.mem_cons] at inside
    exact inside.resolve_right fun later => plain c later listed
  · rw [escapeChar_of_not_mem escaped, List.mem_singleton] at inside
    exact absurd (inside ▸ listed) escaped

theorem span_value (value : List Char) (rest : List Char) :
    (escapeChars value ++ '"' :: rest).span (· != '"') =
      (escapeChars value, '"' :: rest) := by
  apply Text.span_append
  · intro c member
    rw [bne_iff_ne]
    rintro rfl
    cases eq_ampersand_of_mem_escapeChars member (by decide)
  · simp

theorem span_text (text : List Char) (rest : List Char) :
    (escapeChars text ++ '<' :: rest).span (· != '<') =
      (escapeChars text, '<' :: rest) := by
  apply Text.span_append
  · intro c member
    rw [bne_iff_ne]
    rintro rfl
    cases eq_ampersand_of_mem_escapeChars member (by decide)
  · simp

theorem span_name {name : String} (named : isName name = true)
    {rest : List Char} (stop : ∀ c ∈ rest.head?, isNameChar c = false) :
    (name.toList ++ rest).span isNameChar = (name.toList, rest) := by
  simp only [isName, Bool.and_eq_true, List.all_eq_true] at named
  exact Text.span_append named.2 stop

theorem readAttribute?_markup {name : String} (named : isName name = true)
    (value : String) (rest : List Char) :
    readAttribute? (name.toList ++ '=' :: '"' ::
      (escapeChars value.toList ++ '"' :: rest)) = some ((name, value), rest) := by
  have stop : ∀ c ∈ ('=' :: '"' :: (escapeChars value.toList ++ '"' :: rest)).head?,
      isNameChar c = false := by
    rintro c ⟨⟩
    decide
  unfold readAttribute?
  rw [span_name named stop]
  simp only [span_value, unescape?_escapeChars, Option.map_some,
    String.ofList_toList]

def attributesMarkup (attrs : List (String × String)) : List Char :=
  attrs.flatMap fun (name, value) => attributeMarkup name value

theorem attributesMarkup_cons_append (name value : String)
    (others : List (String × String)) (rest : List Char) :
    attributesMarkup ((name, value) :: others) ++ rest =
      ' ' :: (name.toList ++ '=' :: '"' ::
        (escapeChars value.toList ++ '"' :: (attributesMarkup others ++ rest))) := by
  simp [attributesMarkup, attributeMarkup]

theorem length_le_attributesMarkup (attrs : List (String × String)) :
    attrs.length ≤ (attributesMarkup attrs).length := by
  induction attrs with
  | nil => simp
  | cons attr others ih =>
      have split := attributesMarkup_cons_append attr.1 attr.2 others []
      rw [List.append_nil, List.append_nil] at split
      rw [split]
      simp only [List.length_cons, List.length_append]
      omega

def EndsTag (rest : List Char) : Prop :=
  ∃ c ∈ rest.head?, c = '/' ∨ c = '>'

theorem readAttributes?_markup {attrs : List (String × String)}
    (named : ∀ attr ∈ attrs, isName attr.1 = true) {limit : Nat}
    (enough : attrs.length ≤ limit) {rest : List Char} (ends : EndsTag rest) :
    readAttributes? limit (attributesMarkup attrs ++ rest) = some (attrs, rest) := by
  induction attrs generalizing limit with
  | nil =>
      cases rest with
      | nil => simp [EndsTag] at ends
      | cons c rest =>
          have blank : c ≠ ' ' := by
            rintro rfl
            simp [EndsTag] at ends
          cases limit <;> simp [attributesMarkup, readAttributes?, blank]
  | cons attr others ih =>
      obtain ⟨name, value⟩ := attr
      cases limit with
      | zero => simp at enough
      | succ limit =>
          have first := readAttribute?_markup (named (name, value) (by simp)) value
            (attributesMarkup others ++ rest)
          have later := ih (fun attr member => named attr (by simp [member]))
            (Nat.le_of_succ_le_succ enough)
          rw [attributesMarkup_cons_append]
          simp only [readAttributes?, first, later, Option.bind_eq_bind,
            Option.bind_some, Option.pure_def]

def shown (attrs : List (String × String)) (style : Option String) :
    List (String × String) :=
  attrs ++ (style.map fun style => ("style", style)).toList

/-- The style is told from the attributes because none is called as it is. -/
theorem splitStyle_shown {attrs : List (String × String)}
    (plain : ∀ attr ∈ attrs, attr.1 ≠ "style") (style : Option String) :
    splitStyle (shown attrs style) = (attrs, style) := by
  cases style with
  | some style => simp [splitStyle, shown]
  | none =>
      simp only [shown, Option.map_none, Option.toList_none, List.append_nil,
        splitStyle]
      split
      · next last => exact absurd rfl (plain _ (List.mem_of_getLast? last))
      · rfl

theorem tagMarkup_eq (tag : String) (attrs : List (String × String)) :
    tagMarkup tag attrs = '<' :: (tag.toList ++ attributesMarkup attrs) := by
  simp [tagMarkup, attributesMarkup]

namespace Tree

theorem isName_of_shown {attrs : List (String × String)}
    (named : ∀ attr ∈ attrs, isName attr.1 = true) (style : Option String) :
    ∀ attr ∈ shown attrs style, isName attr.1 = true := by
  intro attr member
  rcases List.mem_append.mp member with own | added
  · exact named attr own
  · obtain ⟨style, -, rfl⟩ := by simpa using added
    show isName "style" = true
    decide

theorem span_tag {tag : String} (named : isName tag = true)
    {attrs : List (String × String)} {rest : List Char} (ends : EndsTag rest) :
    (tag.toList ++ (attributesMarkup attrs ++ rest)).span isNameChar =
      (tag.toList, attributesMarkup attrs ++ rest) := by
  apply span_name named
  cases attrs with
  | nil =>
      obtain ⟨c, first, kind⟩ := ends
      have head : rest.head? = some c := first
      intro other same
      obtain rfl : c = other := by
        simpa [attributesMarkup, head] using same
      rcases kind with rfl | rfl <;> decide
  | cons attr others =>
      rw [attributesMarkup_cons_append]
      rintro c ⟨⟩
      decide

theorem markup_bare (tag : String) (attrs : List (String × String))
    (style : Option String) (rest : List Char) :
    markup ⟨tag, attrs, style, none, []⟩ ++ rest =
      '<' :: (tag.toList ++
        (attributesMarkup (shown attrs style) ++ '/' :: '>' :: rest)) := by
  simp [markup, tagMarkup_eq, shown]

theorem markup_filled (tag : String) (attrs : List (String × String))
    (style text : Option String) {children : List Tree}
    (filled : (children.isEmpty && text.isNone) = false) (rest : List Char) :
    markup ⟨tag, attrs, style, text, children⟩ ++ rest =
      '<' :: (tag.toList ++ (attributesMarkup (shown attrs style) ++
        '>' :: (escapeChars (text.getD "").toList ++
          (markupAll children ++ (endTagMarkup tag ++ rest))))) := by
  simp only [markup, filled, tagMarkup_eq, shown]
  simp

theorem exists_markupAll_append (trees : List Tree) (rest : List Char) :
    ∃ more, markupAll trees ++ '<' :: rest = '<' :: more := by
  cases trees with
  | nil => exact ⟨rest, by simp [markupAll]⟩
  | cons tree others =>
      obtain ⟨tag, attrs, style, text, children⟩ := tree
      cases filled : children.isEmpty && text.isNone with
      | true =>
          obtain ⟨rfl, rfl⟩ : children = [] ∧ text = none := by simpa using filled
          exact ⟨_, by rw [markupAll, List.append_assoc, markup_bare]⟩
      | false =>
          exact ⟨_, by rw [markupAll, List.append_assoc, markup_filled _ _ _ _ filled]⟩

theorem isPlain_mk {tag : String} {attrs : List (String × String)}
    {style text : Option String} {children : List Tree}
    (plain : isPlain ⟨tag, attrs, style, text, children⟩ = true) :
    isName tag = true ∧ (∀ attr ∈ attrs, isName attr.1 = true) ∧
      (∀ attr ∈ attrs, attr.1 ≠ "style") ∧ allPlain children = true := by
  simp only [isPlain, Bool.and_eq_true, List.all_eq_true, bne_iff_ne] at plain
  exact ⟨plain.1.1, fun attr member => (plain.1.2 attr member).1,
    fun attr member => (plain.1.2 attr member).2, plain.2⟩

/-- A child is told from an end tag by its first two characters. -/
theorem markup_append_ne_end {tree : Tree} (plain : tree.isPlain = true)
    (rest after : List Char) : tree.markup ++ rest ≠ '<' :: '/' :: after := by
  obtain ⟨tag, attrs, style, text, children⟩ := tree
  have named := (isPlain_mk plain).1
  simp only [isName, Bool.and_eq_true, Bool.not_eq_true', List.isEmpty_eq_false_iff,
    List.all_eq_true] at named
  obtain ⟨c, more, split⟩ := List.exists_cons_of_ne_nil named.1
  have inside : isNameChar c = true := named.2 c (by simp [split])
  have different : c ≠ '/' := by
    rintro rfl
    exact absurd inside (by decide)
  cases filled : children.isEmpty && text.isNone with
  | true =>
      obtain ⟨rfl, rfl⟩ : children = [] ∧ text = none := by simpa using filled
      rw [markup_bare, split]
      simp [different]
  | false =>
      rw [markup_filled _ _ _ _ filled, split]
      simp [different]

@[simp] theorem isEmpty_readableAll (trees : List Tree) :
    (readableAll trees).isEmpty = trees.isEmpty := by
  cases trees <;> simp [readableAll]

/-- The text that is read says whether there was one, unless there are children
and it is empty. -/
theorem readableText {text : Option String} {children : List Tree}
    (filled : (children.isEmpty && text.isNone) = false) :
    (if (text.getD "").toList.isEmpty && !(readableAll children).isEmpty then none
      else some (text.getD "")) =
      if text = some "" && !children.isEmpty then none else text := by
  cases text with
  | none =>
      have inhabited : children.isEmpty = false := by simpa using filled
      simp [inhabited]
  | some content =>
      by_cases blank : content = ""
      · simp [blank]
      · simp [blank]

theorem size_pos (tree : Tree) : 0 < tree.size := by
  cases tree
  simp [size]

mutual
theorem read?_markup (tree : Tree) (plain : tree.isPlain = true) (limit : Nat)
    (enough : 2 * tree.size ≤ limit) (rest : List Char) :
    read? limit (tree.markup ++ rest) = some (tree.readable, rest) := by
  obtain ⟨tag, attrs, style, text, children⟩ := tree
  obtain ⟨named, attrsNamed, unstyled, below⟩ := isPlain_mk plain
  have tagRead : ∀ rest, EndsTag rest →
      readAttributes? (attributesMarkup (shown attrs style) ++ rest).length
        (attributesMarkup (shown attrs style) ++ rest) =
          some (shown attrs style, rest) := by
    intro rest ends
    apply readAttributes?_markup (isName_of_shown attrsNamed style) _ ends
    rw [List.length_append]
    exact Nat.le_add_right_of_le (length_le_attributesMarkup _)
  simp only [size] at enough
  cases limit with
  | zero => omega
  | succ limit =>
      cases filled : children.isEmpty && text.isNone with
      | true =>
          obtain ⟨rfl, rfl⟩ : children = [] ∧ text = none := by simpa using filled
          have ends : EndsTag ('/' :: '>' :: rest) := ⟨'/', rfl, .inl rfl⟩
          rw [markup_bare, read?, span_tag named ends]
          simp only [tagRead _ ends, splitStyle_shown unstyled, Option.bind_eq_bind,
            Option.bind_some]
          simp [readable, readableAll]
      | false =>
          have inner := readAll?_markup children below limit (by omega)
            (tag.toList ++ ['>'] ++ rest)
          obtain ⟨more, order⟩ := exists_markupAll_append children
            ('/' :: (tag.toList ++ ['>'] ++ rest))
          have closes : endTagMarkup tag ++ rest =
              '<' :: '/' :: (tag.toList ++ ['>'] ++ rest) := rfl
          have ended : (endTagMarkup tag ++ rest).dropPrefix? (endTagMarkup tag) =
              some rest := List.dropPrefix?_eq_some_iff.mpr ⟨_, rfl, by simp⟩
          have ends : ∀ rest, EndsTag ('>' :: rest) :=
            fun rest => ⟨'>', rfl, .inr rfl⟩
          rw [markup_filled _ _ _ _ filled, closes, order, read?,
            span_tag named (ends _)]
          simp only [tagRead _ (ends _), splitStyle_shown unstyled, span_text,
            unescape?_escapeChars, Option.bind_eq_bind, Option.bind_some]
          rw [← order, inner]
          simp only [Option.bind_some, String.ofList_toList, ← closes, ended,
            Option.pure_def, readable, readableText filled]
termination_by structural tree

theorem readAll?_markup (trees : List Tree) (plain : allPlain trees = true)
    (limit : Nat) (enough : 2 * sizeAll trees + 1 ≤ limit) (rest : List Char) :
    readAll? limit (markupAll trees ++ '<' :: '/' :: rest) =
      some (readableAll trees, '<' :: '/' :: rest) := by
  cases limit with
  | zero => omega
  | succ limit =>
      cases trees with
      | nil => simp [markupAll, readAll?, readableAll]
      | cons tree others =>
          simp only [allPlain, Bool.and_eq_true] at plain
          simp only [sizeAll] at enough
          have positive := tree.size_pos
          have first := read?_markup tree plain.1 limit (by omega)
            (markupAll others ++ '<' :: '/' :: rest)
          have later := readAll?_markup others plain.2 limit (by omega) rest
          rw [markupAll, List.append_assoc, readAll?]
          · simp only [first, later, Option.bind_eq_bind, Option.bind_some]
            simp [readableAll]
          · exact markup_append_ne_end plain.1 _
termination_by structural trees
end

mutual
theorem two_mul_size_le (tree : Tree) : 2 * tree.size ≤ tree.markup.length := by
  obtain ⟨tag, attrs, style, text, children⟩ := tree
  have inner := two_mul_sizeAll_le children
  rw [← List.append_nil (markup _), size]
  cases filled : children.isEmpty && text.isNone with
  | true =>
      obtain ⟨rfl, rfl⟩ : children = [] ∧ text = none := by simpa using filled
      rw [markup_bare]
      simp only [sizeAll, List.length_cons, List.length_append]
      omega
  | false =>
      rw [markup_filled _ _ _ _ filled]
      simp only [List.length_cons, List.length_append]
      omega
termination_by structural tree

theorem two_mul_sizeAll_le (trees : List Tree) :
    2 * sizeAll trees ≤ (markupAll trees).length := by
  cases trees with
  | nil => simp [sizeAll]
  | cons tree others =>
      have first := two_mul_size_le tree
      have later := two_mul_sizeAll_le others
      simp only [sizeAll, markupAll, List.length_append]
      omega
termination_by structural trees
end

theorem ofMarkup?_of_isPlain {tree : Tree} (plain : tree.isPlain = true) :
    ofMarkup? (String.ofList tree.markup) = some tree.readable := by
  have read := read?_markup tree plain _ tree.two_mul_size_le []
  rw [List.append_nil] at read
  rw [ofMarkup?, String.toList_ofList, read]

end Tree

namespace Document

/-- One reader gives back the tree of every element in every document that was
edited, if tags and attribute names are names: no text and no attribute value is
taken for structure. Equal markup therefore comes from equal trees. -/
theorem ofMarkup?_markup (edits : List Edit) (id : Nat)
    (existing : ((edited edits).get? id).isSome) :
    ∃ tree, (edited edits).Shows id tree ∧
      (tree.isPlain = true →
        Tree.ofMarkup? ((edited edits).markup id) = some tree.readable ∧
        ∀ others other otherTree, (edited others).Shows other otherTree →
          otherTree.isPlain = true →
          (edited others).markup other = (edited edits).markup id →
          otherTree.readable = tree.readable) := by
  have read : ∀ edits id tree, (edited edits).Shows id tree →
      tree.isPlain = true →
      Tree.ofMarkup? ((edited edits).markup id) = some tree.readable := by
    intro edits id tree shows plain
    rw [(edited_forest edits).markup_eq shows]
    exact Tree.ofMarkup?_of_isPlain plain
  obtain ⟨tree, shows⟩ := (edited_forest edits).exists_shows existing
  refine ⟨tree, shows, fun plain => ⟨read edits id tree shows plain, ?_⟩⟩
  intro others other otherTree otherShows otherPlain same
  have otherRead := read others other otherTree otherShows otherPlain
  rw [same, read edits id tree shows plain] at otherRead
  exact (Option.some.inj otherRead).symm

theorem ofMarkup?_markup_quoted :
    let d := edited [.createElement "g", .createElement "text",
      .setAttribute 1 "class" "\"/><b x='&amp;'", .setText 1 "</text>&lt;",
      .append 0 1, .setText 0 ""]
    (d.get? 0).isSome ∧ ∃ tree, d.Shows 0 tree ∧ tree.isPlain = true ∧
      Tree.ofMarkup? (d.markup 0) = some ⟨"g", [], none, none,
        [⟨"text", [("class", "\"/><b x='&amp;'")], none, some "</text>&lt;", []⟩]⟩ := by
  intro d
  have existing : (d.get? 0).isSome := by decide
  obtain ⟨tree, shows, read⟩ := ofMarkup?_markup _ 0 existing
  have same : tree = ⟨"g", [], none, some "",
      [⟨"text", [("class", "\"/><b x='&amp;'")], none, some "</text>&lt;", []⟩]⟩ := by
    have outer : d.get? 0 = some ⟨"g", .empty, .empty, some "", [1], none⟩ := rfl
    have inner : d.get? 1 = some
        ⟨"text", OrderedMap.empty.insert "class" "\"/><b x='&amp;'", .empty,
          some "</text>&lt;", [], some 0⟩ := rfl
    exact shows.unique (.element outer (.cons (.element inner .nil) .nil))
  subst same
  exact ⟨existing, _, shows, by decide, (read (by decide)).1⟩

end Document
end Tracery.Svg
