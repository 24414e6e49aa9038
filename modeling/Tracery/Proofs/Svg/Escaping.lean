import Tracery.Proofs.Svg.Reading

/-! Escaped texts. No reserved character stands in one but the ampersands of its escapes, and a
text is the escape of another exactly if it is free of reserved characters in this way and the
other is what it reads as. -/

namespace Tracery.Svg

def entities : List (List Char) := reserved.map escapeChar

example : entities = ["&amp;", "&lt;", "&gt;", "&quot;", "&apos;"].map String.toList := by decide

theorem escapeChars_cons (c : Char) (text : List Char) :
    escapeChars (c :: text) = escapeChar c ++ escapeChars text := List.flatMap_cons

theorem escapeChars_append (text other : List Char) :
    escapeChars (text ++ other) = escapeChars text ++ escapeChars other := List.flatMap_append

/-! Where an ampersand stands in an escaped text, an escape begins. -/

theorem of_escapeChar_eq {c : Char} {before after : List Char}
    (split : escapeChar c = before ++ '&' :: after) : before = [] ∧ c ∈ reserved := by
  by_cases escaped : c ∈ reserved
  · obtain ⟨letters, written, plain⟩ := exists_escapeChar_eq escaped
    rw [written] at split
    cases before with
    | nil => exact ⟨rfl, escaped⟩
    | cons d before =>
        rw [List.cons_append, List.cons.injEq] at split
        exact absurd (by decide) (plain '&' (by simp [split.2]))
  · rw [escapeChar_of_not_mem escaped] at split
    have same : c = '&' := List.mem_singleton.mp (split ▸ by simp) |>.symm
    exact absurd (same ▸ by decide) escaped

theorem exists_entity_of_ampersand {text : List Char} (before : List Char) {after : List Char}
    (split : escapeChars text = before ++ '&' :: after) :
    ∃ entity ∈ entities, entity <+: '&' :: after := by
  induction text generalizing before with
  | nil => simp [escapeChars] at split
  | cons c text ih =>
      rw [escapeChars_cons, List.append_eq_append_iff] at split
      obtain ⟨more, -, later⟩ | ⟨more, here, rest⟩ := split
      · exact ih more later
      · cases more with
        | nil => exact ih [] rest.symm
        | cons d more =>
            obtain ⟨rfl, follows⟩ := List.cons.inj rest
            obtain ⟨rfl, escaped⟩ := of_escapeChar_eq here
            refine ⟨escapeChar c, List.mem_map_of_mem escaped, escapeChars text, ?_⟩
            rw [here, follows]
            rfl

/-! Reading a text gives one of which it is the escape. -/

theorem eq_escapeChars_of_unescape? {written text : List Char}
    (free : ∀ c ∈ written, c ∈ reserved → c = '&') (reads : unescape? written = some text) :
    written = escapeChars text := by
  fun_induction unescape? written generalizing text with
  | case1 =>
      cases reads
      rfl
  | case2 rest ih | case3 rest ih | case4 rest ih | case5 rest ih | case6 rest ih =>
      obtain ⟨content, read, rfl⟩ := Option.map_eq_some_iff.mp reads
      rw [escapeChars_cons, ← ih (fun c later => free c (by simp [later])) read]
      rfl
  | case7 => cases reads
  | case8 c rest _ _ _ _ _ plain ih =>
      obtain ⟨content, read, rfl⟩ := Option.map_eq_some_iff.mp reads
      have other : c ∉ reserved := fun listed => plain (free c List.mem_cons_self listed)
      rw [escapeChars_cons, ← ih (fun c later => free c (by simp [later])) read,
        escapeChar_of_not_mem other]
      rfl

/-- An escaped text holds no angle bracket and no quote, and each of its ampersands begins an
escape. Read from left to right it gives the text, and no other text free of reserved characters
does; so no two texts are escaped alike, and texts are escaped one part after the other. -/
theorem escape_readable (text : String) :
    (∀ c ∈ ['<', '>', '"', '\''], c ∉ (escape text).toList) ∧
      (∀ before after, (escape text).toList = before ++ '&' :: after →
        ∃ entity ∈ entities, entity <+: '&' :: after) ∧
      unescape? (escape text).toList = some text.toList ∧
      (∀ written : String, (∀ c ∈ written.toList, c ∈ reserved → c = '&') →
        unescape? written.toList = some text.toList → written = escape text) ∧
      (∀ other, escape other = escape text → other = text) ∧
      ∀ other, escape (text ++ other) = escape text ++ escape other := by
  have letters (source : String) : (escape source).toList = escapeChars source.toList :=
    String.toList_ofList
  have reads (source : String) : unescape? (escape source).toList = some source.toList := by
    rw [letters, unescape?_escapeChars]
  refine ⟨?_, ?_, reads text, ?_, ?_, ?_⟩
  · intro c listed member
    have others : ∀ d ∈ ['<', '>', '"', '\''], d ∈ reserved ∧ d ≠ '&' := by simp [reserved]
    rw [letters] at member
    exact (others c listed).2 (eq_ampersand_of_mem_escapeChars member (others c listed).1)
  · intro before after split
    exact exists_entity_of_ampersand before (letters text ▸ split)
  · intro written free given
    rw [← String.toList_inj, letters]
    exact eq_escapeChars_of_unescape? free given
  · intro other same
    have content := (reads other).symm.trans (same ▸ reads text)
    exact String.toList_inj.mp (Option.some.inj content)
  · intro other
    rw [← String.toList_inj, letters, String.toList_append, String.toList_append, letters,
      letters, escapeChars_append]

theorem escape_readable_ampersands :
    let text := "&amp;lt; & 'lt;"
    let before := "&amp;amp;lt; ".toList
    let after := "amp; &apos;lt;".toList
    (escape text).toList = before ++ '&' :: after ∧
      (∃ entity ∈ entities, entity <+: '&' :: after) ∧
      unescape? (escape text).toList = some text.toList := by
  intro text before after
  have split : (escape text).toList = before ++ '&' :: after := by decide
  obtain ⟨-, begins, reads, -⟩ := escape_readable text
  exact ⟨split, begins before after split, reads⟩

end Tracery.Svg
