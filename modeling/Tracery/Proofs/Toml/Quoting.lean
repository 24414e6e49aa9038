import Mathlib.Data.Option.Basic
import Mathlib.Tactic.IntervalCases
import Mathlib.Tactic.SplitIfs
import Mathlib.Tactic.Tauto
import Tracery.Proofs.Text
import Tracery.Toml.Quoted

/-! Quoted strings read back. In whichever of the styles a string is written, it is read up to its
closing quotes, as long as no further quote follows them. -/

namespace Tracery.Toml

@[simp] theorem Scan.cons_some (c : Char) (content rest : List Char) :
    Scan.cons c (some (content, rest)) = some (c :: content, rest) := rfl

/-- A reader of strings that knows the escapes which strings are written with. -/
structure KnowsEscapes (scan : List Char → Scan) : Prop where
  letter {letter c : Char} (named : escaped? letter = some c) (rest : List Char) :
    scan ('\\' :: letter :: rest) = (scan rest).cons c
  number (a b c d : Char) (rest : List Char) :
    scan ('\\' :: 'u' :: a :: b :: c :: d :: rest) =
      (scalar? [a, b, c, d]).bind fun char => (scan rest).cons char

/-- The letters of escapes begin no number and no end of line. -/
theorem of_escaped? {letter c : Char} (named : escaped? letter = some c) :
    letter ∉ ['u', 'U', '\r'] ∧ ∀ rest, endsLine (letter :: rest) = false := by
  unfold escaped? at named
  split at named
  case h_8 => cases named
  all_goals exact ⟨by decide, fun _ => rfl⟩

theorem knowsEscapes_scanBasic : KnowsEscapes scanBasic where
  letter := by
    intro letter c named rest
    have other := (of_escaped? named).1
    rw [scanBasic]
    · rw [named, Option.bind_some]
    · rintro - - - - - rfl
      simp at other
    · rintro - - - - - - - - - rfl
      simp at other
  number a b c d rest := by rw [scanBasic]

theorem knowsEscapes_scanLongBasic : KnowsEscapes (scanLongBasic false) where
  letter := by
    intro letter c named rest
    obtain ⟨other, inside⟩ := of_escaped? named
    rw [scanLongBasic]
    · rw [inside, named, Option.bind_some]
      rfl
    · rintro - - - - - rfl
      simp at other
    · rintro - - - - - - - - - rfl
      simp at other
    · rintro - rfl
      simp at other
  number a b c d rest := by rw [scanLongBasic]

theorem scalar?_hexDigits {c : Char} (small : c.toNat < 256) :
    scalar? ['0', '0', (Text.hexDigit (c.toNat / 16)).toUpper,
      (Text.hexDigit (c.toNat % 16)).toUpper] = some c := by
  have zero : Text.hexValue? '0' = some 0 := by decide
  have high := Text.hexValue?_toUpper_hexDigit (n := c.toNat / 16) (by omega)
  have low := Text.hexValue?_toUpper_hexDigit (n := c.toNat % 16) (by omega)
  have valid : c.toNat.isValidChar := c.valid
  have value : 16 * (c.toNat / 16) + c.toNat % 16 = c.toNat := Nat.div_add_mod ..
  simp [scalar?, Text.hexNumber?, zero, high, low, value, valid]

theorem isControl_iff {c : Char} :
    isControl c = true ↔ c.toNat < 0x20 ∧ c ≠ '\t' ∧ c ≠ '\n' ∨ c.toNat = 0x7F := by
  simp [isControl, and_assoc]

theorem KnowsEscapes.escapeCode {scan : List Char → Scan} (knows : KnowsEscapes scan) {c : Char}
    (coded : isControl c = true ∨ c ∈ ['"', '\n', '\t', '\\']) (rest : List Char) :
    scan (escapeCode c ++ rest) = (scan rest).cons c := by
  unfold Toml.escapeCode
  split
  case h_8 =>
    have control : isControl c = true := by simp_all
    have small : c.toNat < 256 := by
      rcases isControl_iff.mp control with ⟨low, -⟩ | delete <;> omega
    simp only [List.cons_append, List.nil_append, knows.number, scalar?_hexDigits small,
      Option.bind_some]
  all_goals exact knows.letter rfl rest

/-- How a character is written behind so many quotes, and how many quotes are then in a row. -/
inductive Written (long : Bool) (run : Nat) (c : Char) : List Char → Nat → Prop
  | quote (kept : long = true) (few : run < 2) (same : c = '"') : Written long run c ['"'] (run + 1)
  | code (coded : isControl c = true ∨ c ∈ ['"', '\n', '\t', '\\']) :
      Written long run c (escapeCode c) 0
  | plain (printed : isControl c = false) (other : c ≠ '"' ∧ c ≠ '\\')
      (line : c = '\n' → long = true) : Written long run c [c] 0

theorem exists_written (long : Bool) (run : Nat) (c : Char) (content : List Char) :
    ∃ spelled next, Written long run c spelled next ∧
      escapeBasic long run (c :: content) = spelled ++ escapeBasic long next content := by
  rw [escapeBasic]
  split_ifs with quote kept line coded
  · rw [Bool.and_eq_true, decide_eq_true_eq] at kept
    exact ⟨_, _, .quote kept.1 kept.2 quote, rfl⟩
  · exact ⟨_, _, .code (.inr (by simp [quote])), by rw [quote]; rfl⟩
  · obtain ⟨rfl, long⟩ := line
    exact ⟨_, _, .plain (by decide) (by decide) fun _ => long, rfl⟩
  · refine ⟨_, _, .code ?_, rfl⟩
    simp only [Bool.or_eq_true, beq_iff_eq] at coded
    simp only [List.mem_cons, List.not_mem_nil, or_false]
    tauto
  · simp only [Bool.or_eq_true, beq_iff_eq, not_or, Bool.not_eq_true] at coded
    exact ⟨_, _, .plain coded.1.1.1 ⟨quote, coded.2⟩ fun same => absurd same coded.1.1.2, rfl⟩

theorem escapeCode_head? (c : Char) : (escapeCode c).head? = some '\\' := by
  unfold escapeCode
  split <;> rfl

theorem Written.of_quote_ahead {long : Bool} {run next : Nat} {c : Char} {spelled text : List Char}
    (written : Written long run c spelled next) (ahead : ['"'] <+: spelled ++ text) :
    long = true ∧ run < 2 ∧ c = '"' ∧ spelled = ['"'] ∧ next = run + 1 := by
  cases written with
  | quote kept few same => exact ⟨kept, few, same, rfl, rfl⟩
  | code coded =>
      obtain ⟨rest, whole⟩ := ahead
      have first := congrArg List.head? whole
      rw [List.head?_append, List.head?_append, escapeCode_head?] at first
      cases first
  | plain printed other => exact absurd (List.cons_prefix_cons.mp ahead).1.symm other.1

theorem scanBasic_plain {c : Char} (printed : isControl c = false) (other : c ≠ '"' ∧ c ≠ '\\')
    (line : c ≠ '\n') (rest : List Char) : scanBasic (c :: rest) = (scanBasic rest).cons c := by
  conv_lhs => unfold scanBasic
  split <;> simp_all

theorem scanBasic_escapeBasic (content rest : List Char) :
    scanBasic (escapeBasic false 0 content ++ '"' :: rest) = some (content, rest) := by
  induction content with
  | nil => rw [escapeBasic, List.nil_append, scanBasic]
  | cons c content ih =>
      obtain ⟨spelled, next, written, begins⟩ := exists_written false 0 c content
      rw [begins, List.append_assoc]
      cases written with
      | quote kept => cases kept
      | code coded => rw [knowsEscapes_scanBasic.escapeCode coded, ih, Scan.cons_some]
      | plain printed other line =>
          have inside : c ≠ '\n' := fun same => by cases line same
          rw [List.singleton_append, scanBasic_plain printed other inside, ih, Scan.cons_some]

theorem scanLongBasic_plain {c : Char} (printed : isControl c = false)
    (other : c ≠ '"' ∧ c ≠ '\\') (rest : List Char) :
    scanLongBasic false (c :: rest) = (scanLongBasic false rest).cons c := by
  have carriage : c ≠ '\r' := by
    rintro rfl
    cases printed
  conv_lhs => unfold scanLongBasic
  split <;> simp_all

/-! Quotes within long strings. Three in a row close one, and up to two more may stand ahead of
these. -/

theorem scanLongBasic_quote {text : List Char} (few : ¬ ['"', '"'] <+: text) :
    scanLongBasic false ('"' :: text) = (scanLongBasic false text).cons '"' := by
  rw [scanLongBasic]
  · rfl
  · rintro rest - rfl
    exact few ⟨_, rfl⟩
  · rintro rest - rfl
    exact few ⟨_, rfl⟩
  · rintro rest - rfl
    exact few ⟨_, rfl⟩
  all_goals simp

theorem scanLongBasic_close (run : Nat) (few : run ≤ 2) {rest : List Char}
    (stop : ∀ c ∈ rest.head?, c ≠ '"') :
    scanLongBasic false (List.replicate run '"' ++ ['"', '"', '"'] ++ rest) =
      some (List.replicate run '"', rest) := by
  interval_cases run
  all_goals
    cases rest with
    | nil => rfl
    | cons c rest =>
        have other : c ≠ '"' := stop c rfl
        simp [List.replicate, scanLongBasic, other]

/-- Where two quotes begin what is left of a string, nothing but quotes is left. -/
theorem eq_of_quotes_ahead {run : Nat} (positive : 0 < run) {content rest : List Char}
    (ahead : ['"', '"'] <+: escapeBasic true run content ++ ['"', '"', '"'] ++ rest) :
    content = [] ∨ run = 1 ∧ content = ['"'] := by
  cases content with
  | nil => exact .inl rfl
  | cons c content =>
      obtain ⟨spelled, next, written, begins⟩ := exists_written true run c content
      rw [begins, List.append_assoc, List.append_assoc] at ahead
      have first : ['"'] <+: ['"', '"'] := ⟨['"'], rfl⟩
      obtain ⟨-, few, rfl, rfl, rfl⟩ := written.of_quote_ahead (first.trans ahead)
      have single : run = 1 := by omega
      subst single
      have second := (List.cons_prefix_cons.mp ahead).2
      cases content with
      | nil => exact .inr ⟨rfl, rfl⟩
      | cons d content =>
          obtain ⟨spelled, next, written, begins⟩ := exists_written true 2 d content
          rw [begins, List.append_assoc] at second
          exact absurd (written.of_quote_ahead second).2.1 (by decide)

theorem scanLongBasic_escapeBasic (content : List Char) (run : Nat) {rest : List Char}
    (stop : ∀ c ∈ rest.head?, c ≠ '"') :
    scanLongBasic false (escapeBasic true run content ++ ['"', '"', '"'] ++ rest) =
      some (content, rest) := by
  induction content generalizing run with
  | nil => exact scanLongBasic_close 0 (by decide) stop
  | cons c content ih =>
      obtain ⟨spelled, next, written, begins⟩ := exists_written true run c content
      rw [begins, List.append_assoc, List.append_assoc]
      cases written with
      | quote kept few same =>
          obtain rfl := same
          by_cases ahead : ['"', '"'] <+:
              escapeBasic true (run + 1) content ++ ['"', '"', '"'] ++ rest
          · rcases eq_of_quotes_ahead (Nat.succ_pos run) ahead with rfl | ⟨first, rfl⟩
            · exact scanLongBasic_close 1 (by decide) stop
            · obtain rfl : run = 0 := by omega
              exact scanLongBasic_close 2 (by decide) stop
          · rw [List.append_assoc] at ahead
            rw [List.singleton_append, scanLongBasic_quote ahead, ← List.append_assoc, ih,
              Scan.cons_some]
      | code coded =>
          rw [knowsEscapes_scanLongBasic.escapeCode coded, ← List.append_assoc, ih,
            Scan.cons_some]
      | plain printed other =>
          rw [List.singleton_append, scanLongBasic_plain printed other, ← List.append_assoc, ih,
            Scan.cons_some]

theorem scanLiteral_append {content : List Char}
    (plain : ∀ c ∈ content, isControl c = false ∧ c ≠ '\n' ∧ c ≠ '\'') (rest : List Char) :
    scanLiteral (content ++ '\'' :: rest) = some (content, rest) := by
  induction content with
  | nil => rw [List.nil_append, scanLiteral]
  | cons c content ih =>
      rw [List.forall_mem_cons] at plain
      obtain ⟨⟨printed, line, quote⟩, plain⟩ := plain
      rw [List.cons_append, scanLiteral, ih plain]
      · simp [printed, line]
      · exact quote

theorem scanLongLiteral_plain {c : Char} (printed : isControl c = false) {text : List Char}
    (few : ¬ ['\'', '\'', '\''] <+: c :: text) :
    scanLongLiteral (c :: text) = (scanLongLiteral text).cons c := by
  have carriage : c ≠ '\r' := by
    rintro rfl
    cases printed
  rw [scanLongLiteral]
  · simp [printed]
  · rintro rest rfl rfl
    exact few ⟨_, rfl⟩
  · rintro rest rfl rfl
    exact few ⟨_, rfl⟩
  · rintro rest rfl rfl
    exact few ⟨_, rfl⟩
  · exact fun _ same => absurd same carriage

theorem scanLongLiteral_close (run : Nat) (few : run ≤ 2) {rest : List Char}
    (stop : ∀ c ∈ rest.head?, c ≠ '\'') :
    scanLongLiteral (List.replicate run '\'' ++ ['\'', '\'', '\''] ++ rest) =
      some (List.replicate run '\'', rest) := by
  interval_cases run
  all_goals
    cases rest with
    | nil => rfl
    | cons c rest =>
        have other : c ≠ '\'' := stop c rfl
        simp [List.replicate, scanLongLiteral, other]

theorem longestRun_mono {c : Char} {run more : Nat} (le : run ≤ more) (text : List Char) :
    longestRun c run text ≤ longestRun c more text := by
  induction text generalizing run more with
  | nil => exact le
  | cons d text ih =>
      rw [longestRun, longestRun]
      split
      · exact ih (Nat.succ_le_succ le)
      · exact max_le_max le le_rfl

theorem le_longestRun (c : Char) (run : Nat) (text : List Char) : run ≤ longestRun c run text := by
  induction text generalizing run with
  | nil => exact le_rfl
  | cons d text ih =>
      rw [longestRun]
      split
      · exact (Nat.le_succ run).trans (ih (run + 1))
      · exact le_max_left ..

theorem exists_eq_replicate_of_quotes_ahead {content rest : List Char}
    (few : longestRun '\'' 0 content ≤ 2)
    (ahead : ['\'', '\'', '\''] <+: content ++ ['\'', '\'', '\''] ++ rest) :
    ∃ run ≤ 2, content = List.replicate run '\'' := by
  obtain _ | ⟨a, _ | ⟨b, _ | ⟨c, content⟩⟩⟩ := content
  · exact ⟨0, by decide, rfl⟩
  · simp only [List.cons_append, List.cons_prefix_cons] at ahead
    obtain ⟨rfl, -⟩ := ahead
    exact ⟨1, by decide, rfl⟩
  · simp only [List.cons_append, List.cons_prefix_cons] at ahead
    obtain ⟨rfl, rfl, -⟩ := ahead
    exact ⟨2, by decide, rfl⟩
  · simp only [List.cons_append, List.cons_prefix_cons] at ahead
    obtain ⟨rfl, rfl, rfl, -⟩ := ahead
    simp only [longestRun, if_true] at few
    have three := (le_longestRun '\'' 3 content).trans few
    omega

theorem scanLongLiteral_append {content : List Char}
    (plain : ∀ c ∈ content, isControl c = false) (few : longestRun '\'' 0 content ≤ 2)
    {rest : List Char} (stop : ∀ c ∈ rest.head?, c ≠ '\'') :
    scanLongLiteral (content ++ ['\'', '\'', '\''] ++ rest) = some (content, rest) := by
  induction content with
  | nil => exact scanLongLiteral_close 0 (by decide) stop
  | cons c content ih =>
      have later : longestRun '\'' 0 content ≤ 2 := by
        rw [longestRun] at few
        split at few
        · exact (longestRun_mono (Nat.zero_le 1) content).trans few
        · exact (le_max_right ..).trans few
      by_cases ahead : ['\'', '\'', '\''] <+: c :: content ++ ['\'', '\'', '\''] ++ rest
      · obtain ⟨run, small, same⟩ := exists_eq_replicate_of_quotes_ahead few ahead
        rw [same]
        exact scanLongLiteral_close run small stop
      · rw [List.forall_mem_cons] at plain
        rw [List.cons_append, List.cons_append] at ahead ⊢
        rw [scanLongLiteral_plain plain.1 ahead, ih plain.2 later, Scan.cons_some]

theorem skipLineEnd_leadingLineEnd {content text : List Char}
    (solid : '\n' ∉ content → ∀ c ∈ text.head?, c ≠ '\n' ∧ c ≠ '\r') :
    skipLineEnd (leadingLineEnd true content ++ text) = text := by
  by_cases line : '\n' ∈ content
  · simp [leadingLineEnd, line, skipLineEnd]
  · have first := solid line
    rw [leadingLineEnd, if_neg (by simpa using line), List.nil_append]
    unfold skipLineEnd
    split <;> simp_all

def EndsQuote (rest : List Char) : Prop := ∀ c ∈ rest.head?, c ≠ '"' ∧ c ≠ '\''

/-- What is written of a string begins with no end of line that is not its own. -/
theorem of_mem_head?_escapeBasic {long : Bool} {run : Nat} {content text : List Char} {c : Char}
    (first : c ∈ (escapeBasic long run content ++ '"' :: text).head?) :
    isControl c = false ∧ (c = '\n' → '\n' ∈ content) := by
  have mark {d : Char} (listed : d ∈ ['"', '\\']) :
      isControl d = false ∧ (d = '\n' → '\n' ∈ content) := by
    simp only [List.mem_cons, List.not_mem_nil, or_false] at listed
    rcases listed with rfl | rfl <;> exact ⟨by decide, fun same => by cases same⟩
  cases content with
  | nil => exact mark (by simp [← Option.some.inj first])
  | cons d content =>
      obtain ⟨spelled, next, written, begins⟩ := exists_written long run d content
      rw [begins, List.append_assoc] at first
      cases written with
      | quote => exact mark (by simp [← Option.some.inj first])
      | code coded =>
          rw [List.head?_append, escapeCode_head?] at first
          exact mark (by simp [← Option.some.inj first])
      | plain printed =>
          obtain rfl : d = c := Option.some.inj first
          exact ⟨printed, fun same => same ▸ List.mem_cons_self⟩

theorem scanQuoted_quoteBasic (long : Bool) (content : List Char) {rest : List Char}
    (stop : EndsQuote rest) :
    scanQuoted (quoteBasic long content ++ rest) = some (content, rest) := by
  cases long with
  | true =>
      have written : quoteBasic true content ++ rest = '"' :: '"' :: '"' ::
          (leadingLineEnd true content ++
            (escapeBasic true 0 content ++ ['"', '"', '"'] ++ rest)) := by
        simp [quoteBasic, basicQuote]
      have solid : '\n' ∉ content →
          ∀ c ∈ (escapeBasic true 0 content ++ ['"', '"', '"'] ++ rest).head?,
            c ≠ '\n' ∧ c ≠ '\r' := by
        intro single c first
        rw [List.append_assoc] at first
        obtain ⟨printed, line⟩ := of_mem_head?_escapeBasic first
        refine ⟨fun same => single (line same), ?_⟩
        rintro rfl
        cases printed
      rw [written, scanQuoted, skipLineEnd_leadingLineEnd solid]
      exact scanLongBasic_escapeBasic content 0 fun c first => (stop c first).1
  | false =>
      have written : quoteBasic false content ++ rest =
          '"' :: (escapeBasic false 0 content ++ '"' :: rest) := by
        simp [quoteBasic, basicQuote, leadingLineEnd]
      have few : ¬ ['"', '"'] <+: escapeBasic false 0 content ++ '"' :: rest := by
        intro ahead
        cases content with
        | nil =>
            obtain ⟨others, rfl⟩ := (List.cons_prefix_cons.mp ahead).2
            exact (stop '"' rfl).1 rfl
        | cons c content =>
            obtain ⟨spelled, next, kept, begins⟩ := exists_written false 0 c content
            have first : ['"'] <+: ['"', '"'] := ⟨['"'], rfl⟩
            rw [begins, List.append_assoc] at ahead
            cases (kept.of_quote_ahead (first.trans ahead)).1
      rw [written, scanQuoted]
      · exact scanBasic_escapeBasic content rest
      · rintro others same
        exact few ⟨others, same.symm⟩

structure SparesEscapes (long : Bool) (content : List Char) : Prop where
  plain : ∀ c ∈ content, isControl c = false
  single : long = false → '\n' ∉ content ∧ '\'' ∉ content
  few : long = true → longestRun '\'' 0 content ≤ 2

theorem scanQuoted_quoteLiteral {long : Bool} {content : List Char}
    (spares : SparesEscapes long content) {rest : List Char} (stop : EndsQuote rest) :
    scanQuoted (quoteLiteral long content ++ rest) = some (content, rest) := by
  cases long with
  | true =>
      have written : quoteLiteral true content ++ rest = '\'' :: '\'' :: '\'' ::
          (leadingLineEnd true content ++ (content ++ ['\'', '\'', '\''] ++ rest)) := by
        simp [quoteLiteral, literalQuote]
      have solid : '\n' ∉ content →
          ∀ c ∈ (content ++ ['\'', '\'', '\''] ++ rest).head?, c ≠ '\n' ∧ c ≠ '\r' := by
        intro single c first
        cases content with
        | nil =>
            obtain rfl := Option.some.inj first
            simp
        | cons d content =>
            obtain rfl : d = c := Option.some.inj first
            refine ⟨fun same => single (same ▸ List.mem_cons_self), ?_⟩
            rintro rfl
            cases spares.plain _ List.mem_cons_self
      rw [written, scanQuoted, skipLineEnd_leadingLineEnd solid]
      exact scanLongLiteral_append spares.plain (spares.few rfl) fun c first => (stop c first).2
  | false =>
      obtain ⟨line, quote⟩ := spares.single rfl
      have written : quoteLiteral false content ++ rest =
          '\'' :: (content ++ '\'' :: rest) := by
        simp [quoteLiteral, literalQuote, leadingLineEnd]
      have inside : ∀ c ∈ content, isControl c = false ∧ c ≠ '\n' ∧ c ≠ '\'' := by
        intro c member
        refine ⟨spares.plain c member, ?_, ?_⟩
        · rintro rfl
          exact line member
        · rintro rfl
          exact quote member
      rw [written, scanQuoted]
      · exact scanLiteral_append inside rest
      · intro others same
        cases content with
        | nil =>
            obtain ⟨-, rfl⟩ := List.cons.inj same
            exact (stop '\'' rfl).2 rfl
        | cons c content =>
            obtain ⟨rfl, -⟩ := List.cons.inj same
            exact quote List.mem_cons_self

theorem scanQuoted_quote (content : List Char) {rest : List Char} (stop : EndsQuote rest) :
    scanQuoted (quote content ++ rest) = some (content, rest) := by
  unfold quote
  simp only
  split_ifs with short literal long longLiteral
  · exact scanQuoted_quoteBasic false content stop
  · have spares : SparesEscapes false content := ⟨by simp_all, by simp_all, nofun⟩
    exact scanQuoted_quoteLiteral spares stop
  · exact scanQuoted_quoteBasic true content stop
  · have spares : SparesEscapes true content := ⟨by simp_all, nofun, by simp_all⟩
    exact scanQuoted_quoteLiteral spares stop
  · exact scanQuoted_quoteBasic _ content stop

end Tracery.Toml
