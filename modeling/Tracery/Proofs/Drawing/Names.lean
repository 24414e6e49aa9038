import Mathlib.Data.Bool.Basic
import Tracery.Options
import Tracery.Proofs.Text

/-! Names of attributes as drawings have them. Drawing leaves a name alone exactly if it has no
capitals or is one of those that keep theirs, and no other name ever comes out. -/

namespace Tracery

def IsDrawnName (name : String) : Prop :=
  name ∈ verbatimNames ∨ name.toList.any Char.isUpper = false

instance (name : String) : Decidable (IsDrawnName name) :=
  inferInstanceAs (Decidable (_ ∨ _))

theorem any_isUpper_kebab (letters : List Char) : (kebab letters).any Char.isUpper = false := by
  induction letters with
  | nil => rfl
  | cons c rest ih =>
      rw [kebab]
      split
      next upper =>
        rw [List.any_cons, List.any_cons, Text.isUpper_toLower upper, ih]
        rfl
      next lower => rw [List.any_cons, Bool.eq_false_of_not_eq_true lower, ih, Bool.or_false]

theorem kebab_of_lower {letters : List Char} (lower : letters.any Char.isUpper = false) :
    kebab letters = letters := by
  induction letters with
  | nil => rfl
  | cons c rest ih =>
      rw [List.any_cons, Bool.or_eq_false_iff] at lower
      rw [kebab, lower.1, ih lower.2]
      rfl

theorem isDrawnName_drawnName (key : String) : IsDrawnName (drawnName key) := by
  rw [drawnName]
  split
  next verbatim => exact .inl (List.contains_iff_mem.mp verbatim)
  next =>
    right
    rw [kebabName, String.toList_ofList]
    exact any_isUpper_kebab key.toList

theorem drawnName_of_isDrawnName {name : String} (drawn : IsDrawnName name) :
    drawnName name = name := by
  rw [drawnName]
  split
  next => rfl
  next other =>
    have lower := drawn.resolve_left fun verbatim => other (List.contains_iff_mem.mpr verbatim)
    rw [kebabName, kebab_of_lower lower, String.ofList_toList]

theorem drawnName_eq_self_iff {name : String} : drawnName name = name ↔ IsDrawnName name :=
  ⟨fun own => own ▸ isDrawnName_drawnName name, drawnName_of_isDrawnName⟩

/-! Names without a hyphen have no capital behind them, so each is the drawn name of one key. -/

theorem kebab_of_unhyphenated {letters : List Char} (plain : '-' ∉ kebab letters) :
    kebab letters = letters := by
  induction letters with
  | nil => rfl
  | cons c rest ih =>
      rw [kebab] at plain ⊢
      split at plain
      next => simp at plain
      next lower =>
        rw [if_neg lower, ih fun later => plain (List.mem_cons_of_mem c later)]

theorem drawnName_eq_iff {name : String} (plain : '-' ∉ name.toList)
    (own : drawnName name = name) (key : String) : drawnName key = name ↔ key = name := by
  constructor
  · intro drawn
    rw [drawnName] at drawn
    split at drawn
    · exact drawn
    · have letters : kebab key.toList = name.toList := by
        rw [← drawn, kebabName, String.toList_ofList]
      rw [← letters] at plain
      rw [← String.toList_inj, ← letters, kebab_of_unhyphenated plain]
  · rintro rfl
    exact own

/-! Keys without a hyphen are read back from their drawn names: a hyphen in front of a letter stands
for the capital that it was. -/

def camel : List Char → List Char
  | '-' :: c :: rest => c.toUpper :: camel rest
  | c :: rest => c :: camel rest
  | [] => []

def keyOfName (name : String) : String :=
  if verbatimNames.contains name then name else String.ofList (camel name.toList)

theorem camel_cons {c : Char} (plain : c ≠ '-') (rest : List Char) :
    camel (c :: rest) = c :: camel rest := by
  rw [camel]
  simp [plain]

theorem camel_kebab {letters : List Char} (plain : '-' ∉ letters) :
    camel (kebab letters) = letters := by
  induction letters with
  | nil => rfl
  | cons c rest ih =>
      rw [List.mem_cons, not_or] at plain
      rw [kebab]
      split
      next upper => rw [camel, ih plain.2, Text.toUpper_toLower upper]
      next => rw [camel_cons (Ne.symm plain.1), ih plain.2]

theorem keyOfName_drawnName {key : String} (plain : '-' ∉ key.toList) :
    keyOfName (drawnName key) = key := by
  rw [drawnName]
  split
  next verbatim => rw [keyOfName, if_pos verbatim]
  next =>
    -- What has no capitals left is none of the names that keep theirs.
    have capitals : ∀ name ∈ verbatimNames, name.toList.any Char.isUpper = true := by decide
    have other : ¬ verbatimNames.contains (kebabName key) = true := by
      intro verbatim
      have lower := any_isUpper_kebab key.toList
      rw [← String.toList_ofList (l := kebab key.toList)] at lower
      rw [← kebabName, capitals _ (List.contains_iff_mem.mp verbatim)] at lower
      cases lower
    rw [keyOfName, if_neg other, kebabName, String.toList_ofList, camel_kebab plain,
      String.ofList_toList]

theorem drawnName_inj {key other : String} (plain : '-' ∉ key.toList)
    (otherPlain : '-' ∉ other.toList) (same : drawnName key = drawnName other) : key = other := by
  rw [← keyOfName_drawnName plain, same, keyOfName_drawnName otherPlain]

end Tracery
