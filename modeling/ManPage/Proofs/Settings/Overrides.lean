import ManPage.Proofs.Text.Cut
import ManPage.Settings.Basic
import Mathlib.Data.List.Basic

/-! Overrides of settings. An override is cut at its first equals sign and writes to one key; overrides
in a row leave each key the last value that is written to it, and fail with the first that is wrong. -/

namespace ManPage

/-! ### Names -/

namespace Key

variable {key : Key} {name : Text}

theorem mem_all (key : Key) : key ∈ all := by
  cases key <;> decide

theorem ofName?_eq_some_iff : ofName? name = some key ↔ key.name = name := by
  unfold ofName?
  constructor
  · intro found
    simpa using List.find?_some found
  · rintro rfl
    cases key <;> decide

theorem ofName?_eq_none_iff : ofName? name = none ↔ ∀ key : Key, key.name ≠ name := by
  unfold ofName?
  rw [List.find?_eq_none]
  constructor
  · intro absent key
    simpa using absent key (mem_all key)
  · intro absent key _
    simpa using absent key

end Key

namespace Settings

variable {settings : Settings} {overrides : List Text} {key : Key} {item : Text}
  {value : Option Text} {error : SettingsError}

@[simp] theorem get?_set (settings : Settings) (key other : Key) (value : Option Text) :
    (settings.set key value).get? other = if key = other then value else settings.get? other := by
  cases key <;> cases other <;> rfl

/-! ### Overrides -/

/-- An override writes a value to a key: what stands before its first equals sign is the name of the
key, and what stands behind is the value, or unsets the key if it is empty. Blanks around either do
not count. -/
def Writes (item : Text) (key : Key) (value : Option Text) : Prop :=
  ∃ name text, item = name ++ '=' :: text ∧ '=' ∉ name ∧ Text.trim name = key.name ∧
    value = Text.nonempty? (Text.trim text)

/-- An override that writes to a key. -/
def IsOverride (item : Text) : Prop :=
  ∃ key value, Writes item key value

/-- What is wrong with an override. -/
inductive Wrong : Text → SettingsError → Prop
  | malformed {item : Text} : '=' ∉ item → Wrong item (.malformedOverride item)
  | unknown {name text : Text} : '=' ∉ name → (∀ key : Key, key.name ≠ Text.trim name) →
      Wrong (name ++ '=' :: text) (.unknownKey (Text.trim name))

theorem parseOverride_eq_ok_iff : parseOverride item = .ok (key, value) ↔ Writes item key value := by
  unfold parseOverride Writes
  constructor
  · intro parsed
    split at parsed
    · cases parsed
    · rename_i name text cut
      split at parsed
      · cases parsed
      · rename_i key' known
        cases parsed
        obtain ⟨eq, first⟩ := Text.cutAt?_eq_some_iff.mp cut
        exact ⟨name, text, eq, first, (Key.ofName?_eq_some_iff.mp known).symm, rfl⟩
  · rintro ⟨name, text, eq, first, trimmed, rfl⟩
    rw [Text.cutAt?_eq_some_iff.mpr ⟨eq, first⟩]
    dsimp only
    rw [Key.ofName?_eq_some_iff.mpr trimmed.symm]

theorem parseOverride_eq_error_iff : parseOverride item = .error error ↔ Wrong item error := by
  unfold parseOverride
  constructor
  · intro parsed
    split at parsed
    · rename_i uncut
      cases parsed
      exact .malformed (Text.cutAt?_eq_none_iff.mp uncut)
    · rename_i name text cut
      obtain ⟨rfl, first⟩ := Text.cutAt?_eq_some_iff.mp cut
      split at parsed
      · rename_i unknown
        cases parsed
        exact .unknown first (Key.ofName?_eq_none_iff.mp unknown)
      · cases parsed
  · rintro (absent | ⟨first, unknown⟩)
    · rw [Text.cutAt?_eq_none_iff.mpr absent]
    · rw [Text.cutAt?_eq_some_iff.mpr ⟨rfl, first⟩]
      dsimp only
      rw [Key.ofName?_eq_none_iff.mpr unknown]

theorem isOverride_or_wrong (item : Text) : IsOverride item ∨ ∃ error, Wrong item error := by
  rcases parsed : parseOverride item with error | ⟨key, value⟩
  · exact .inr ⟨error, parseOverride_eq_error_iff.mp parsed⟩
  · exact .inl ⟨key, value, parseOverride_eq_ok_iff.mp parsed⟩

theorem Wrong.not_isOverride (wrong : Wrong item error) : ¬IsOverride item := by
  rintro ⟨key, value, writes⟩
  cases (parseOverride_eq_error_iff.mpr wrong).symm.trans (parseOverride_eq_ok_iff.mpr writes)

theorem Wrong.unique {error' : SettingsError} (wrong : Wrong item error)
    (wrong' : Wrong item error') : error = error' :=
  Except.error.inj ((parseOverride_eq_error_iff.mpr wrong).symm.trans
    (parseOverride_eq_error_iff.mpr wrong'))

/-- The value that an override writes to a key, if it is for that key. -/
def write? (key : Key) (item : Text) : Option (Option Text) :=
  match parseOverride item with
  | .ok (written, value) => if written = key then some value else none
  | .error _ => none

theorem write?_of_writes (writes : Writes item key value) (other : Key) :
    write? other item = if key = other then some value else none := by
  unfold write?
  rw [parseOverride_eq_ok_iff.mpr writes]

theorem write?_eq_some_iff : write? key item = some value ↔ Writes item key value := by
  rw [← parseOverride_eq_ok_iff]
  unfold write?
  rcases parseOverride item with error | ⟨written, value'⟩ <;> simp

theorem write?_eq_none_iff : write? key item = none ↔ ∀ value, ¬Writes item key value := by
  simp only [Option.eq_none_iff_forall_ne_some, ne_eq, write?_eq_some_iff]

/-! ### Overrides in a row -/

theorem applyOverrides_of_writes (writes : Writes item key value) (settings : Settings)
    (items : List Text) : settings.applyOverrides (item :: items) =
      (settings.set key value).applyOverrides items := by
  rw [applyOverrides, parseOverride_eq_ok_iff.mpr writes]

theorem applyOverrides_of_wrong (wrong : Wrong item error) (settings : Settings)
    (items : List Text) : settings.applyOverrides (item :: items) = (.error error, settings) := by
  rw [applyOverrides, parseOverride_eq_error_iff.mpr wrong]

/-- Overrides that are right leave each key the last value that they write to it. -/
theorem get?_applyOverrides (right : ∀ item ∈ overrides, IsOverride item) (settings : Settings)
    (key : Key) : (settings.applyOverrides overrides).2.get? key =
      (overrides.filterMap (write? key)).getLast?.getD (settings.get? key) := by
  induction overrides generalizing settings with
  | nil => rfl
  | cons item items ih =>
    rw [List.forall_mem_cons] at right
    obtain ⟨⟨written, value, writes⟩, right⟩ := right
    rw [applyOverrides_of_writes writes, ih right, get?_set]
    by_cases same : written = key
    · have wrote := (write?_of_writes writes key).trans (if_pos same)
      rw [if_pos same, List.filterMap_cons_some wrote, List.getLast?_cons, Option.getD_some]
    · have silent := (write?_of_writes writes key).trans (if_neg same)
      rw [if_neg same, List.filterMap_cons_none silent]

theorem applyOverrides_eq_ok_iff : (settings.applyOverrides overrides).1 = .ok () ↔
    ∀ item ∈ overrides, IsOverride item := by
  induction overrides generalizing settings with
  | nil => exact ⟨fun _ item mem => absurd mem List.not_mem_nil, fun _ => rfl⟩
  | cons item items ih =>
    rw [List.forall_mem_cons]
    obtain ⟨key, value, writes⟩ | ⟨error, wrong⟩ := isOverride_or_wrong item
    · rw [applyOverrides_of_writes writes, ih]
      exact ⟨fun right => ⟨⟨key, value, writes⟩, right⟩, And.right⟩
    · rw [applyOverrides_of_wrong wrong]
      exact ⟨(nomatch ·), fun right => absurd right.1 wrong.not_isOverride⟩

/-- The first member of a list that is not good is bad, with an error. -/
inductive First {α : Type} (good : α → Prop) (bad : α → SettingsError → Prop) :
    List α → SettingsError → Prop
  | here {a : α} {rest : List α} {error : SettingsError} :
      bad a error → First good bad (a :: rest) error
  | there {a : α} {rest : List α} {error : SettingsError} :
      good a → First good bad rest error → First good bad (a :: rest) error

theorem applyOverrides_eq_error_iff : (settings.applyOverrides overrides).1 = .error error ↔
    First IsOverride Wrong overrides error := by
  induction overrides generalizing settings with
  | nil => exact ⟨(nomatch ·), (nomatch ·)⟩
  | cons item items ih =>
    obtain ⟨key, value, writes⟩ | ⟨error', wrong⟩ := isOverride_or_wrong item
    · rw [applyOverrides_of_writes writes, ih]
      constructor
      · exact .there ⟨key, value, writes⟩
      · intro first
        cases first with
        | here wrong => exact absurd ⟨key, value, writes⟩ wrong.not_isOverride
        | there _ rest => exact rest
    · rw [applyOverrides_of_wrong wrong]
      constructor
      · intro eq
        cases eq
        exact .here wrong
      · intro first
        cases first with
        | here wrong' => rw [wrong.unique wrong']
        | there right _ => exact absurd right wrong.not_isOverride

end Settings

end ManPage
