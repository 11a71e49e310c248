import ManPage.Proofs.CommandLine.Conversion
import ManPage.Proofs.Settings.Layers

/-! Which settings a run depends on. A text that is given for a key below another entry for the key
is shadowed: the run comes out as with any other text in its place. One check stands between the
overrides and the command line, that of the mode; so where only the command line shadows a mode, the
run still fails if the mode that it shadows is not known. -/

namespace ManPage.Settings

open CommandLine (Arguments)

/-- What a run is told: the options of the conversion, and the path of the output. -/
def told (settings : Settings) : Except SettingsError (Options × Option Text) :=
  settings.options.map fun options => (options, settings.output)

/-- What the files, the overrides and the arguments of a command line tell the run. -/
def effective (files : Files) (args : Arguments) : Except SettingsError (Options × Option Text) :=
  (load files args.configFiles args.overrides).1.bind fun settings => (args.applyTo settings).told

/-- A run depends on what it is told, and on nothing else in its settings. -/
theorem run_eq_of_told {settings settings' : Settings} (same : settings.told = settings'.told)
    (files : Files) (input : Option Text) (stdin : List UInt8) :
    CommandLine.run files settings input stdin = CommandLine.run files settings' input stdin := by
  rw [told, told] at same
  rw [CommandLine.run, CommandLine.run]
  cases valid : settings.options with
  | error error =>
    cases valid' : settings'.options with
    | error error' => rfl
    | ok options' =>
      rw [valid, valid'] at same
      cases same
  | ok options =>
    cases valid' : settings'.options with
    | error error' =>
      rw [valid, valid'] at same
      cases same
    | ok options' =>
      rw [valid, valid'] at same
      obtain ⟨rfl, output⟩ := Prod.mk.inj (Except.ok.inj same)
      dsimp only
      rw [output]

/-- A command line that comes to a run tells it what its files, overrides and arguments give. -/
theorem effective_of_run {files : Files} {argv : List Text} {stdin : List UInt8} {args : Arguments}
    {settings : Settings} {outcome : CommandLine.Outcome}
    (ran : CommandLine.execute files argv stdin = .run args settings outcome) :
    effective files args = settings.told := by
  obtain ⟨-, loaded, notes, load, rfl, -⟩ := CommandLine.execute_eq_run_iff.mp ran
  rw [effective, load]
  rfl

def merged (layers : List Settings) (overrides : List Text) : Settings :=
  ((layers.foldl merge {}).applyOverrides overrides).2

/-- The layers and overrides of a command line: its files load, and its overrides are right. -/
structure Stack (files : Files) (args : Arguments) (layers : List Settings)
    (overrides : List Text) : Prop where
  held : ∃ sources, Sources files args.configFiles sources ∧ Hold files sources layers
  given : args.overrides = overrides
  right : ∀ item ∈ overrides, IsOverride item

/-- The place of a text for a key: in a layer, or behind the equals sign of an override. -/
inductive Slot (key : Key)
  | layer (before : List Settings) (base : Settings) (after : List Settings)
      (overrides : List Text)
  | override (layers : List Settings) (before : List Text) (name : Text) (after : List Text)
      (first : '=' ∉ name) (named : Text.trim name = key.name)

namespace Slot

variable {key : Key}

def layers (slot : Slot key) (text : Text) : List Settings :=
  match slot with
  | layer before base after _ => before ++ base.set key (some text) :: after
  | override layers _ _ _ _ _ => layers

def overrides (slot : Slot key) (text : Text) : List Text :=
  match slot with
  | layer _ _ _ overrides => overrides
  | override _ before name after _ _ => before ++ (name ++ '=' :: text) :: after

/-- The value that a text in its place gives to the key. -/
def value (slot : Slot key) (text : Text) : Option Text :=
  match slot with
  | layer _ _ _ _ => some text
  | override _ _ _ _ _ _ => Text.nonempty? (Text.trim text)

/-- A later layer or override is for the key, too. -/
def Covered (slot : Slot key) : Prop :=
  match slot with
  | layer _ _ after overrides =>
    (∃ layer ∈ after, (layer.get? key).isSome) ∨ ∃ item ∈ overrides, ∃ value, Writes item key value
  | override _ _ _ after _ _ => ∃ item ∈ after, ∃ value, Writes item key value

/-- The last entry for the key above the place. -/
def above (slot : Slot key) : Option (Option Text) :=
  match slot with
  | layer _ _ after overrides =>
    (overrides.filterMap (write? key)).getLast?.or (after.filterMap (set? key)).getLast?
  | override _ _ _ after _ _ => (after.filterMap (write? key)).getLast?

theorem covered_iff (slot : Slot key) : slot.Covered ↔ slot.above.isSome := by
  have written (items : List Text) : (items.filterMap (write? key)).getLast?.isSome ↔
      ∃ item ∈ items, ∃ value, Writes item key value := by
    rw [← not_iff_not, Option.not_isSome_iff_eq_none, no_write_iff]
    simp
  have set (layers : List Settings) : (layers.filterMap (set? key)).getLast?.isSome ↔
      ∃ layer ∈ layers, (layer.get? key).isSome := by
    rw [← not_iff_not, Option.not_isSome_iff_eq_none, no_set_iff]
    simp
  cases slot with
  | layer before base after overrides =>
    rw [Covered, above, Option.isSome_or, Bool.or_eq_true, written, set, or_comm]
  | override layers before name after first named => exact (written after).symm

/-- An override in its place writes the value that its text gives. -/
theorem writes {name : Text} (first : '=' ∉ name) (named : Text.trim name = key.name)
    (text : Text) : Writes (name ++ '=' :: text) key (Text.nonempty? (Text.trim text)) :=
  ⟨name, text, rfl, first, named, rfl⟩

end Slot

variable {files files' : Files} {args args' : Arguments} {layers : List Settings}
  {overrides : List Text} {key other : Key} {slot : Slot key} {text text' : Text}

theorem set?_set (base : Settings) (key other : Key) (text : Text) :
    set? other (base.set key (some text)) =
      if key = other then some (some text) else set? other base := by
  rw [set?, get?_set]
  split <;> rfl

theorem get?_merged_slot (right : ∀ item ∈ slot.overrides text, IsOverride item) :
    (merged (slot.layers text) (slot.overrides text)).get? key =
      slot.above.getD (slot.value text) := by
  rw [merged, get?_merged right, getLast?_entries, Option.map_none, Option.none_or]
  cases slot with
  | layer before base after overrides =>
    have here := (set?_set base key key text).trans (if_pos rfl)
    rw [Slot.overrides, Slot.layers, Slot.above, Slot.value, List.filterMap_append,
      List.filterMap_cons_some here, List.getLast?_append, List.getLast?_cons]
    cases (overrides.filterMap (write? key)).getLast? <;>
      cases (after.filterMap (set? key)).getLast? <;> rfl
  | override layers before name after first named =>
    have here := (write?_of_writes (Slot.writes first named text) key).trans (if_pos rfl)
    rw [Slot.overrides, Slot.above, Slot.value, List.filterMap_append,
      List.filterMap_cons_some here, List.getLast?_append, List.getLast?_cons]
    cases (after.filterMap (write? key)).getLast? <;> rfl

/-- A text for one key leaves the others alone. -/
theorem entries_slot (different : key ≠ other) (slot : Slot key) (text text' : Text) :
    entries (slot.layers text) (slot.overrides text) none other =
      entries (slot.layers text') (slot.overrides text') none other := by
  cases slot with
  | layer before base after overrides =>
    simp only [entries, Slot.layers, Slot.overrides, List.filterMap_append, List.filterMap_cons,
      set?_set, if_neg different]
  | override layers before name after first named =>
    simp only [entries, Slot.layers, Slot.overrides, List.filterMap_append, List.filterMap_cons,
      write?_of_writes (Slot.writes first named _), if_neg different]

theorem get?_merged_other (right : ∀ item ∈ slot.overrides text, IsOverride item)
    (right' : ∀ item ∈ slot.overrides text', IsOverride item) (different : key ≠ other) :
    (merged (slot.layers text) (slot.overrides text)).get? other =
      (merged (slot.layers text') (slot.overrides text')).get? other := by
  rw [merged, merged, get?_merged right, get?_merged right', entries_slot different slot text text']

/-- The mode is looked at twice: below the command line, and with it. -/
theorem Stack.effective_eq (stack : Stack files args layers overrides) :
    effective files args = (merged layers overrides).outputMode.bind fun _ =>
      (args.applyTo (merged layers overrides)).told := by
  obtain ⟨sources, found, held⟩ := stack.held
  have applied : ((layers.foldl merge {}).applyOverrides overrides).1 = .ok () :=
    applyOverrides_eq_ok_iff.mpr stack.right
  have finished : (layers.foldl merge {}).finish overrides =
      (merged layers overrides).outputMode.map fun _ => merged layers overrides := by
    rw [finish, merged]
    rcases eq : (layers.foldl merge {}).applyOverrides overrides with ⟨error | _, settings⟩
    · rw [eq] at applied
      cases applied
    · rfl
  rw [effective, load_eq found, mergeFiles_eq_ok_iff.mpr ⟨layers, held, rfl⟩, stack.given]
  refine (congrArg (Except.bind · _) finished).trans ?_
  cases (merged layers overrides).outputMode <;> rfl

/-- The result `result` of a run that the value of a mode can only fail: it is `common`, unless the
value is not the name of an output mode. -/
structure Judged {α : Type} (value : Option Text) (common result : Except SettingsError α) :
    Prop where
  known : (∀ name, value = some name → ∃ mode : OutputMode, mode.name = name) → result = common
  unknown : ∀ name, value = some name → (∀ mode : OutputMode, mode.name ≠ name) →
    result = .error (.invalidMode name)

theorem outputMode_congr {a b : Settings} (same : a.get? .mode = b.get? .mode) :
    a.outputMode = b.outputMode := by
  have mode : a.mode = b.mode := same
  rw [outputMode, outputMode, mode]

theorem judged_bind {α : Type} (settings : Settings) (common : Except SettingsError α) :
    Judged settings.mode common (settings.outputMode.bind fun _ => common) where
  known known := by
    rcases mode : settings.outputMode with error | mode
    · obtain ⟨name, set, unknown, -⟩ := outputMode_eq_error_iff.mp mode
      obtain ⟨mode, named⟩ := known name set
      exact absurd named (unknown mode)
    · rfl
  unknown name set unknown := by
    rw [outputMode_eq_error_iff.mpr ⟨name, set, unknown, rfl⟩]
    rfl

section Shadowed

variable (stack : Stack files args (slot.layers text) (slot.overrides text))
  (stack' : Stack files' args' (slot.layers text') (slot.overrides text'))

include stack stack'

theorem get?_merged_of_covered (covered : slot.Covered) (other : Key) :
    (merged (slot.layers text) (slot.overrides text)).get? other =
      (merged (slot.layers text') (slot.overrides text')).get? other := by
  by_cases same : key = other
  · subst same
    obtain ⟨value, above⟩ := Option.isSome_iff_exists.mp (slot.covered_iff.mp covered)
    rw [get?_merged_slot stack.right, get?_merged_slot stack'.right, above]
    rfl
  · exact get?_merged_other stack.right stack'.right same

/-- With the command line above it, a shadowed text does not matter. -/
theorem applyTo_of_shadowed (flags : ∀ other, args'.flag? other = args.flag? other)
    (shadowed : slot.Covered ∨ (args.flag? key).isSome) :
    args.applyTo (merged (slot.layers text) (slot.overrides text)) =
      args'.applyTo (merged (slot.layers text') (slot.overrides text')) := by
  refine eq_of_get? fun other => ?_
  rw [args.get?_applyTo, args'.get?_applyTo, flags]
  rcases shadowed with covered | flagged
  · rw [get?_merged_of_covered stack stack' covered]
  · by_cases same : key = other
    · obtain ⟨value, flag⟩ := Option.isSome_iff_exists.mp flagged
      rw [← same, flag, Option.some_or, Option.some_or]
    · rw [get?_merged_other stack.right stack'.right same]

/-- A shadowed text for a key does not matter to a run. If a later layer or override is for the key,
too, the run is told the same with any other text; and so it is if only the command line gives the
key, unless the key is the mode. Then too it is told the same, or that a text is not the name of an
output mode. -/
theorem effective_of_shadowed (flags : ∀ other, args'.flag? other = args.flag? other)
    (shadowed : slot.Covered ∨ (args.flag? key).isSome) :
    (key ≠ .mode ∨ slot.Covered → effective files args = effective files' args') ∧
      (key = .mode → ¬slot.Covered → ∃ common,
        Judged (slot.value text) common (effective files args) ∧
          Judged (slot.value text') common (effective files' args')) := by
  have applied := applyTo_of_shadowed stack stack' flags shadowed
  rw [stack.effective_eq, stack'.effective_eq, ← applied]
  constructor
  · intro apart
    have mode : (merged (slot.layers text) (slot.overrides text)).get? .mode =
        (merged (slot.layers text') (slot.overrides text')).get? .mode := by
      rcases apart with other | covered
      · exact get?_merged_other stack.right stack'.right other
      · exact get?_merged_of_covered stack stack' covered .mode
    rw [outputMode_congr mode]
  · rintro rfl open_
    have nothing : slot.above = none :=
      Option.not_isSome_iff_eq_none.mp (mt slot.covered_iff.mpr open_)
    have mode := get?_merged_slot stack.right
    have mode' := get?_merged_slot stack'.right
    rw [nothing, Option.getD_none] at mode mode'
    rw [← mode, ← mode']
    exact ⟨_, judged_bind _ _, judged_bind _ _⟩

end Shadowed

/-- A tree with one file, which gives a mode. -/
def modeFile (name : Text) : Files :=
  { nodes := [(["a.json".toList],
      .file (Text.toUtf8 ("\x7b\"mode\":\"".toList ++ name ++ "\"\x7d".toList)))] }

/-- The place of the mode in the file of `modeFile`. -/
def modeSlot : Slot .mode :=
  .layer [] {} [] []

theorem stack_modeFile (args : Arguments) (name : Text)
    (configFiles : args.configFiles = ["a.json".toList]) (overrides : args.overrides = [])
    (read : ofFile (modeFile name) "a.json".toList = .ok { mode := some name }) :
    Stack (modeFile name) args (modeSlot.layers name) (modeSlot.overrides name) where
  held := by
    refine ⟨["a.json".toList], ?_, .cons read .nil⟩
    rw [configFiles]
    exact .named (List.cons_ne_nil _ _)
  given := overrides
  right _ mem := absurd mem List.not_mem_nil

/-- An argument hides the mode of a file, but not that it is unknown. -/
theorem effective_of_shadowed_mode :
    let args : Arguments := { mode := some "raw".toList, configFiles := ["a.json".toList] }
    effective (modeFile "pdf".toList) args = .error (.invalidMode "pdf".toList) ∧
      effective (modeFile "html".toList) args = effective (modeFile "jekyll".toList) args := by
  intro args
  have stack (name : Text) := stack_modeFile args name rfl rfl
  have mixed := effective_of_shadowed (stack "pdf".toList (by decide +kernel))
    (stack "html".toList (by decide +kernel)) (fun _ => rfl) (.inr rfl)
  have known := effective_of_shadowed (stack "html".toList (by decide +kernel))
    (stack "jekyll".toList (by decide +kernel)) (fun _ => rfl) (.inr rfl)
  have bare : ¬modeSlot.Covered := by simp [modeSlot, Slot.Covered]
  obtain ⟨_, pdf, -⟩ := mixed.2 rfl bare
  obtain ⟨_, html, jekyll⟩ := known.2 rfl bare
  refine ⟨pdf.unknown _ rfl fun mode => by cases mode <;> decide, ?_⟩
  rw [html.known fun name eq => ⟨.html, Option.some.inj eq⟩,
    jekyll.known fun name eq => ⟨.jekyll, Option.some.inj eq⟩]

theorem not_effective_of_shadowed :
    ¬∀ (key : Key) (slot : Slot key) (text text' : Text) (files files' : Files)
      (argv : List Text) (args : Arguments), CommandLine.parse argv = .ok args →
        Stack files args (slot.layers text) (slot.overrides text) →
        Stack files' args (slot.layers text') (slot.overrides text') →
        slot.Covered ∨ (args.flag? key).isSome → effective files args = effective files' args := by
  intro same
  let args : Arguments := { mode := some "raw".toList, configFiles := ["a.json".toList] }
  have stack (name : Text) := stack_modeFile args name rfl rfl
  let argv := ["-c", "a.json", "-m", "raw"].map String.toList
  have equal := same .mode modeSlot _ _ _ _ argv args (by decide +kernel)
    (stack "pdf".toList (by decide +kernel)) (stack "html".toList (by decide +kernel)) (.inr rfl)
  exact absurd (congrArg (·.toOption.isSome) equal) (by decide +kernel)

end ManPage.Settings
