import ManPage.CommandLine.Arguments
import ManPage.Proofs.Settings.Overrides
import ManPage.Settings.Load
import Mathlib.Data.List.Forall2

/-! How settings are laid over one another. Files, overrides and the command line make entries for
keys, and the last entry for a key gives its value. An override can enter that a key is unset; a file
and the command line cannot. -/

namespace ManPage

/-- The last value that a list gives comes from the last member that gives one. -/
theorem getLast?_filterMap_eq_some_iff {α β : Type} {f : α → Option β} {items : List α} {b : β} :
    (items.filterMap f).getLast? = some b ↔ ∃ before item after,
      items = before ++ item :: after ∧ f item = some b ∧ ∀ other ∈ after, f other = none := by
  rw [List.getLast?_filterMap, List.findSome?_eq_some_iff]
  constructor
  · rintro ⟨after, item, before, eq, here, silent⟩
    refine ⟨before.reverse, item, after.reverse, ?_, here, by simpa using silent⟩
    rw [← List.reverse_reverse items, eq, List.reverse_append, List.reverse_cons,
      List.append_assoc, List.singleton_append]
  · rintro ⟨before, item, after, rfl, here, silent⟩
    refine ⟨after.reverse, item, before.reverse, ?_, here, by simpa using silent⟩
    rw [List.reverse_append, List.reverse_cons, List.append_assoc, List.singleton_append]

theorem OutputMode.ofName?_eq_none_iff {name : Text} :
    ofName? name = none ↔ ∀ mode : OutputMode, mode.name ≠ name := by
  unfold ofName?
  rw [List.find?_eq_none]
  constructor
  · intro absent mode
    have mem : mode ∈ all := by cases mode <;> decide
    simpa using absent mode mem
  · intro absent mode _
    simpa using absent mode

namespace Settings

variable {files : Files} {settings merged result : Settings} {layers : List Settings}
  {paths sources overrides : List Text} {key : Key} {value flag : Option Text}
  {error : SettingsError}

@[simp] theorem get?_merge (settings layer : Settings) (key : Key) :
    (settings.merge layer).get? key = (layer.get? key).or (settings.get? key) := by
  cases key <;> rfl

theorem merge_empty (layer : Settings) : merge {} layer = layer := by
  obtain ⟨mode, output, layout, permalink⟩ := layer
  simp [merge]

/-! ### Files -/

/-- Files hold layers, in order. -/
def Hold (files : Files) : List Text → List Settings → Prop :=
  List.Forall₂ fun path layer => ofFile files path = .ok layer

theorem mergeFiles_eq_ok_iff : mergeFiles files settings paths = .ok merged ↔
    ∃ layers, Hold files paths layers ∧ merged = layers.foldl merge settings := by
  induction paths generalizing settings with
  | nil =>
    constructor
    · intro eq
      cases eq
      exact ⟨[], .nil, rfl⟩
    · rintro ⟨_, ⟨⟩, rfl⟩
      rfl
  | cons path paths ih =>
    rw [mergeFiles]
    rcases read : ofFile files path with error | layer
    · constructor
      · intro eq
        cases eq
      · rintro ⟨_, _ | ⟨held, _⟩, _⟩
        cases read.symm.trans held
    · dsimp only
      rw [ih]
      constructor
      · rintro ⟨layers, held, eq⟩
        exact ⟨layer :: layers, .cons read held, eq⟩
      · rintro ⟨_, _ | ⟨held, rest⟩, eq⟩
        cases read.symm.trans held
        exact ⟨_, rest, eq⟩

theorem mergeFiles_eq_error_iff : mergeFiles files settings paths = .error error ↔
    First (fun path => ∃ layer, ofFile files path = .ok layer)
      (fun path error => ofFile files path = .error error) paths error := by
  induction paths generalizing settings with
  | nil => exact ⟨(nomatch ·), (nomatch ·)⟩
  | cons path paths ih =>
    rw [mergeFiles]
    rcases read : ofFile files path with error' | layer
    · constructor
      · intro eq
        cases eq
        exact .here read
      · intro first
        cases first with
        | here failed => exact congrArg Except.error (Except.error.inj (read.symm.trans failed))
        | there good _ =>
          obtain ⟨layer, held⟩ := good
          cases read.symm.trans held
    · dsimp only
      rw [ih]
      constructor
      · exact .there ⟨layer, read⟩
      · intro first
        cases first with
        | here failed => cases read.symm.trans failed
        | there _ rest => exact rest

/-- The files that settings come from: those that are named, or else the first of four names in the
current directory at which there is something. -/
inductive Sources (files : Files) : List Text → List Text → Prop
  | named {paths : List Text} : paths ≠ [] → Sources files paths paths
  | found {before after : List Text} {name : Text} : discoveredNames = before ++ name :: after →
      (∀ other ∈ before, files.read? other = none) → (files.read? name).isSome →
      Sources files [] [name]
  | absent : (∀ name ∈ discoveredNames, files.read? name = none) → Sources files [] []

theorem discover?_eq_some_iff {name : Text} : discover? files = some name ↔
    ∃ before after, discoveredNames = before ++ name :: after ∧
      (∀ other ∈ before, files.read? other = none) ∧ (files.read? name).isSome := by
  unfold discover?
  rw [List.find?_eq_some_iff_append]
  constructor
  · rintro ⟨there, before, after, eq, nothing⟩
    exact ⟨before, after, eq, by simpa using nothing, there⟩
  · rintro ⟨before, after, eq, nothing, there⟩
    exact ⟨there, before, after, eq, by simpa using nothing⟩

theorem discover?_eq_none_iff :
    discover? files = none ↔ ∀ name ∈ discoveredNames, files.read? name = none := by
  unfold discover?
  rw [List.find?_eq_none]
  simp only [Option.not_isSome_iff_eq_none]

theorem sources_iff : Sources files paths sources ↔
    (if paths = [] then (discover? files).toList else paths) = sources := by
  constructor
  · intro found
    cases found with
    | named given => exact if_neg given
    | found eq nothing there =>
      rw [if_pos rfl, discover?_eq_some_iff.mpr ⟨_, _, eq, nothing, there⟩, Option.toList_some]
    | absent nothing => rw [if_pos rfl, discover?_eq_none_iff.mpr nothing, Option.toList_none]
  · rintro rfl
    split
    · rename_i empty
      subst empty
      cases discovered : discover? files with
      | none => exact .absent (discover?_eq_none_iff.mp discovered)
      | some name =>
        obtain ⟨before, after, eq, nothing, there⟩ := discover?_eq_some_iff.mp discovered
        exact .found eq nothing there
    · rename_i given
      exact .named given

theorem Sources.unique {sources' : List Text} (found : Sources files paths sources)
    (found' : Sources files paths sources') : sources = sources' :=
  (sources_iff.mp found).symm.trans (sources_iff.mp found')

theorem ofFiles_eq_mergeFiles (found : Sources files paths sources) :
    (ofFiles files paths).1 = mergeFiles files {} sources := by
  rw [← sources_iff.mp found]
  cases paths with
  | cons path paths => rfl
  | nil =>
    rw [if_pos rfl]
    unfold ofFiles
    dsimp only
    cases discover? files with
    | none => rfl
    | some name =>
      rw [Option.toList_some, mergeFiles]
      dsimp only
      cases ofFile files name with
      | error error => rfl
      | ok layer =>
        dsimp only
        rw [merge_empty, mergeFiles]

/-! ### Entries -/

/-- The value that a layer sets a key to, if it sets the key. -/
def set? (key : Key) (layer : Settings) : Option (Option Text) :=
  (layer.get? key).map some

/-- The entries for a key: of layers, of overrides, and of a command line. -/
def entries (layers : List Settings) (overrides : List Text) (flag : Option Text) (key : Key) :
    List (Option Text) :=
  layers.filterMap (set? key) ++ overrides.filterMap (write? key) ++ (flag.map some).toList

/-- The value of a key above layers and overrides: what a command line gives, or else what the last
override for the key writes, or else what the last layer that sets it sets. -/
inductive Layered (layers : List Settings) (overrides : List Text) (flag : Option Text) (key : Key) :
    Option Text → Prop
  | flag {text : Text} : flag = some text → Layered layers overrides flag key (some text)
  | override {before after : List Text} {item : Text} {value : Option Text} : flag = none →
      overrides = before ++ item :: after → Writes item key value →
      (∀ other ∈ after, ∀ value, ¬Writes other key value) →
      Layered layers overrides flag key value
  | layer {before after : List Settings} {layer : Settings} {text : Text} : flag = none →
      (∀ item ∈ overrides, ∀ value, ¬Writes item key value) →
      layers = before ++ layer :: after → layer.get? key = some text →
      (∀ other ∈ after, other.get? key = none) → Layered layers overrides flag key (some text)
  | unset : flag = none → (∀ item ∈ overrides, ∀ value, ¬Writes item key value) →
      (∀ layer ∈ layers, layer.get? key = none) → Layered layers overrides flag key none

theorem last_write_iff : (overrides.filterMap (write? key)).getLast? = some value ↔
    ∃ before item after, overrides = before ++ item :: after ∧ Writes item key value ∧
      ∀ other ∈ after, ∀ value, ¬Writes other key value := by
  simp only [getLast?_filterMap_eq_some_iff, write?_eq_some_iff, write?_eq_none_iff]

theorem no_write_iff : (overrides.filterMap (write? key)).getLast? = none ↔
    ∀ item ∈ overrides, ∀ value, ¬Writes item key value := by
  simp only [List.getLast?_eq_none_iff, List.filterMap_eq_nil_iff, write?_eq_none_iff]

theorem last_set_iff : (layers.filterMap (set? key)).getLast? = some value ↔
    ∃ before layer after, layers = before ++ layer :: after ∧
      (∃ text, layer.get? key = some text ∧ some text = value) ∧
      ∀ other ∈ after, other.get? key = none := by
  simp only [getLast?_filterMap_eq_some_iff, set?, Option.map_eq_some_iff, Option.map_eq_none_iff]

theorem no_set_iff : (layers.filterMap (set? key)).getLast? = none ↔
    ∀ layer ∈ layers, layer.get? key = none := by
  simp only [List.getLast?_eq_none_iff, List.filterMap_eq_nil_iff, set?, Option.map_eq_none_iff]

theorem getLast?_entries (layers : List Settings) (overrides : List Text) (flag : Option Text)
    (key : Key) : (entries layers overrides flag key).getLast? =
      ((flag.map some).or (overrides.filterMap (write? key)).getLast?).or
        (layers.filterMap (set? key)).getLast? := by
  unfold entries
  rw [List.getLast?_append, List.getLast?_append, Option.or_assoc]
  cases flag <;> rfl

/-- The value of a key is the last of its entries; the entries for other keys do not matter. -/
theorem layered_iff : Layered layers overrides flag key value ↔
    (entries layers overrides flag key).getLast?.getD none = value := by
  rw [getLast?_entries]
  constructor
  · rintro (rfl | ⟨rfl, eq, writes, later⟩ | ⟨rfl, silent, eq, sets, later⟩ | ⟨rfl, silent, unset⟩)
    · rfl
    · rw [last_write_iff.mpr ⟨_, _, _, eq, writes, later⟩]
      rfl
    · rw [no_write_iff.mpr silent, last_set_iff.mpr ⟨_, _, _, eq, ⟨_, sets, rfl⟩, later⟩]
      rfl
    · rw [no_write_iff.mpr silent, no_set_iff.mpr unset]
      rfl
  · rintro rfl
    cases flag with
    | some text => exact .flag rfl
    | none =>
      cases written : (overrides.filterMap (write? key)).getLast? with
      | some value =>
        obtain ⟨before, item, after, eq, writes, later⟩ := last_write_iff.mp written
        exact .override rfl eq writes later
      | none =>
        have silent := no_write_iff.mp written
        cases set : (layers.filterMap (set? key)).getLast? with
        | some value =>
          obtain ⟨before, layer, after, eq, ⟨text, sets, rfl⟩, later⟩ := last_set_iff.mp set
          exact .layer rfl silent eq sets later
        | none => exact .unset rfl silent (no_set_iff.mp set)

/-- Layers that are laid over settings leave each key the last value that they set. -/
theorem get?_foldl_merge (settings : Settings) (layers : List Settings) (key : Key) :
    (layers.foldl merge settings).get? key =
      (layers.filterMap (set? key)).getLast?.getD (settings.get? key) := by
  induction layers generalizing settings with
  | nil => rfl
  | cons layer layers ih =>
    rw [List.foldl_cons, ih, get?_merge]
    cases set : layer.get? key with
    | none =>
      have silent : set? key layer = none := by rw [set?, set, Option.map_none]
      rw [List.filterMap_cons_none silent, Option.none_or]
    | some text =>
      have sets : set? key layer = some (some text) := by rw [set?, set, Option.map_some]
      rw [List.filterMap_cons_some sets, List.getLast?_cons, Option.getD_some, Option.some_or]

/-- Layers and then overrides that are right leave each key the last of its entries. -/
theorem get?_merged (right : ∀ item ∈ overrides, IsOverride item)
    (layers : List Settings) (key : Key) :
    ((layers.foldl merge {}).applyOverrides overrides).2.get? key =
      (entries layers overrides none key).getLast?.getD none := by
  rw [get?_applyOverrides right, get?_foldl_merge, getLast?_entries]
  have unset : ({} : Settings).get? key = none := by cases key <;> rfl
  rw [unset]
  cases (overrides.filterMap (write? key)).getLast? <;> rfl

/-! ### Loading -/

/-- Settings that layers and overrides come to: the overrides are right, every key has the last value
that is entered for it, and the value of the mode, if there is one, is the name of an output mode. -/
structure Loads (layers : List Settings) (overrides : List Text) (settings : Settings) : Prop where
  right : ∀ item ∈ overrides, IsOverride item
  layered : ∀ key, Layered layers overrides none key (settings.get? key)
  known : ∀ name, settings.mode = some name → ∃ mode : OutputMode, mode.name = name

/-- Why files and overrides come to no settings: the first file that cannot be loaded, or else the
first override that is wrong, or else the mode. -/
inductive Fails (files : Files) (sources overrides : List Text) : SettingsError → Prop
  | file {error : SettingsError} :
      First (fun path => ∃ layer, ofFile files path = .ok layer)
        (fun path error => ofFile files path = .error error) sources error →
      Fails files sources overrides error
  | override {layers : List Settings} {error : SettingsError} : Hold files sources layers →
      First IsOverride Wrong overrides error →
      Fails files sources overrides error
  | mode {layers : List Settings} {name : Text} : Hold files sources layers →
      (∀ item ∈ overrides, IsOverride item) →
      Layered layers overrides none .mode (some name) → (∀ mode : OutputMode, mode.name ≠ name) →
      Fails files sources overrides (.invalidMode name)

theorem eq_of_get? {a b : Settings} (same : ∀ key, a.get? key = b.get? key) : a = b := by
  obtain ⟨mode, output, layout, permalink⟩ := a
  obtain ⟨mode', output', layout', permalink'⟩ := b
  obtain rfl : mode = mode' := same .mode
  obtain rfl : output = output' := same .output
  obtain rfl : layout = layout' := same .layout
  obtain rfl : permalink = permalink' := same .permalink
  rfl

theorem outputMode_eq_error_iff : settings.outputMode = .error error ↔ ∃ name,
    settings.mode = some name ∧ (∀ mode : OutputMode, mode.name ≠ name) ∧
      .invalidMode name = error := by
  unfold outputMode
  cases set : settings.mode with
  | none => simp
  | some name =>
    dsimp only
    cases known : OutputMode.ofName? name with
    | none =>
      rw [OutputMode.ofName?_eq_none_iff] at known
      constructor
      · intro eq
        exact ⟨name, rfl, known, Except.error.inj eq⟩
      · rintro ⟨_, ⟨⟩, _, rfl⟩
        rfl
    | some mode =>
      constructor
      · intro eq
        cases eq
      · rintro ⟨_, ⟨⟩, unknown, _⟩
        cases known.symm.trans (OutputMode.ofName?_eq_none_iff.mpr unknown)

theorem finish_eq_ok_iff : settings.finish overrides = .ok result ↔
    (∀ item ∈ overrides, IsOverride item) ∧
      (settings.applyOverrides overrides).2 = result ∧
      ∀ name, result.mode = some name → ∃ mode : OutputMode, mode.name = name := by
  rw [← @applyOverrides_eq_ok_iff settings]
  unfold finish
  rcases settings.applyOverrides overrides with ⟨error | _, applied⟩
  · simp
  · dsimp only
    cases mode : applied.outputMode with
    | error error =>
      obtain ⟨name, set, unknown, -⟩ := outputMode_eq_error_iff.mp mode
      constructor
      · intro eq
        cases eq
      · rintro ⟨-, rfl, known⟩
        obtain ⟨mode, named⟩ := known name set
        exact absurd named (unknown mode)
    | ok mode' =>
      constructor
      · intro eq
        cases eq
        refine ⟨rfl, rfl, fun name set => ?_⟩
        by_contra unknown
        have failed := outputMode_eq_error_iff.mpr ⟨name, set, not_exists.mp unknown, rfl⟩
        cases mode.symm.trans failed
      · rintro ⟨-, rfl, -⟩
        rfl

theorem finish_eq_error_iff : settings.finish overrides = .error error ↔
    First IsOverride Wrong overrides error ∨
      (∀ item ∈ overrides, IsOverride item) ∧ ∃ name,
        (settings.applyOverrides overrides).2.mode = some name ∧
          (∀ mode : OutputMode, mode.name ≠ name) ∧ .invalidMode name = error := by
  rw [← @applyOverrides_eq_ok_iff settings, ← @applyOverrides_eq_error_iff settings,
    ← outputMode_eq_error_iff]
  unfold finish
  rcases settings.applyOverrides overrides with ⟨error' | _, applied⟩
  · simp
  · cases mode : applied.outputMode <;> simp [mode, Except.map]

theorem finish_foldl_eq_ok_iff :
    (layers.foldl merge {}).finish overrides = .ok settings ↔ Loads layers overrides settings := by
  rw [finish_eq_ok_iff]
  constructor
  · rintro ⟨right, rfl, known⟩
    exact ⟨right, fun key => layered_iff.mpr (get?_merged right layers key).symm, known⟩
  · rintro ⟨right, layered, known⟩
    refine ⟨right, eq_of_get? fun key => ?_, known⟩
    rw [get?_merged right]
    exact layered_iff.mp (layered key)

theorem finish_foldl_eq_error (held : Hold files sources layers)
    (failed : (layers.foldl merge {}).finish overrides = .error error) :
    Fails files sources overrides error := by
  obtain first | ⟨right, name, set, unknown, rfl⟩ := finish_eq_error_iff.mp failed
  · exact .override held first
  · exact .mode held right (layered_iff.mpr ((get?_merged right layers .mode).symm.trans set)) unknown

theorem load_eq (found : Sources files paths sources) (overrides : List Text) :
    (load files paths overrides).1 =
      (mergeFiles files {} sources).bind fun merged => merged.finish overrides := by
  rw [← ofFiles_eq_mergeFiles found]
  rfl

theorem load_eq_ok_iff (found : Sources files paths sources) :
    (load files paths overrides).1 = .ok settings ↔
      ∃ layers, Hold files sources layers ∧ Loads layers overrides settings := by
  rw [load_eq found]
  constructor
  · intro loaded
    cases merged : mergeFiles files {} sources with
    | error error =>
      rw [merged] at loaded
      cases loaded
    | ok base =>
      rw [merged] at loaded
      obtain ⟨layers, held, rfl⟩ := mergeFiles_eq_ok_iff.mp merged
      exact ⟨layers, held, finish_foldl_eq_ok_iff.mp loaded⟩
  · rintro ⟨layers, held, loads⟩
    rw [mergeFiles_eq_ok_iff.mpr ⟨layers, held, rfl⟩]
    exact finish_foldl_eq_ok_iff.mpr loads

theorem load_eq_error_iff (found : Sources files paths sources) :
    (load files paths overrides).1 = .error error ↔ Fails files sources overrides error := by
  rw [load_eq found]
  constructor
  · intro failed
    cases merged : mergeFiles files {} sources with
    | error error' =>
      rw [merged] at failed
      cases failed
      exact .file (mergeFiles_eq_error_iff.mp merged)
    | ok base =>
      rw [merged] at failed
      obtain ⟨layers, held, rfl⟩ := mergeFiles_eq_ok_iff.mp merged
      exact finish_foldl_eq_error held failed
  · intro fails
    cases fails with
    | file first =>
      rw [mergeFiles_eq_error_iff.mpr first]
      rfl
    | override held first =>
      rw [mergeFiles_eq_ok_iff.mpr ⟨_, held, rfl⟩]
      exact finish_eq_error_iff.mpr (.inl first)
    | @mode layers name held right layered unknown =>
      rw [mergeFiles_eq_ok_iff.mpr ⟨_, held, rfl⟩]
      have set := (get?_merged right layers .mode).trans (layered_iff.mp layered)
      exact finish_eq_error_iff.mpr (.inr ⟨right, name, set, unknown, rfl⟩)

end Settings

/-! ### Command lines -/

namespace CommandLine.Arguments

/-- What arguments give for a key. -/
def flag? (args : Arguments) : Key → Option Text
  | .mode => args.mode
  | .output => args.output
  | .layout => args.layout
  | .permalink => args.permalink

theorem get?_applyTo (args : Arguments) (settings : Settings) (key : Key) :
    (args.applyTo settings).get? key = (args.flag? key).or (settings.get? key) := by
  unfold applyTo
  rw [Settings.get?_merge]
  cases key <;> rfl

end CommandLine.Arguments

namespace Settings

/-- A command line gives its entries last. -/
theorem layered_applyTo (loads : Loads layers overrides settings) (args : CommandLine.Arguments)
    (key : Key) :
    Layered layers overrides (args.flag? key) key ((args.applyTo settings).get? key) := by
  have below := layered_iff.mp (loads.layered key)
  rw [layered_iff, args.get?_applyTo, ← below, getLast?_entries, getLast?_entries]
  cases args.flag? key <;> rfl

/-- The last writer of a key wins. Settings come from the files that are named, or else from the file
that is found, and from overrides; with the arguments of a command line above them, each key has the
value of the last entry for it, whatever is entered for other keys. No settings come of them exactly
if a file cannot be loaded, or else an override is wrong, or else the mode is not known, and the error
is the first of these. -/
theorem load_last_writer (files : Files) (paths overrides : List Text) :
    ∃ sources, Sources files paths sources ∧
      (∀ settings, (load files paths overrides).1 = .ok settings ↔
        ∃ layers, Hold files sources layers ∧ Loads layers overrides settings) ∧
      (∀ error, (load files paths overrides).1 = .error error ↔ Fails files sources overrides error) ∧
      ∀ settings layers, (load files paths overrides).1 = .ok settings → Hold files sources layers →
        ∀ (args : CommandLine.Arguments) (key : Key),
          Layered layers overrides (args.flag? key) key ((args.applyTo settings).get? key) ∧
          (args.applyTo settings).get? key =
            (entries layers overrides (args.flag? key) key).getLast?.getD none := by
  obtain ⟨sources, found⟩ : ∃ sources, Sources files paths sources := ⟨_, sources_iff.mpr rfl⟩
  refine ⟨sources, found, fun _ => load_eq_ok_iff found, fun _ => load_eq_error_iff found,
    fun settings layers loaded held args key => ?_⟩
  have loads : Loads layers overrides settings := by
    rw [load_eq found, mergeFiles_eq_ok_iff.mpr ⟨layers, held, rfl⟩] at loaded
    exact finish_foldl_eq_ok_iff.mp loaded
  have value := layered_applyTo loads args key
  exact ⟨value, (layered_iff.mp value).symm⟩

/-- Of two files with overrides and an argument above them, each decides one key; an override leaves
the mode unset. -/
theorem load_last_writer_two_files :
    let files : Files := { nodes :=
      [(["a.json".toList], .file (Text.toUtf8 "[\"raw\",\"o\",\"a\"]".toList)),
        (["b.json".toList], .file (Text.toUtf8 "[null,null,\"b\"]".toList))] }
    let paths : List Text := ["a.json".toList, "b.json".toList]
    let overrides : List Text := ["mode=jekyll".toList, "permalink= x=y".toList, " mode =".toList]
    ∃ layers, Hold files paths layers ∧
      Layered layers overrides none .mode none ∧
      Layered layers overrides (some ['p']) .output (some ['p']) ∧
      Layered layers overrides none .layout (some ['b']) ∧
      Layered layers overrides none .permalink (some "x=y".toList) := by
  intro files paths overrides
  let args : CommandLine.Arguments := { output := some ['p'] }
  let settings : Settings :=
    { output := some ['o'], layout := some ['b'], permalink := some "x=y".toList }
  have loaded : (load files paths overrides).1 = .ok settings := by decide +kernel
  obtain ⟨sources, found, ok, -, value⟩ := load_last_writer files paths overrides
  obtain ⟨layers, held, -⟩ := (ok settings).mp loaded
  have layered := fun key => (value settings layers loaded held args key).1
  cases found.unique (.named (List.cons_ne_nil _ _))
  exact ⟨layers, held, layered .mode, layered .output, layered .layout, layered .permalink⟩

end Settings

end ManPage
