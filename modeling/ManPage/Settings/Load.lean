import ManPage.Files
import ManPage.Note
import ManPage.Settings.Json
import ManPage.Settings.Toml
import ManPage.Text.Utf8

/-! Settings from files. The files that are named are laid over one another in order; without any, a
file with one of four names is looked for in the current directory. Overrides come last. -/

namespace ManPage.Settings

/-- The extension of the last name in a path: what follows its last period, unless that period is its
first character or it has none. -/
def extension? (path : Text) : Option Text :=
  let name := (path.reverse.takeWhile (· != '/')).reverse
  let extension := (name.reverse.takeWhile (· != '.')).reverse
  if extension.length + 1 < name.length then some extension else none

/-- The settings that a text holds, by the extension of the path it comes from. -/
def parse (path text : Text) : Except SettingsError Settings :=
  match (extension? path).map Text.lower with
  | none => .error (.missingExtension path)
  | some extension =>
    if extension = "json".toList then (Json.parse? text).elim (.error (.malformedJson path)) .ok
    else if extension = "toml".toList then
      (Toml.parse? text).elim (.error (.malformedToml path)) .ok
    else .error (.unsupportedFormat path)

def ofFile (files : Files) (path : Text) : Except SettingsError Settings :=
  match files.read? path with
  | some (.file content) =>
    match Text.ofUtf8? content with
    | some text => parse path text
    | none => .error (.unreadable path)
  | _ => .error (.unreadable path)

/-- The settings of files laid over `settings` in order. -/
def mergeFiles (files : Files) (settings : Settings) :
    List Text → Except SettingsError Settings
  | [] => .ok settings
  | path :: paths =>
    match ofFile files path with
    | .ok layer => mergeFiles files (settings.merge layer) paths
    | .error error => .error error

def discoveredNames : List Text :=
  ["manhtml.toml", "manhtml.json", ".manhtml.toml", ".manhtml.json"].map String.toList

/-- The file that is found in the current directory. -/
def discover? (files : Files) : Option Text :=
  discoveredNames.find? fun name => (files.read? name).isSome

/-- The settings of the files that are named, or else of the file that is found, and notes. -/
def ofFiles (files : Files) (paths : List Text) : Except SettingsError Settings × List Note :=
  match paths with
  | [] =>
    match discover? files with
    | some name => (ofFile files name, [.discoveredSettings name])
    | none => (.ok {}, [])
  | _ :: _ =>
    let merged := mergeFiles files {} paths
    (merged,
      match merged with
      | .ok _ => if 1 < paths.length then [.mergedSettings paths.length] else []
      | .error _ => [])

/-- Settings with overrides, whose output mode must be known. -/
def finish (settings : Settings) (overrides : List Text) : Except SettingsError Settings :=
  match settings.applyOverrides overrides with
  | (.error error, _) => .error error
  | (.ok _, settings) => settings.outputMode.map fun _ => settings

/-- The settings of files and overrides, and notes. -/
def load (files : Files) (paths overrides : List Text) :
    Except SettingsError Settings × List Note :=
  let (settings, notes) := ofFiles files paths
  (settings.bind fun settings => settings.finish overrides, notes)

end ManPage.Settings
