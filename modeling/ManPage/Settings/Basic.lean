import ManPage.Page.Options
import ManPage.Text.Blank

/-! Settings: four keys, each with a value or without one, laid over one another and changed by
overrides. -/

namespace ManPage

inductive Key
  | mode
  | output
  | layout
  | permalink
  deriving DecidableEq, Repr

namespace Key

def name : Key → Text
  | mode => "mode".toList
  | output => "output".toList
  | layout => "layout".toList
  | permalink => "permalink".toList

def all : List Key :=
  [mode, output, layout, permalink]

def ofName? (name : Text) : Option Key :=
  all.find? (·.name = name)

end Key

inductive SettingsError
  | unreadable (path : Text)
  | malformedJson (path : Text)
  | malformedToml (path : Text)
  | unsupportedFormat (path : Text)
  | missingExtension (path : Text)
  | malformedOverride (item : Text)
  | unknownKey (name : Text)
  | invalidMode (name : Text)
  deriving DecidableEq, Repr

/-- The wording of an error that no file caused. -/
def SettingsError.message : SettingsError → Text
  | unreadable path => "Failed to read config file: ".toList ++ path
  | malformedJson path => "Failed to parse JSON config from ".toList ++ path
  | malformedToml path => "Failed to parse TOML config from ".toList ++ path
  | unsupportedFormat path =>
    "Configuration error: Unsupported config file format: ".toList ++ path
  | missingExtension path =>
    "Configuration error: Config file has no extension: ".toList ++ path
  | malformedOverride item =>
    "Configuration error: Invalid config override format: '".toList ++ item ++
      "'. Expected KEY=VALUE".toList
  | unknownKey name =>
    "Configuration error: Unknown configuration key: '".toList ++ name ++ "'".toList
  | invalidMode name => OutputMode.invalidMessage name

/-- The values of the keys; a key without a value is unset. -/
structure Settings where
  mode : Option Text := none
  output : Option Text := none
  layout : Option Text := none
  permalink : Option Text := none
  deriving DecidableEq, Repr

namespace Settings

def get? (settings : Settings) : Key → Option Text
  | .mode => settings.mode
  | .output => settings.output
  | .layout => settings.layout
  | .permalink => settings.permalink

def set (settings : Settings) (key : Key) (value : Option Text) : Settings :=
  match key with
  | .mode => { settings with mode := value }
  | .output => { settings with output := value }
  | .layout => { settings with layout := value }
  | .permalink => { settings with permalink := value }

/-- Settings with others laid over them: a key that the others set has their value. -/
def merge (settings layer : Settings) : Settings :=
  { mode := layer.mode.or settings.mode
    output := layer.output.or settings.output
    layout := layer.layout.or settings.layout
    permalink := layer.permalink.or settings.permalink }

/-- The key and the value of an override; a value that is empty unsets its key. -/
def parseOverride (item : Text) : Except SettingsError (Key × Option Text) :=
  match Text.cutAt? '=' item with
  | none => .error (.malformedOverride item)
  | some (name, value) =>
    match Key.ofName? (Text.trim name) with
    | none => .error (.unknownKey (Text.trim name))
    | some key => .ok (key, Text.nonempty? (Text.trim value))

/-- Applies overrides in order, up to the first that is wrong. -/
def applyOverrides (settings : Settings) : List Text → Except SettingsError Unit × Settings
  | [] => (.ok (), settings)
  | item :: items =>
    match parseOverride item with
    | .error error => (.error error, settings)
    | .ok (key, value) => (settings.set key value).applyOverrides items

/-- The output mode: HTML if it is unset. -/
def outputMode (settings : Settings) : Except SettingsError OutputMode :=
  match settings.mode with
  | none => .ok .html
  | some name =>
    match OutputMode.ofName? name with
    | some mode => .ok mode
    | none => .error (.invalidMode name)

def options (settings : Settings) : Except SettingsError Options :=
  settings.outputMode.map fun mode =>
    { mode, layout := settings.layout, permalink := settings.permalink }

end Settings

end ManPage
