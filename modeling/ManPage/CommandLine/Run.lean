import ManPage.CommandLine.Arguments
import ManPage.Document.Convert
import ManPage.Settings.Load

/-! A run of the command line on a tree of files: the arguments, the settings, and the conversion of
the input to the output. -/

namespace ManPage.CommandLine

inductive RunError
  | invalidOptions
  | cannotCreate (path : Text)
  | cannotOpen (path : Text)
  | cannotConvert (source : Text)
  deriving DecidableEq, Repr

def RunError.message : RunError → Text
  | invalidOptions => "Invalid output configuration".toList
  | cannotCreate path => "Failed to create output file: ".toList ++ path
  | cannotOpen path => "Failed to open input file: ".toList ++ path
  | cannotConvert source => "Failed to convert ".toList ++ source

/-- What a run leaves: whether it failed, its standard output, the files behind it, and notes. -/
structure Outcome where
  failure : Option RunError := none
  output : Text := []
  files : Files
  notes : List Note := []

namespace Outcome

def fail (files : Files) (error : RunError) : Outcome :=
  { failure := some error, files }

/-- A run with output at a place, or else on the standard output. -/
def put (outcome : Outcome) (place : Option Place) (text : Text) : Outcome :=
  match place with
  | some place => { outcome with files := outcome.files.write place text.toUtf8 }
  | none => { outcome with output := text }

end Outcome

def standardInput : Text :=
  "<stdin>".toList

/-- Converts a page; the output goes to a place, or else to the standard output. -/
def convertTo (files : Files) (options : Options) (place : Option Place) (input : Input) :
    Outcome :=
  let conversion := Document.convert options input
  let outcome : Outcome := { files, notes := conversion.notes }
  match conversion.result with
  | .error _ =>
    { outcome with failure := some (.cannotConvert input.name) }.put place conversion.html
  | .ok problems =>
    { outcome with
      notes := outcome.notes ++
        if problems.isEmpty then [] else [Note.unhandledRequests input.name problems.length] }.put
      place conversion.html

/-- Converts the input, a file or else the standard input. -/
def convertInput (files : Files) (options : Options) (place : Option Place)
    (input : Option Text) (stdin : List UInt8) : Outcome :=
  match input with
  | none => convertTo files options place (Input.ofBytes standardInput stdin)
  | some path =>
    match files.read? path with
    | some (.file content) => convertTo files options place (Input.ofBytes path content)
    | some .directory => .fail files (.cannotConvert path)
    | none => .fail files (.cannotOpen path)

/-- Converts the input to the output of the settings. The file of the output is started before the
input is read. -/
def run (files : Files) (settings : Settings) (input : Option Text) (stdin : List UInt8) :
    Outcome :=
  match settings.options with
  | .error _ => .fail files .invalidOptions
  | .ok options =>
    match settings.output with
    | none => convertInput files options none input stdin
    | some path =>
      match files.create? path with
      | none => .fail files (.cannotCreate path)
      | some (place, files) =>
        let outcome := convertInput files options (some place) input stdin
        { outcome with
          notes := outcome.notes ++ if outcome.failure.isNone then [Note.wroteOutput path] else [] }

/-- How a command line ends: without a run, by its arguments or by its settings, or with one. -/
inductive Ending
  | usage (error : UsageError)
  | settings (error : SettingsError) (notes : List Note)
  | run (args : Arguments) (settings : Settings) (outcome : Outcome)

def execute (files : Files) (argv : List Text) (stdin : List UInt8) : Ending :=
  match parse argv with
  | .error error => .usage error
  | .ok args =>
    match Settings.load files args.configFiles args.overrides with
    | (.error error, notes) => .settings error notes
    | (.ok settings, notes) =>
      let settings := args.applyTo settings
      let outcome := run files settings args.input stdin
      .run args settings { outcome with notes := notes ++ outcome.notes }

end ManPage.CommandLine
