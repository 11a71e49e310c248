import ManPage.CommandLine.Run

/-! The program. It looks at the files that a command line is about, runs the command line on them,
and writes what the run leaves. -/

namespace ManPage

/-- The places that names lead through from a place. -/
def Place.through (place : Place) : List Text → List Place
  | [] => []
  | name :: names =>
    let next :=
      if name = [] ∨ name = ['.'] then place
      else if name = ['.', '.'] then place.dropLast
      else place ++ [name]
    next :: Place.through next names

def Place.path (place : Place) : String :=
  String.ofList ('/' :: Text.join ['/'] place)

namespace Main

/-- What the system has at a place. -/
def nodeAt? (place : Place) : IO (Option Node) := do
  try
    return some (.file (← IO.FS.readBinFile place.path).toList)
  catch _ =>
    try
      discard (IO.FS.realPath place.path)
      return some .directory
    catch _ =>
      return none

/-- The part of the system's tree that paths lead through. -/
def snapshot (paths : List Text) : IO Files := do
  let names (path : Text) := (path.splitOn '/').filter (!·.isEmpty)
  let current : Place := names (← IO.currentDir).toString.toList
  let places := paths.flatMap fun path =>
    Place.through (if path.head? = some '/' then [] else current) (path.splitOn '/')
  let nodes ← places.eraseDups.filterMapM fun place => do
    return (← nodeAt? place).map fun node => (place, node)
  return { current, nodes }

partial def readAll (stream : IO.FS.Stream) : IO (List UInt8) := do
  let bytes ← stream.read 65536
  if bytes.isEmpty then return []
  return bytes.toList ++ (← readAll stream)

def usage : String :=
  "Usage: man-page [OPTIONS] [INPUT]\n\n" ++
    "  -m, --mode <html|jekyll|raw>   what stands around the page\n" ++
    "  -o, --output <PATH>            output file\n" ++
    "  -l, --layout <NAME>            layout of the front matter\n" ++
    "  -p, --permalink <LINK>         permalink of the front matter\n" ++
    "  -v, --verbose                  report everything\n" ++
    "  -c, --config-file <PATH>       file of settings, may be repeated\n" ++
    "      --config <KEY=VALUE>       setting, may be repeated\n" ++
    "  -h, --help                     this text\n" ++
    "  -V, --version                  the version\n"

def usageMessage : CommandLine.UsageError → String
  | .invalidValue => "error: invalid or missing value"
  | .unknownArgument => "error: unexpected argument"
  | .argumentConflict => "error: argument given more than once"
  | .tooManyValues => "error: unexpected value for a flag"
  | .displayHelp => usage
  | .displayVersion => "man-page 0.1.0"

/-- Ends without a run for want of good arguments. -/
def refuse (error : CommandLine.UsageError) : IO UInt32 := do
  if error = .displayHelp ∨ error = .displayVersion then
    IO.println (usageMessage error)
    return 0
  IO.eprintln (usageMessage error)
  return 2

/-- Reports notes. -/
def report (verbose : Bool) (notes : List Note) : IO Unit :=
  for note in notes do
    if verbose || note.level != .debug then IO.eprintln (String.ofList note.display)

def fail (message : Text) : IO UInt32 := do
  IO.eprintln s!"Error: {String.ofList message}"
  return 1

def writeFiles (before after : Files) : IO Unit :=
  for (place, node) in after.nodes do
    if let .file content := node then
      unless before.node? place == some node do
        IO.FS.writeBinFile place.path ⟨content.toArray⟩

/-- Runs a command line whose arguments are good. -/
def runWith (argv : List Text) (args : CommandLine.Arguments) : IO UInt32 := do
  let sources := args.configFiles ++ Settings.discoveredNames
  let (settings, _) := Settings.load (← snapshot sources) args.configFiles args.overrides
  let output := (settings.toOption.map args.applyTo).bind (·.output)
  let files ← snapshot (sources ++ args.input.toList ++ output.toList)
  let stdin ← if args.input.isNone then readAll (← IO.getStdin) else pure []
  match CommandLine.execute files argv stdin with
  | .usage error => refuse error
  | .settings error notes =>
    report args.verbose notes
    fail error.message
  | .run _ _ outcome =>
    report args.verbose outcome.notes
    writeFiles files outcome.files
    (← IO.getStdout).write ⟨(Text.toUtf8 outcome.output).toArray⟩
    match outcome.failure with
    | none => return 0
    | some error => fail error.message

end Main

end ManPage

def main (args : List String) : IO UInt32 := do
  let argv := args.map String.toList
  match ManPage.CommandLine.parse argv with
  | .error error => ManPage.Main.refuse error
  | .ok parsed => ManPage.Main.runWith argv parsed
