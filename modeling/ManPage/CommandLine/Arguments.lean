import ManPage.Settings.Basic

/-! The arguments of a command line. An argument is an option by its long name, a cluster of short
names, the value of the option before it, or the input. A value is looked at only when the next
argument that is known has been read, or at the end. -/

namespace ManPage.CommandLine

open Text

/-- What an argument can be for. -/
inductive Parameter
  | input
  | mode
  | output
  | layout
  | permalink
  | verbose
  | configFile
  | override
  | help
  | version
  deriving DecidableEq, Repr

namespace Parameter

def longNames : List (Text × Parameter) :=
  [("mode", mode), ("output", output), ("layout", layout), ("permalink", permalink),
    ("verbose", verbose), ("config-file", configFile), ("config", override), ("help", help),
    ("version", version)].map fun (name, parameter) => (name.toList, parameter)

def shortNames : List (Char × Parameter) :=
  [('m', mode), ('o', output), ('l', layout), ('p', permalink), ('v', verbose),
    ('c', configFile), ('h', help), ('V', version)]

def takesValue : Parameter → Bool
  | verbose | help | version => false
  | _ => true

end Parameter

/-- Why arguments lead to no run: they are wrong, or ask for help or for the version. -/
inductive UsageError
  | invalidValue
  | unknownArgument
  | argumentConflict
  | tooManyValues
  | displayHelp
  | displayVersion
  deriving DecidableEq, Repr

/-- What the arguments of a command line say. -/
structure Arguments where
  input : Option Text := none
  mode : Option Text := none
  output : Option Text := none
  layout : Option Text := none
  permalink : Option Text := none
  verbose : Bool := false
  configFiles : List Text := []
  overrides : List Text := []
  deriving DecidableEq, Repr

/-- The value of a parameter that can be given once. -/
def once (given : Option Text) (valid : Text → Bool) (value : Text) :
    Except UsageError (Option Text) :=
  if given.isSome then .error .argumentConflict
  else if valid value then .ok (some value)
  else .error .invalidValue

def isPath (value : Text) : Bool :=
  !value.isEmpty

namespace Arguments

/-- Arguments with a value for a parameter that takes one. -/
def giveValue (args : Arguments) (parameter : Parameter) (value : Text) :
    Except UsageError Arguments :=
  match parameter with
  | .input => (once args.input isPath value).map fun input => { args with input }
  | .mode =>
    (once args.mode (fun name => (OutputMode.ofName? name).isSome) value).map fun mode =>
      { args with mode }
  | .output => (once args.output isPath value).map fun output => { args with output }
  | .layout => (once args.layout (fun _ => true) value).map fun layout => { args with layout }
  | .permalink =>
    (once args.permalink (fun _ => true) value).map fun permalink => { args with permalink }
  | .configFile =>
    if isPath value then .ok { args with configFiles := args.configFiles ++ [value] }
    else .error .invalidValue
  | .override => .ok { args with overrides := args.overrides ++ [value] }
  | _ => .ok args

/-- Arguments with a parameter, and its value if it takes one. -/
def give (args : Arguments) (parameter : Parameter) (value : Option Text) :
    Except UsageError Arguments :=
  match parameter with
  | .help => .error .displayHelp
  | .version => .error .displayVersion
  | .verbose => if args.verbose then .error .argumentConflict else .ok { args with verbose := true }
  | _ =>
    match value with
    | some value => args.giveValue parameter value
    | none => .error .invalidValue

def applyTo (args : Arguments) (settings : Settings) : Settings :=
  settings.merge
    { mode := args.mode, output := args.output, layout := args.layout,
      permalink := args.permalink }

end Arguments

/-- Arguments that are being read: those looked at, the parameter that is still to be looked at with
its value so far, and whether all that follow are values. -/
structure Reading where
  args : Arguments := {}
  pending : Option (Parameter × Option Text) := none
  onlyValues : Bool := false
  deriving DecidableEq, Repr

namespace Reading

/-- Looks at the pending parameter. -/
def settle (reading : Reading) : Except UsageError Reading :=
  match reading.pending with
  | some (parameter, value) =>
    (reading.args.give parameter value).map fun args => { reading with args, pending := none }
  | none => .ok reading

/-- Looks at the pending parameter, and then at another one. -/
def give (reading : Reading) (parameter : Parameter) (value : Option Text) :
    Except UsageError Reading :=
  reading.settle.bind fun reading =>
    (reading.args.give parameter value).map fun args => { reading with args }

/-- Looks at the pending parameter, and leaves another one pending. -/
def defer (reading : Reading) (parameter : Parameter) (value : Option Text) :
    Except UsageError Reading :=
  reading.settle.map fun reading => { reading with pending := some (parameter, value) }

def hasInput (reading : Reading) : Bool :=
  reading.args.input.isSome || reading.pending.any fun (parameter, _) => parameter == .input

/-- Reads the input, which is given once. -/
def readInput (reading : Reading) (value : Text) : Except UsageError Reading :=
  if reading.hasInput then .error .unknownArgument else reading.defer .input (some value)

/-- Reads an option by its long name, which a value can follow behind an equals sign. -/
def readLong (reading : Reading) (text : Text) : Except UsageError Reading :=
  let (name, value) :=
    match cutAt? '=' text with
    | some (name, value) => (name, some value)
    | none => (text, none)
  match Parameter.longNames.lookup name with
  | none => .error .unknownArgument
  | some parameter =>
    if parameter.takesValue then
      match value with
      | some value => reading.give parameter (some value)
      | none => reading.defer parameter none
    else if value.isSome then .error .tooManyValues
    else reading.give parameter none

/-- Reads options by their short names. The value of an option that takes one follows its name, with
or without an equals sign. -/
def readShort (reading : Reading) : Text → Except UsageError Reading
  | [] => .ok reading
  | c :: rest =>
    match Parameter.shortNames.lookup c with
    | none => .error .unknownArgument
    | some parameter =>
      if parameter.takesValue then
        if rest.isEmpty then reading.defer parameter none
        else reading.give parameter (some ((after? ['='] rest).getD rest))
      else (reading.give parameter none).bind fun reading => reading.readShort rest

/-- Reads an argument that is no option: the value that is waited for, or the input. -/
def readValue (reading : Reading) (value : Text) : Except UsageError Reading :=
  match reading.pending with
  | some (parameter, none) => .ok { reading with pending := some (parameter, some value) }
  | _ => reading.readInput value

/-- Reads an argument. Behind two hyphens alone all arguments are values; one hyphen alone is a
value. -/
def read (reading : Reading) (arg : Text) : Except UsageError Reading :=
  if reading.onlyValues then reading.readInput arg
  else
    match arg with
    | ['-', '-'] => .ok { reading with onlyValues := true }
    | '-' :: '-' :: rest => reading.readLong rest
    | '-' :: c :: rest => reading.readShort (c :: rest)
    | _ => reading.readValue arg

end Reading

def parse (argv : List Text) : Except UsageError Arguments :=
  (argv.foldlM Reading.read {}).bind fun reading => reading.settle.map (·.args)

end ManPage.CommandLine
