import ManPage.Problem

/-! What a run reports about itself while it works. -/

namespace ManPage

inductive Level
  | warn
  | info
  | debug
  deriving DecidableEq, Repr

def Level.name : Level → Text
  | warn => "WARN".toList
  | info => "INFO".toList
  | debug => "DEBUG".toList

inductive Note
  | problem (problem : Problem)
  | unknownEscape (written : Text)
  | ignoredRequest (name : Text)
  | readAhead (name source : Text) (start count : Nat)
  | skippedBlock (lines : Nat)
  | openBlock (source : Text)
  | requestInTable (line : Text)
  | openTable (source : Text)
  | table (formatRows bodyRows : Nat)
  | discoveredSettings (name : Text)
  | mergedSettings (count : Nat)
  | unhandledRequests (source : Text) (count : Nat)
  | wroteOutput (path : Text)
  deriving DecidableEq, Repr

namespace Note

def level : Note → Level
  | problem _ | unhandledRequests _ _ => .warn
  | discoveredSettings _ | mergedSettings _ | wroteOutput _ => .info
  | _ => .debug

def message : Note → Text
  | problem reported => reported.display
  | unknownEscape written =>
    "Leaving unknown escape `".toList ++ written ++ "` as-is".toList
  | ignoredRequest name => "Ignoring formatting request .".toList ++ name
  | readAhead name source start count =>
    '.' :: name ++ " at ".toList ++ source ++ ':' :: Text.ofNat start ++ " read ".toList ++
      Text.ofNat count ++ " more line(s)".toList
  | skippedBlock lines =>
    "Skipped ".toList ++ Text.ofNat lines ++ " line(s) of macro definition".toList
  | openBlock source =>
    "Macro definition at ".toList ++ source ++ " ran to end of input".toList
  | requestInTable line => "Skipping request inside table: ".toList ++ line
  | openTable source => "Table at ".toList ++ source ++ " ran to end of input".toList
  | table formatRows bodyRows =>
    "Rendered table: ".toList ++ Text.ofNat formatRows ++ " format row(s), ".toList ++
      Text.ofNat bodyRows ++ " body row(s)".toList
  | discoveredSettings name => "Using discovered config file: ".toList ++ name
  | mergedSettings count =>
    "Loaded and merged ".toList ++ Text.ofNat count ++ " config files".toList
  | unhandledRequests source count =>
    source ++ ": ".toList ++ Text.ofNat count ++ " request(s) could not be handled".toList
  | wroteOutput path => "Wrote ".toList ++ path

def display (note : Note) : Text :=
  note.level.name ++ ' ' :: note.message

end Note

end ManPage
