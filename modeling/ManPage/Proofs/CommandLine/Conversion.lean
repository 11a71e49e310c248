import ManPage.CommandLine.Run
import ManPage.Proofs.Document.Title
import ManPage.Proofs.Files

/-! What a run of the command line leaves. It converts the page that its input holds, and changes no
file but that of the output. The file of the output is started before the input is read, so a run
whose input is the same file reads an empty page, and leaves the file empty. -/

namespace ManPage.CommandLine

open Document (convert)

variable {files files' : Files} {options : Options} {settings : Settings} {place : Place}
  {input : Option Text} {stdin : List UInt8} {page : Input} {path : Text}

/-! ### Conversions -/

/-- The page that an input holds. -/
def page? (files : Files) (input : Option Text) (stdin : List UInt8) : Option Input :=
  match input with
  | none => some (.ofBytes standardInput stdin)
  | some path =>
    match files.read? path with
    | some (.file content) => some (.ofBytes path content)
    | _ => none

theorem convertTo_output (files : Files) (options : Options) (page : Input) :
    (convertTo files options none page).files = files ∧
      (convertTo files options none page).output = (convert options page).html := by
  unfold convertTo
  dsimp only
  split <;> exact ⟨rfl, rfl⟩

theorem convertTo_place (files : Files) (options : Options) (place : Place) (page : Input) :
    (convertTo files options (some place) page).files =
        files.write place (convert options page).html.toUtf8 ∧
      (convertTo files options (some place) page).output = [] := by
  unfold convertTo
  dsimp only
  split <;> exact ⟨rfl, rfl⟩

/-- An input is converted without error only if it holds a page. -/
theorem page_of_success {place : Option Place}
    (success : (convertInput files options place input stdin).failure = none) :
    ∃ page, page? files input stdin = some page ∧
      convertInput files options place input stdin = convertTo files options place page := by
  unfold convertInput at success ⊢
  unfold page?
  cases input with
  | none => exact ⟨_, rfl, rfl⟩
  | some path =>
    dsimp only at success ⊢
    rcases read : files.read? path with _ | content | _
    · rw [read] at success
      cases success
    · exact ⟨_, rfl, rfl⟩
    · rw [read] at success
      cases success

/-- A page without lines comes out empty. -/
theorem html_empty (options : Options) (name : Text) :
    (convert options (.ofBytes name [])).html = [] := by
  have ended : (Input.ofBytes name []).next = (.ok none, .ofBytes name []) := rfl
  rw [Document.convert_html, Document.run_exhausted ended]
  rfl

/-! ### The file of the output -/

/-- An input in another place holds the page that it held before the output was started. -/
theorem page?_of_ne (started : files.Started place files')
    (apart : input.bind files.locate? ≠ some place) :
    page? files' input stdin = page? files input stdin := by
  cases input with
  | none => rfl
  | some path =>
    have read : files'.read? path = files.read? path := by
      rw [Files.read?, Files.read?, started.paths]
      cases at_ : files.locate? path with
      | none => rfl
      | some other =>
        refine started.elsewhere other ?_
        rintro rfl
        exact apart at_
    unfold page?
    dsimp only
    rw [read]

theorem page?_of_eq (started : files.Started place files') (stdin : List UInt8)
    (same : input.bind files.locate? = some place) :
    ∃ name, page? files' input stdin = some (.ofBytes name []) := by
  cases input with
  | none => cases same
  | some path =>
    have read : files'.read? path = some (.file []) := by
      rw [Files.read?, started.paths, show files.locate? path = some place from same,
        Option.bind_some, started.empty]
    unfold page?
    dsimp only
    rw [read]
    exact ⟨path, rfl⟩

/-! ### Runs -/

theorem run_of_output_none (valid : settings.options = .ok options) (unset : settings.output = none)
    (success : (run files settings input stdin).failure = none) :
    (run files settings input stdin).files = files ∧ ∃ page, page? files input stdin = some page ∧
      (run files settings input stdin).output = (convert options page).html := by
  have same : run files settings input stdin =
      convertInput files options none input stdin := by
    unfold run
    rw [valid, unset]
  rw [same] at success ⊢
  obtain ⟨page, holds, eq⟩ := page_of_success success
  obtain ⟨kept, written⟩ := convertTo_output files options page
  rw [eq]
  exact ⟨kept, page, holds, written⟩

theorem run_of_not_created (valid : settings.options = .ok options)
    (output : settings.output = some path) (created : files.create? path = none) :
    run files settings input stdin = .fail files (.cannotCreate path) := by
  unfold run
  rw [valid, output]
  dsimp only
  rw [created]

theorem run_of_created (input : Option Text) (stdin : List UInt8)
    (valid : settings.options = .ok options) (output : settings.output = some path)
    (created : files.create? path = some (place, files')) :
    let converted := convertInput files' options (some place) input stdin
    (run files settings input stdin).failure = converted.failure ∧
      (run files settings input stdin).files = converted.files ∧
      (run files settings input stdin).output = converted.output := by
  unfold run
  rw [valid, output]
  dsimp only
  rw [created]
  exact ⟨rfl, rfl, rfl⟩

/-- The output of a run is at a place, where the run has left the tree as it was elsewhere. -/
theorem run_of_output_some (valid : settings.options = .ok options)
    (output : settings.output = some path)
    (success : (run files settings input stdin).failure = none) :
    ∃ place, files.locate? path = some place ∧ (run files settings input stdin).output = [] ∧
      (∀ other, other ≠ place →
        (run files settings input stdin).files.node? other = files.node? other) ∧
      if input.bind files.locate? = some place then
        (run files settings input stdin).files.node? place = some (.file [])
      else ∃ page, page? files input stdin = some page ∧
        (run files settings input stdin).files.node? place =
          some (.file (convert options page).html.toUtf8) := by
  cases created : files.create? path with
  | none =>
    rw [run_of_not_created valid output created] at success
    cases success
  | some start =>
    obtain ⟨place, files'⟩ := start
    obtain ⟨located, started⟩ := Files.create?_eq_some created
    obtain ⟨failure, left, put⟩ := run_of_created input stdin valid output created
    rw [failure] at success
    obtain ⟨page, holds, eq⟩ := page_of_success success
    obtain ⟨written, silent⟩ := convertTo_place files' options place page
    rw [left, put, eq, written, silent]
    refine ⟨place, located, rfl, fun other different => ?_, ?_⟩
    · rw [Files.node?_write_of_ne started.rooted _ different, started.elsewhere other different]
    · rw [Files.node?_write]
      split
      · rename_i same
        obtain ⟨name, hollow⟩ := page?_of_eq started stdin same
        obtain rfl := Option.some.inj (holds.symm.trans hollow)
        rw [html_empty]
        rfl
      · rename_i apart
        exact ⟨page, (page?_of_ne started apart).symm.trans holds, rfl⟩

/-! ### Command lines -/

variable {argv : List Text} {args : Arguments} {outcome : Outcome}

/-- A command line comes to a run where its arguments and its settings are good. -/
theorem execute_eq_run_iff : execute files argv stdin = .run args settings outcome ↔
    parse argv = .ok args ∧
      ∃ loaded notes, Settings.load files args.configFiles args.overrides = (.ok loaded, notes) ∧
        settings = args.applyTo loaded ∧ outcome =
          { run files settings args.input stdin with
            notes := notes ++ (run files settings args.input stdin).notes } := by
  unfold execute
  constructor
  · intro ran
    cases parsed : parse argv with
    | error error =>
      rw [parsed] at ran
      cases ran
    | ok args' =>
      rw [parsed] at ran
      dsimp only at ran
      rcases load : Settings.load files args'.configFiles args'.overrides with
        ⟨error | loaded, notes⟩
      · rw [load] at ran
        cases ran
      · rw [load] at ran
        cases ran
        exact ⟨rfl, loaded, notes, load, rfl, rfl⟩
  · rintro ⟨parsed, loaded, notes, load, rfl, rfl⟩
    rw [parsed]
    dsimp only
    rw [load]

/-- A command line that ends without error has converted, as its settings tell, the page that its
input held before: to the standard output, with all files as they were, or to the file of the
output, with all other files as they were. Only where the input is the file of the output itself,
this file is empty in the end. -/
theorem execute_of_success (ran : execute files argv stdin = .run args settings outcome)
    (success : outcome.failure = none) :
    parse argv = .ok args ∧
    (∃ loaded, (Settings.load files args.configFiles args.overrides).1 = .ok loaded ∧
      settings = args.applyTo loaded) ∧
    ∃ options, settings.options = .ok options ∧
      (settings.output = none → outcome.files = files ∧
        ∃ page, page? files args.input stdin = some page ∧
          outcome.output = (convert options page).html) ∧
      ∀ path, settings.output = some path → ∃ place, files.locate? path = some place ∧
        outcome.output = [] ∧
        (∀ other, other ≠ place → outcome.files.node? other = files.node? other) ∧
        if args.input.bind files.locate? = some place then
          outcome.files.node? place = some (.file [])
        else ∃ page, page? files args.input stdin = some page ∧
          outcome.files.node? place = some (.file (convert options page).html.toUtf8) := by
  obtain ⟨parsed, loaded, notes, load, applied, rfl⟩ := execute_eq_run_iff.mp ran
  refine ⟨parsed, ⟨loaded, congrArg Prod.fst load, applied⟩, ?_⟩
  cases valid : settings.options with
  | error error =>
    have failed : run files settings args.input stdin = .fail files .invalidOptions := by
      unfold run
      rw [valid]
    rw [failed] at success
    cases success
  | ok options =>
    exact ⟨options, rfl, fun unset => run_of_output_none valid unset success,
      fun path output => run_of_output_some valid output success⟩

/-- A page beside its output. -/
theorem execute_of_success_beside :
    let files : Files := { nodes := [([['p']], .file (Text.toUtf8 ".B a\n".toList))] }
    let settings : Settings := { output := some ['q'] }
    let outcome := run files settings (some ['p']) []
    execute files ["p".toList, "-oq".toList] [] =
        .run { input := some ['p'], output := some ['q'] } settings outcome ∧
      outcome.failure = none ∧
      outcome.files.node? [['p']] = files.node? [['p']] ∧
      outcome.files.node? [['q']] = some (.file (Text.toUtf8 "<b>a</b>\n".toList)) := by
  intro files settings outcome
  have parsed : parse ["p".toList, "-oq".toList] =
      .ok { input := some ['p'], output := some ['q'] } := by decide +kernel
  have load : Settings.load files [] [] = (.ok {}, []) := by decide +kernel
  have ran : execute files ["p".toList, "-oq".toList] [] =
      .run { input := some ['p'], output := some ['q'] } settings outcome :=
    execute_eq_run_iff.mpr ⟨parsed, {}, [], load, rfl, rfl⟩
  have success : outcome.failure = none := by decide +kernel
  obtain ⟨-, -, options, valid, -, written⟩ := execute_of_success ran success
  obtain ⟨place, located, -, elsewhere, converted⟩ := written ['q'] rfl
  have here : files.locate? ['q'] = some [['q']] := by decide +kernel
  obtain rfl := Option.some.inj (here.symm.trans located)
  rw [if_neg (by decide +kernel)] at converted
  obtain ⟨page, holds, content⟩ := converted
  obtain rfl := Option.some.inj holds
  obtain rfl := Except.ok.inj valid
  refine ⟨ran, success, elsewhere _ (by decide), content.trans ?_⟩
  decide +kernel

/-- A page that is its own output is emptied, and the page that stood there is not converted. -/
theorem not_converts_own_output : ¬∀ files argv stdin args settings outcome,
    execute files argv stdin = .run args settings outcome → outcome.failure = none →
    ∃ options page, settings.options = .ok options ∧ page? files args.input stdin = some page ∧
      ∀ path, settings.output = some path → ∃ place, files.locate? path = some place ∧
        outcome.files.node? place = some (.file (convert options page).html.toUtf8) := by
  intro converts
  let files : Files := { nodes := [([['p']], .file (Text.toUtf8 ".B a\n".toList))] }
  let settings : Settings := { output := some ['p'] }
  have parsed : parse ["p".toList, "-op".toList] =
      .ok { input := some ['p'], output := some ['p'] } := by decide +kernel
  have load : Settings.load files [] [] = (.ok {}, []) := by decide +kernel
  have ran : execute files ["p".toList, "-op".toList] [] =
      .run { input := some ['p'], output := some ['p'] } settings
        (run files settings (some ['p']) []) :=
    execute_eq_run_iff.mpr ⟨parsed, {}, [], load, rfl, rfl⟩
  obtain ⟨options, page, valid, holds, written⟩ := converts _ _ _ _ _ _ ran (by decide +kernel)
  obtain ⟨place, located, content⟩ := written ['p'] rfl
  obtain rfl := Option.some.inj located
  obtain rfl := Option.some.inj holds
  obtain rfl := Except.ok.inj valid
  revert content
  decide +kernel

end ManPage.CommandLine
