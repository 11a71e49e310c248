import ManPage.Proofs.Document.Reading
import ManPage.Proofs.Document.Title
import ManPage.Proofs.Text.Lines

/-! The conversion of bytes. It fails where the bytes are not UTF-8: at the first line that is not,
behind the output of the lines before it. -/

namespace ManPage

open Text

namespace Input

theorem rawLine_of_isUtf8 {bytes : List UInt8} (h : IsUtf8 bytes) :
    ∃ line, rawLine bytes = .text line := by
  obtain ⟨text, decoded⟩ := Option.isSome_iff_exists.mp ((isSome_ofUtf8? bytes).mpr h)
  exact ⟨dropReturn text, by rw [rawLine, decoded]⟩

theorem rawLine_of_not_isUtf8 {bytes : List UInt8} (h : ¬IsUtf8 bytes) :
    rawLine bytes = .fault .notUtf8 := by
  cases decoded : ofUtf8? bytes with
  | none => rw [rawLine, decoded]
  | some text => exact absurd ((isSome_ofUtf8? bytes).mp (by rw [decoded]; rfl)) h

theorem isUtf8_of_rawLine {bytes : List UInt8} {line : Text} (h : rawLine bytes = .text line) :
    IsUtf8 bytes := by
  by_cases valid : IsUtf8 bytes
  · exact valid
  · rw [rawLine_of_not_isUtf8 valid] at h
    cases h

/-- Lines that can all be read are UTF-8. -/
theorem isUtf8_of_map_rawLine {lines : List (List UInt8)} {used : List Text}
    (h : lines.map rawLine = used.map .text) : ∀ line ∈ lines, IsUtf8 line := by
  intro line mem
  have raw : rawLine line ∈ used.map RawLine.text := h ▸ List.mem_map_of_mem mem
  obtain ⟨text, -, eq⟩ := List.mem_map.mp raw
  exact isUtf8_of_rawLine eq.symm

end Input

namespace Document

theorem convert_result (options : Options) (input : Input) :
    (∀ error, (convert options input).result = .error error ↔
      (run options {} input).failure = some error) ∧
    (convert options input).input = (run options {} input).input := by
  refine ⟨fun error => ?_, input_convert options input⟩
  rw [result_convert]
  cases (run options {} input).failure <;> simp

theorem run_chunks_start (options : Options) (input : Input) :
    (run options {} input).chunks <+: (convert options input).chunks := by
  rw [convert_chunks]
  exact List.prefix_append _ _

/-- The output before a line that cannot be read begins the output of the lines before it. -/
theorem html_start {options : Options} {input input' : Input} {error : ReadError}
    (failed : (run options {} input).failure = some error)
    (start : (run options {} input).chunks <+: (run options {} input').chunks) :
    toUtf8 (convert options input).html <+: toUtf8 (convert options input').html := by
  have chunks : (convert options input).chunks = (run options {} input).chunks := by
    rw [convert_chunks, Run.tail?, failed]
    simp [Run.chunks]
  obtain ⟨more, eq⟩ := start.trans (run_chunks_start options input')
  rw [Conversion.html, Conversion.html, chunks, ← eq, List.flatMap_append, toUtf8_append]
  exact List.prefix_append _ _

/-- A conversion of bytes that fails has met the first line that is not UTF-8. -/
theorem failed_ofBytes {options : Options} {name : Text} {bytes : List UInt8} {error : ReadError}
    (failed : (convert options (.ofBytes name bytes)).result = .error error) :
    ∃ good bad rest, linesWhere (· == 10) bytes = good ++ bad :: rest ∧
      (∀ line ∈ good, IsUtf8 line) ∧ ¬IsUtf8 bad ∧
      let whole := good.flatMap (· ++ [10])
      whole <+: bytes ∧ linesWhere (· == 10) whole = good ∧
      toUtf8 (convert options (.ofBytes name bytes)).html <+:
        toUtf8 (convert options (.ofBytes name whole)).html ∧
      (convert options (.ofBytes name bytes)).input.line = good.length ∧
      (convert options (.ofBytes name bytes)).input.unread = rest.map Input.rawLine := by
  obtain ⟨result, behind⟩ := convert_result options (.ofBytes name bytes)
  have stopped := (result error).mp failed
  obtain ⟨used, took, same⟩ := run_of_failure options {} _ stopped
  rw [← behind] at took
  obtain ⟨good, more, eq, first, second⟩ := List.map_eq_append_iff.mp took.unread
  obtain ⟨bad, rest, rfl, fault, left⟩ := List.map_eq_cons_iff.mp second
  have counted : good.length = used.length := by simpa using congrArg List.length first
  obtain ⟨start, wholeLines⟩ := prefix_of_linesWhere (b := 10) (by simp) eq
  refine ⟨good, bad, rest, eq, Input.isUtf8_of_map_rawLine first, ?_, start, wholeLines, ?_, ?_,
    left.symm⟩
  · intro valid
    obtain ⟨line, text⟩ := Input.rawLine_of_isUtf8 valid
    rw [fault] at text
    cases text
  · -- The lines before the bad one, alone, are the page of the run with no lines behind them.
    have alone : Input.ofBytes name (good.flatMap (· ++ [10])) =
        (Input.ofBytes name bytes).withUnread (used.map .text ++ []) := by
      rw [Input.ofBytes, wholeLines, first, List.append_nil]
      rfl
    apply html_start stopped
    rw [alone]
    exact same []
  · rw [took.line, counted]
    exact Nat.zero_add _

/-- A conversion of bytes that does not fail has read every line. -/
theorem succeeded_ofBytes {options : Options} {name : Text} {bytes : List UInt8}
    {problems : List Problem}
    (succeeded : (convert options (.ofBytes name bytes)).result = .ok problems) :
    (∀ line ∈ linesWhere (· == 10) bytes, IsUtf8 line) ∧
      (convert options (.ofBytes name bytes)).input.line = (linesWhere (· == 10) bytes).length ∧
      (convert options (.ofBytes name bytes)).input.unread = [] := by
  obtain ⟨result, behind⟩ := convert_result options (.ofBytes name bytes)
  have finished : (run options {} (.ofBytes name bytes)).failure = none := by
    cases stopped : (run options {} (.ofBytes name bytes)).failure with
    | none => rfl
    | some error =>
      rw [(result error).mpr stopped] at succeeded
      cases succeeded
  obtain ⟨used, took, done⟩ := run_of_success options {} _ finished
  rw [← behind] at took done
  have all : (linesWhere (· == 10) bytes).map Input.rawLine = used.map .text := by
    rw [← List.append_nil (used.map _)]
    exact took.unread
  refine ⟨Input.isUtf8_of_map_rawLine all, ?_, done⟩
  have counted := congrArg List.length all
  rw [List.length_map, List.length_map] at counted
  rw [took.line, counted]
  exact Nat.zero_add _

/-- A conversion of bytes fails if and only if they are not UTF-8. Where it fails, it has put out
the start of what the lines before the first that is not UTF-8 come to, has counted these lines, and
leaves the lines behind that line unread; where it does not fail, it has counted all the lines and
leaves none unread. -/
theorem convert_bytes (options : Options) (name : Text) (bytes : List UInt8) :
    let conversion := convert options (.ofBytes name bytes)
    let lines := linesWhere (· == 10) bytes
    ((∃ error, conversion.result = .error error) ↔ ¬IsUtf8 bytes) ∧
    (∀ error, conversion.result = .error error →
      ∃ good bad rest, lines = good ++ bad :: rest ∧ (∀ line ∈ good, IsUtf8 line) ∧ ¬IsUtf8 bad ∧
        let whole := good.flatMap (· ++ [10])
        whole <+: bytes ∧ linesWhere (· == 10) whole = good ∧
        toUtf8 conversion.html <+: toUtf8 (convert options (.ofBytes name whole)).html ∧
        conversion.input.line = good.length ∧
        conversion.input.unread = rest.map Input.rawLine) ∧
    (∀ problems, conversion.result = .ok problems →
      conversion.input.line = lines.length ∧ conversion.input.unread = []) := by
  intro conversion lines
  refine ⟨?_, fun error failed => failed_ofBytes failed,
    fun problems succeeded => (succeeded_ofBytes succeeded).2⟩
  rw [isUtf8_iff_lines]
  cases outcome : conversion.result with
  | error error =>
    obtain ⟨good, bad, rest, eq, -, invalid, -⟩ := failed_ofBytes outcome
    have mem : bad ∈ linesWhere (· == 10) bytes := by
      rw [eq]
      simp
    constructor
    · intro _ valid
      exact invalid (valid bad mem)
    · intro _
      exact ⟨error, rfl⟩
  | ok problems =>
    have valid := (succeeded_ofBytes outcome).1
    constructor
    · rintro ⟨error, failed⟩
      cases failed
    · intro invalid
      exact absurd valid invalid

/-- The entry of a term cannot be read, and a line stands behind it. -/
theorem convert_bytes_entry :
    let bytes : List UInt8 := [97, 10, 46, 84, 80, 10, 255, 10, 98]
    let conversion := convert {} (.ofBytes ['p'] bytes)
    (∃ error, conversion.result = .error error) ∧ conversion.input.line = 2 ∧
      conversion.input.unread = [.text ['b']] := by
  intro bytes conversion
  have valid : ∀ line ∈ ([[97], [46, 84, 80]] : List (List UInt8)), IsUtf8 line := by
    intro line mem
    rw [← isSome_ofUtf8?]
    revert line
    decide +kernel
  have invalid : ¬IsUtf8 [255] := by
    rw [← isSome_ofUtf8?]
    decide +kernel
  have lines : linesWhere (· == 10) bytes = [[97], [46, 84, 80], [255], [98]] := by decide
  obtain ⟨fails, failed, -⟩ := convert_bytes {} ['p'] bytes
  have failure : ∃ error, conversion.result = .error error := by
    rw [fails, isUtf8_iff_lines, lines]
    intro all
    exact invalid (all _ (by simp))
  obtain ⟨error, stopped⟩ := failure
  obtain ⟨good, bad, rest, eq, goodValid, badInvalid, -, -, -, line, unread⟩ :=
    failed error stopped
  rw [lines] at eq
  rcases good with _ | ⟨first, _ | ⟨second, _ | ⟨third, more⟩⟩⟩
  · obtain ⟨rfl, -⟩ := List.cons.inj eq
    exact absurd (valid _ (by simp)) badInvalid
  · obtain ⟨rfl, rfl, -⟩ := by simpa using eq
    exact absurd (valid _ (by simp)) badInvalid
  · obtain ⟨rfl, rfl, rfl, rfl⟩ := by simpa using eq
    refine ⟨⟨error, stopped⟩, line, unread.trans ?_⟩
    decide +kernel
  · obtain ⟨-, -, rfl, -⟩ := by simpa using eq
    exact absurd (goodValid _ (by simp)) invalid

end Document

end ManPage
