import ManPage.Text.Utf8

/-! Lines and UTF-8. A line feed is one byte and no part of the encoding of another character, so
the lines of bytes that encode a text encode the lines of the text. -/

namespace ManPage.Text

/-! ### Lines -/

section

variable {α : Type} {p : α → Bool}

theorem linesWhere_line {line : List α} (plain : ∀ a ∈ line, p a = false) {b : α} (stop : p b)
    (rest : List α) : linesWhere p (line ++ b :: rest) = line :: linesWhere p rest := by
  induction line with
  | nil => rw [List.nil_append, linesWhere, if_pos stop]
  | cons a line ih =>
    have head := plain a (by simp)
    rw [List.cons_append, linesWhere, if_neg (by simp [head]),
      ih fun c hc => plain c (List.mem_cons_of_mem a hc)]

theorem linesWhere_last {line : List α} (plain : ∀ a ∈ line, p a = false) (nonempty : line ≠ []) :
    linesWhere p line = [line] := by
  induction line with
  | nil => exact absurd rfl nonempty
  | cons a line ih =>
    have head := plain a (by simp)
    rw [linesWhere, if_neg (by simp [head])]
    by_cases last : line = []
    · rw [last]
      rfl
    · rw [ih (fun c hc => plain c (List.mem_cons_of_mem a hc)) last]

/-- Induction over the lines of a list. -/
theorem lines_induction (p : α → Bool) {motive : List α → Prop} (nil : motive [])
    (last : ∀ line, (∀ a ∈ line, p a = false) → line ≠ [] → motive line)
    (line : ∀ line b rest, (∀ a ∈ line, p a = false) → p b → motive rest →
      motive (line ++ b :: rest))
    (list : List α) : motive list := by
  induction hn : list.length using Nat.strongRecOn generalizing list with
  | ind n ih =>
    subst hn
    have plain : ∀ a ∈ list.takeWhile (!p ·), p a = false := by
      intro a ha
      simpa using List.all_eq_true.mp List.all_takeWhile a ha
    have split := List.takeWhile_append_dropWhile (p := (!p ·)) (l := list)
    cases behind : list.dropWhile (!p ·) with
    | nil =>
      rw [behind, List.append_nil] at split
      by_cases empty : list = []
      · exact empty ▸ nil
      · exact last list (split ▸ plain) empty
    | cons b rest =>
      have stop : p b = true := by
        have head := List.head?_dropWhile_not (!p ·) list
        rw [behind] at head
        simpa using head
      rw [behind] at split
      rw [← split]
      refine line _ b rest plain stop (ih rest.length ?_ rest rfl)
      rw [← split, List.length_append, List.length_cons]
      omega

/-- A list whose first lines are given begins with them. -/
theorem prefix_of_linesWhere {list : List α} {b : α} (stop : ∀ a, p a = true ↔ a = b)
    {lines : List (List α)} {next : List α} {more : List (List α)}
    (h : linesWhere p list = lines ++ next :: more) :
    lines.flatMap (· ++ [b]) <+: list ∧ linesWhere p (lines.flatMap (· ++ [b])) = lines := by
  induction list using lines_induction p generalizing lines with
  | nil => simp [linesWhere] at h
  | last line plain nonempty =>
    rw [linesWhere_last plain nonempty] at h
    obtain ⟨rfl, -⟩ : lines = [] ∧ _ := by simpa using List.append_eq_singleton_iff.mp h.symm
    exact ⟨List.nil_prefix, rfl⟩
  | line line b' rest plain ends ih =>
    obtain rfl := (stop b').mp ends
    rw [linesWhere_line plain ends] at h
    cases lines with
    | nil => exact ⟨List.nil_prefix, rfl⟩
    | cons first lines =>
      rw [List.cons_append, List.cons.injEq] at h
      obtain ⟨rfl, h⟩ := h
      obtain ⟨start, same⟩ := ih h
      have form : (line :: lines).flatMap (· ++ [b']) =
          line ++ b' :: lines.flatMap (· ++ [b']) := by simp
      rw [form]
      constructor
      · rw [List.prefix_append_right_inj, List.cons_prefix_cons]
        exact ⟨rfl, start⟩
      · rw [linesWhere_line plain ends, same]

end

/-! ### UTF-8 -/

def IsUtf8 (bytes : List UInt8) : Prop :=
  ∃ text : Text, toUtf8 text = bytes

theorem toUtf8_append (first second : Text) :
    toUtf8 (first ++ second) = toUtf8 first ++ toUtf8 second :=
  List.flatMap_append

theorem toUtf8_newline (text : Text) : toUtf8 ('\n' :: text) = 10 :: toUtf8 text := rfl

theorem isSome_ofUtf8? (bytes : List UInt8) : (ofUtf8? bytes).isSome ↔ IsUtf8 bytes := by
  have valid : (ofUtf8? bytes).isSome ↔ ByteArray.IsValidUTF8 ⟨bytes.toArray⟩ := by
    unfold ofUtf8? String.fromUTF8?
    split <;> simp_all
  rw [valid]
  constructor
  · rintro ⟨text, eq⟩
    refine ⟨text, ?_⟩
    have data := congrArg (·.data.toList) eq
    simpa [List.utf8Encode, toUtf8] using data.symm
  · rintro ⟨text, rfl⟩
    refine ⟨text, ?_⟩
    apply ByteArray.ext
    apply Array.toList_inj.mp
    simp [List.utf8Encode, toUtf8]

/-- The encoding of a text is read back as the text. -/
theorem ofUtf8?_toUtf8 (text : Text) : ofUtf8? (toUtf8 text) = some text := by
  have bytes : (⟨(toUtf8 text).toArray⟩ : ByteArray) = (String.ofList text).toByteArray := by
    apply ByteArray.ext
    apply Array.toList_inj.mp
    simp [List.utf8Encode, toUtf8]
  have decoded : String.fromUTF8? (String.ofList text).toByteArray = some (String.ofList text) :=
    dif_pos (String.ofList text).isValidUTF8
  rw [ofUtf8?, bytes, decoded, Option.map_some, String.toList_ofList]

/-- Only a line feed has the byte of a line feed in its encoding. -/
theorem eq_newline_of_mem {c : Char} (h : 10 ∈ String.utf8EncodeChar c) : c = '\n' := by
  have byte {n : Nat} (eq : (10 : UInt8) = UInt8.ofNat n) : n % 256 = 10 := by
    have := congrArg UInt8.toNat eq
    simpa using this.symm
  unfold String.utf8EncodeChar at h
  dsimp only at h
  split at h
  · rename_i small
    rw [List.mem_singleton] at h
    have code := byte h
    apply Char.ext
    apply UInt32.toNat_inj.mp
    show c.val.toNat = 10
    omega
  · split at h
    · rcases List.mem_cons.mp h with h | h
      · have := byte h
        omega
      · have := byte (List.mem_singleton.mp h)
        omega
    · split at h
      · simp only [List.mem_cons, List.not_mem_nil, or_false] at h
        rcases h with h | h | h
        all_goals
          have := byte h
          omega
      · simp only [List.mem_cons, List.not_mem_nil, or_false] at h
        rcases h with h | h | h | h
        all_goals
          have := byte h
          omega

theorem plain_toUtf8 {line : Text} (plain : ∀ c ∈ line, (c == '\n') = false) :
    ∀ byte ∈ toUtf8 line, (byte == 10) = false := by
  intro byte mem
  rw [beq_eq_false_iff_ne]
  rintro rfl
  obtain ⟨c, hc, mem⟩ := List.mem_flatMap.mp mem
  have := plain c hc
  rw [eq_newline_of_mem mem] at this
  simp at this

theorem linesWhere_toUtf8 (text : Text) :
    linesWhere (· == 10) (toUtf8 text) = (linesWhere (· == '\n') text).map toUtf8 := by
  induction text using lines_induction (· == '\n') with
  | nil => rfl
  | last line plain nonempty =>
    have nonempty' : toUtf8 line ≠ [] := by
      obtain ⟨c, rest, rfl⟩ := List.exists_cons_of_ne_nil nonempty
      show String.utf8EncodeChar c ++ toUtf8 rest ≠ []
      simp [String.utf8EncodeChar_ne_nil]
    rw [linesWhere_last plain nonempty, linesWhere_last (plain_toUtf8 plain) nonempty']
    rfl
  | line line c rest plain stop ih =>
    obtain rfl : c = '\n' := by simpa using stop
    rw [toUtf8_append, toUtf8_newline, linesWhere_line (plain_toUtf8 plain) (by decide), ih,
      linesWhere_line plain stop, List.map_cons]

/-- Bytes are UTF-8 where all their lines are. -/
theorem isUtf8_iff_lines (bytes : List UInt8) :
    IsUtf8 bytes ↔ ∀ line ∈ linesWhere (· == 10) bytes, IsUtf8 line := by
  constructor
  · rintro ⟨text, rfl⟩ line mem
    rw [linesWhere_toUtf8, List.mem_map] at mem
    obtain ⟨textLine, -, eq⟩ := mem
    exact ⟨textLine, eq⟩
  · intro lines
    induction bytes using lines_induction (fun byte : UInt8 => byte == 10) with
    | nil => exact ⟨[], rfl⟩
    | last line plain nonempty =>
      rw [linesWhere_last plain nonempty] at lines
      exact lines line (by simp)
    | line line b rest plain stop ih =>
      obtain rfl : b = 10 := by simpa using stop
      rw [linesWhere_line plain stop] at lines
      obtain ⟨first, rfl⟩ := lines line (by simp)
      obtain ⟨second, rfl⟩ := ih fun line mem => lines line (List.mem_cons_of_mem _ mem)
      exact ⟨first ++ '\n' :: second, by rw [toUtf8_append, toUtf8_newline]⟩

end ManPage.Text
