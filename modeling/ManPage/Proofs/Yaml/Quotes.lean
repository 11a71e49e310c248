import ManPage.Proofs.Yaml.Reader
import Mathlib.Tactic.Ring

/-! Quotes read back. Between single quotes only breaks need care: an indentation is written behind
them, and read as nothing. Between double quotes each character reads back alone, as itself or from
its escape. -/

namespace ManPage.Yaml

open Text

variable {p q : Char → Bool} {text blanks : Text} {c : Char}

theorem hasPair_eq_false_iff :
    hasPair p q text = false ↔ text.IsChain fun c next => p c → q next = false := by
  induction text with
  | nil => simp [hasPair]
  | cons c rest ih =>
    cases rest with
    | nil => simp [hasPair]
    | cons d rest => simp [hasPair, List.isChain_cons_cons, ih]

/-! ### Single quotes -/

theorem fold_of_spaces (spaces : ∀ c ∈ blanks, isSpace c) : fold blanks = blanks := by
  have unbroken : blanks.filter isBreak = [] :=
    List.filter_eq_nil_iff.mpr fun c inside => by simp [not_isBreak_of_isSpace (spaces c inside)]
  rw [fold, unbroken]

/-- Breaks other than line feeds stand for themselves, and the indentation behind them for
nothing. -/
theorem fold_of_breaks (nonempty : blanks ≠ []) (breaks : ∀ c ∈ blanks, isBreak c ∧ c ≠ '\n') :
    fold (blanks ++ indent) = blanks := by
  have kept : (blanks ++ indent).filter isBreak = blanks := by
    rw [List.filter_append, List.filter_eq_self.mpr fun c inside => (breaks c inside).1]
    exact List.append_nil blanks
  rw [fold, kept]
  cases blanks with
  | nil => exact absurd rfl nonempty
  | cons c more =>
    have other := (breaks c (by simp)).2
    split <;> simp_all

section

variable (blanks) (rest : Text)

theorem singleQuotedFrom_blank (blank : isSpace c || isBreak c) :
    singleQuotedFrom blanks (c :: rest) = singleQuotedFrom (blanks ++ [c]) rest := by
  have other : c ≠ '\'' := by
    rintro rfl
    simp [isSpace, isBreak] at blank
  rw [singleQuotedFrom] <;> simp_all

theorem singleQuotedFrom_visible (visible : (isSpace c || isBreak c) = false) :
    singleQuotedFrom blanks ((if c = '\'' then ['\'', '\''] else [c]) ++ rest) =
      (singleQuotedFrom [] rest).map (fold blanks ++ c :: ·) := by
  by_cases isQuote : c = '\''
  · rw [if_pos isQuote, isQuote]
    rfl
  · rw [if_neg isQuote, List.singleton_append, singleQuotedFrom] <;> simp_all

end

/-- The indentation of a line is read with the blanks before it. -/
theorem singleQuotedFrom_margin (atStart : Bool) (blanks rest : Text) :
    singleQuotedFrom blanks ((if atStart then indent else []) ++ rest) =
      singleQuotedFrom (blanks ++ if atStart then indent else []) rest := by
  cases atStart with
  | false => simp
  | true =>
    show singleQuotedFrom blanks (' ' :: ' ' :: rest) = _
    rw [singleQuotedFrom_blank _ _ rfl, singleQuotedFrom_blank _ _ rfl, List.append_assoc]
    rfl

theorem singleQuotedFrom_end (blanks : Text) :
    singleQuotedFrom blanks ['\'', '\n'] = some (fold blanks) := rfl

/-- The blanks that may be read in front of `next`, at the start of a line or in it: breaks, or
spaces. Neither touches a blank of the other kind. -/
inductive Pending (next : Option Char) : Bool → Text → Prop
  | inLine {blanks : Text} (spaces : ∀ c ∈ blanks, isSpace c)
      (apart : blanks ≠ [] → ∀ c ∈ next, isBreak c = false) : Pending next false blanks
  | atStart {blanks : Text} (nonempty : blanks ≠ []) (breaks : ∀ c ∈ blanks, isBreak c ∧ c ≠ '\n')
      (apart : ∀ c ∈ next, isSpace c = false) : Pending next true blanks

namespace Pending

variable {next : Option Char} {atStart : Bool}

theorem nil (next : Option Char) : Pending next false [] :=
  .inLine (by simp) (by simp)

/-- The blanks stand for themselves, and the indentation behind them for nothing. -/
theorem fold_margin (pending : Pending next atStart blanks) :
    fold (blanks ++ if atStart then indent else []) = blanks := by
  cases pending with
  | inLine spaces => exact (congrArg fold (List.append_nil blanks)).trans (fold_of_spaces spaces)
  | atStart nonempty breaks => exact fold_of_breaks nonempty breaks

theorem push_break (pending : Pending (some c) atStart blanks) (ending : isBreak c)
    (unfed : c ≠ '\n') (apart : ∀ d ∈ next, isSpace d = false) :
    Pending next true (blanks ++ [c]) := by
  refine .atStart (by simp) (fun d inside => ?_) apart
  obtain inside | rfl : d ∈ blanks ∨ d = c := by simpa using inside
  · cases pending with
    | inLine _ apart => simp [apart (List.ne_nil_of_mem inside) c rfl] at ending
    | atStart _ breaks => exact breaks d inside
  · exact ⟨ending, unfed⟩

theorem push_space (pending : Pending (some c) atStart blanks) (space : isSpace c)
    (apart : ∀ d ∈ next, isBreak d = false) :
    atStart = false ∧ Pending next false (blanks ++ [c]) := by
  cases pending with
  | inLine spaces =>
    refine ⟨rfl, .inLine (fun d inside => ?_) fun _ => apart⟩
    obtain inside | rfl : d ∈ blanks ∨ d = c := by simpa using inside
    · exact spaces d inside
    · exact space
  | atStart _ _ apart => simp [apart c rfl] at space

end Pending

/-- What is written between single quotes reads back. -/
theorem singleQuotedFrom_inside {atStart : Bool} (unfed : '\n' ∉ text)
    (trailing : text.IsChain fun c next => isSpace c → isBreak next = false)
    (leading : text.IsChain fun c next => isBreak c → isSpace next = false)
    (pending : Pending text.head? atStart blanks) :
    singleQuotedFrom blanks (singleQuotedInside atStart text ++ ['\'', '\n']) =
      some (blanks ++ text) := by
  induction text generalizing atStart blanks with
  | nil =>
    rw [singleQuotedInside, singleQuotedFrom_margin, singleQuotedFrom_end, pending.fold_margin,
      List.append_nil]
  | cons c rest ih =>
    obtain ⟨not_feed, unfed⟩ : c ≠ '\n' ∧ '\n' ∉ rest := by simpa [eq_comm] using unfed
    obtain ⟨behind_space, trailing⟩ := List.isChain_cons.mp trailing
    obtain ⟨behind_break, leading⟩ := List.isChain_cons.mp leading
    rw [singleQuotedInside]
    split
    · next ending =>
      rw [List.cons_append, singleQuotedFrom_blank _ _ (by simp [ending]), ih unfed trailing leading
        (pending.push_break ending not_feed fun d next => behind_break d next ending)]
      simp
    · next unbroken =>
      by_cases space : isSpace c
      · obtain ⟨rfl, behind⟩ := pending.push_space space fun d next => behind_space d next space
        have other : c ≠ '\'' := by
          rintro rfl
          simp [isSpace] at space
        rw [if_neg other]
        show singleQuotedFrom blanks (c :: (singleQuotedInside false rest ++ _)) = _
        rw [singleQuotedFrom_blank _ _ (by simp [space]), ih unfed trailing leading behind]
        simp
      · rw [List.append_assoc, List.append_assoc, singleQuotedFrom_margin,
          singleQuotedFrom_visible _ _ (by simp [unbroken, space]), pending.fold_margin,
          ih unfed trailing leading (.nil rest.head?)]
        rfl

theorem readScalar?_singleQuoted (allowed : allowsSingleQuotes text) (unfed : '\n' ∉ text) :
    readScalar? ('\'' :: (singleQuotedInside false text ++ ['\'', '\n'])) = some text := by
  obtain ⟨plain, leading⟩ : needsDoubleQuotes text = false ∧
      hasPair isBreak isSpace text = false := by
    simpa [allowsSingleQuotes] using allowed
  have trailing : hasPair isSpace isBreak text = false := by
    simp_all [needsDoubleQuotes]
  exact singleQuotedFrom_inside unfed (hasPair_eq_false_iff.mp trailing)
    (hasPair_eq_false_iff.mp leading) (.nil text.head?)

theorem mem_singleQuotedInside {atStart : Bool} (inside : c ∈ singleQuotedInside atStart text) :
    c ∈ text ∨ c ∈ indent := by
  induction text generalizing atStart with
  | nil => exact .inr (mem_margin inside)
  | cons d rest ih =>
    have quoted (inside : c ∈ if d = '\'' then ['\'', '\''] else [d]) : c = d := by
      split at inside <;> simp_all
    rw [List.mem_cons, or_assoc]
    rw [singleQuotedInside] at inside
    split at inside
    · exact (List.mem_cons.mp inside).imp_right ih
    · rw [List.mem_append, List.mem_append, or_assoc] at inside
      obtain inside | inside | inside := inside
      · exact .inr (.inr (mem_margin inside))
      · exact .inl (quoted inside)
      · exact .inr (ih inside)

theorem indentsFrom_singleQuotedInside (atStart : Bool) (text : Text) :
    IndentsFrom atStart (singleQuotedInside atStart text ++ ['\'', '\n']) := by
  induction text generalizing atStart with
  | nil =>
    cases atStart <;>
      simp [singleQuotedInside, indent, isSpace, isBreak, IndentsFrom, StaysIndented]
  | cons c rest ih =>
    rw [singleQuotedInside]
    split
    · next ending => exact .cons_break ending (ih true)
    · next unbroken =>
      rw [List.append_assoc, List.append_assoc]
      refine .append_margin _ (fun d inside => ?_) (ih false)
      split at inside <;> simp_all

/-! ### Hexadecimal digits -/

theorem hexDigits_succ (width n : Nat) : hexDigits (width + 1) n =
    "0123456789ABCDEF".toList.getD (n / 16 ^ width % 16) '0' :: hexDigits width n := by
  simp [hexDigits, List.range_succ]

theorem length_hexDigits (width n : Nat) : (hexDigits width n).length = width := by
  simp [hexDigits]

theorem digit?_hexDigit : ∀ digit < 16,
    digit? 16 ("0123456789ABCDEF".toList.getD digit '0') = some digit := by
  decide

theorem foldlM_hexDigits (width n value : Nat) :
    (hexDigits width n).foldlM (fun value c => (digit? 16 c).map (value * 16 + ·)) value =
      some (value * 16 ^ width + n % 16 ^ width) := by
  induction width generalizing value with
  | zero => simp [hexDigits, Nat.mod_one]
  | succ width ih =>
    have top := digit?_hexDigit (n / 16 ^ width % 16) (Nat.mod_lt _ (by decide))
    rw [hexDigits_succ, List.foldlM_cons, top]
    show (hexDigits width n).foldlM _ (value * 16 + n / 16 ^ width % 16) = _
    rw [ih, Nat.pow_succ, Nat.mod_mul]
    congr 1
    ring

theorem charOfHex?_hexDigits {width : Nat} (positive : width ≠ 0) (fits : c.toNat < 16 ^ width) :
    charOfHex? (hexDigits width c.toNat) = some c := by
  have nonempty : (hexDigits width c.toNat).isEmpty = false := by
    rw [List.isEmpty_eq_false_iff, ← List.length_pos_iff, length_hexDigits]
    omega
  have number : natural? 16 (hexDigits width c.toNat) = some c.toNat := by
    rw [natural?, nonempty, foldlM_hexDigits, Nat.mod_eq_of_lt fits]
    simp
  have valid : c.toNat.isValidChar := c.valid
  rw [charOfHex?, number]
  simp [valid]

/-! ### Double quotes -/

theorem mem_letterEscapes {letter : Char} (known : letterEscapes.lookup c = some letter) :
    (c, letter) ∈ letterEscapes := by
  obtain ⟨before, after, table, -⟩ := List.lookup_eq_some_iff.mp known
  rw [table]
  simp

/-- The escape of a character is read as the character, whatever stands behind it. -/
theorem escape?_escapeChar (c : Char) (rest : Text) :
    ∃ behind, escapeChar c = '\\' :: behind ∧
      escape? (behind ++ rest) = some (c, behind.length) := by
  have hex {letter : Char} (width : Nat) (known : hexWidths.lookup letter = some width)
      (positive : width ≠ 0) (fits : c.toNat < 16 ^ width) :
      escape? (letter :: hexDigits width c.toNat ++ rest) = some (c, width + 1) := by
    rw [List.cons_append, escape?, known]
    dsimp only
    rw [List.take_left' (length_hexDigits width c.toNat), charOfHex?_hexDigits positive fits]
    rfl
  have wide : c.toNat < 0x110000 := by
    have valid : c.toNat.isValidChar := c.valid
    unfold Nat.isValidChar at valid
    omega
  unfold escapeChar
  split
  · next letter known =>
    have meant : ∀ entry ∈ letterEscapes, hexWidths.lookup entry.2 = none ∧
        letterMeanings.lookup entry.2 = some entry.1 := by decide
    obtain ⟨no_digits, meaning⟩ := meant (c, letter) (mem_letterEscapes known)
    refine ⟨[letter], rfl, ?_⟩
    rw [List.singleton_append, escape?, no_digits]
    dsimp only
    rw [meaning]
    rfl
  · split
    · refine ⟨_, rfl, ?_⟩
      rw [hex 2 rfl (by decide) (by omega), List.length_cons, length_hexDigits]
    · split
      · refine ⟨_, rfl, ?_⟩
        rw [hex 4 rfl (by decide) (by omega), List.length_cons, length_hexDigits]
      · refine ⟨_, rfl, ?_⟩
        rw [hex 8 rfl (by decide) (by omega), List.length_cons, length_hexDigits]

theorem mem_hexDigits {width n : Nat} (inside : c ∈ hexDigits width n) :
    c ∈ "0123456789ABCDEF".toList := by
  have digits : ∀ digit < 16, "0123456789ABCDEF".toList.getD digit '0' ∈
      "0123456789ABCDEF".toList := by decide
  obtain ⟨place, -, rfl⟩ := List.mem_map.mp inside
  exact digits _ (Nat.mod_lt _ (by decide))

/-- The characters of escapes. -/
def escapeAlphabet : Text :=
  "\\xuU".toList ++ "0123456789ABCDEF".toList ++ letterEscapes.map Prod.snd

theorem mem_escapeChar {d : Char} (inside : d ∈ escapeChar c) : d ∈ escapeAlphabet := by
  have hex {letter : Char} {width : Nat} (known : letter ∈ escapeAlphabet)
      (inside : d ∈ '\\' :: letter :: hexDigits width c.toNat) : d ∈ escapeAlphabet := by
    obtain rfl | rfl | inside := by simpa using inside
    · decide
    · exact known
    · exact List.mem_append_left _ (List.mem_append_right _ (mem_hexDigits inside))
  unfold escapeChar at inside
  split at inside
  · next letter known =>
    obtain rfl | rfl : d = '\\' ∨ d = letter := by simpa using inside
    · decide
    · exact List.mem_append_right _ (List.mem_map_of_mem (mem_letterEscapes known))
  · split at inside
    · exact hex (by decide) inside
    · split at inside <;> exact hex (by decide) inside

/-- What stands for a character in double quotes is printable, and no break. -/
theorem doubleQuotedChar_form {d : Char} (inside : d ∈ doubleQuotedChar c) :
    isPrintable d ∧ isBreak d = false := by
  unfold doubleQuotedChar at inside
  split at inside
  · have form : escapeAlphabet.all fun d => isPrintable d && !isBreak d := by decide
    simpa using List.all_eq_true.mp form d (mem_escapeChar inside)
  · next plain =>
    simp only [Bool.or_eq_true, not_or, Bool.not_eq_true', Bool.not_eq_false] at plain
    obtain rfl := List.mem_singleton.mp inside
    exact ⟨plain.1.1.1, by simpa using plain.1.1.2⟩

theorem doubleQuotedFrom_skip (front rest : Text) :
    doubleQuotedFrom front.length (front ++ rest) = doubleQuotedFrom 0 rest := by
  induction front with
  | nil => rfl
  | cons c front ih => exact ih

theorem doubleQuotedFrom_char (c : Char) (rest : Text) :
    doubleQuotedFrom 0 (doubleQuotedChar c ++ rest) = (doubleQuotedFrom 0 rest).map (c :: ·) := by
  unfold doubleQuotedChar
  split
  · obtain ⟨behind, eq, read⟩ := escape?_escapeChar c rest
    rw [eq, List.cons_append, doubleQuotedFrom, if_neg (by decide), if_pos rfl, read]
    exact congrArg (·.map (c :: ·)) (doubleQuotedFrom_skip behind rest)
  · next plain =>
    simp only [Bool.or_eq_true, not_or, beq_iff_eq] at plain
    obtain ⟨⟨⟨-, unbroken⟩, not_quote⟩, not_backslash⟩ := plain
    rw [List.singleton_append, doubleQuotedFrom, if_neg not_quote, if_neg not_backslash,
      if_neg unbroken]

theorem doubleQuotedFrom_flatMap (text rest : Text) :
    doubleQuotedFrom 0 (text.flatMap doubleQuotedChar ++ rest) =
      (doubleQuotedFrom 0 rest).map (text ++ ·) := by
  induction text with
  | nil => simp
  | cons c text ih =>
    rw [List.flatMap_cons, List.append_assoc, doubleQuotedFrom_char, ih, Option.map_map]
    rfl

theorem readScalar?_doubleQuoted (text : Text) :
    readScalar? ('"' :: (text.flatMap doubleQuotedChar ++ ['"', '\n'])) = some text := by
  show doubleQuotedFrom 0 (text.flatMap doubleQuotedChar ++ ['"', '\n']) = some text
  rw [doubleQuotedFrom_flatMap]
  exact congrArg some (List.append_nil text)

end ManPage.Yaml
