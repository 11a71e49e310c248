import Mathlib.Data.List.Chain
import ManPage.Line.Words
import ManPage.Proofs.Text.Scan

/-! Words in quotes. Where no backslash protects a blank, the words of a line are cut from its text
as it stands, and a word in quotes, with its own quotes doubled, is read back as it was. -/

namespace ManPage.Line

open Text

variable {place : Place} {text rest gap word : Text} {list : List Text}

/-! ### Protected blanks -/

/-- No backslash stands directly before a blank. -/
def NoneProtected (text : Text) : Prop :=
  text.IsChain fun a b => ¬(a = '\\' ∧ isBlank b)

instance (text : Text) : Decidable (NoneProtected text) :=
  inferInstanceAs (Decidable (List.IsChain _ text))

namespace NoneProtected

theorem append {first second : Text} (hf : NoneProtected first) (hs : NoneProtected second)
    (apart : '\\' ∉ first.getLast? ∨ ∀ c ∈ second.head?, isBlank c = false) :
    NoneProtected (first ++ second) := by
  refine List.isChain_append.mpr ⟨hf, hs, ?_⟩
  rintro last mem c mem' ⟨rfl, blank⟩
  rcases apart with other | visible
  · exact other mem
  · rw [visible c mem'] at blank
    cases blank

theorem cons_quote (unprotected : NoneProtected text) : NoneProtected ('"' :: text) := by
  have single : NoneProtected ['"'] := .singleton _
  exact single.append unprotected (.inl (by simp))

end NoneProtected

theorem noneProtected_iff :
    NoneProtected text ↔ ∀ c, isBlank c → ¬['\\', c] <:+: text := by
  rw [NoneProtected, List.isChain_iff_forall_rel_of_append_cons_cons]
  constructor
  · rintro chain c blank ⟨before, after, split⟩
    have pair : text = before ++ '\\' :: c :: after := by
      rw [← split, List.append_assoc]
      rfl
    exact chain pair ⟨rfl, blank⟩
  · rintro apart a b before after rfl ⟨rfl, blank⟩
    exact apart b blank ⟨before, after, by simp⟩

theorem backslash_not_mem (blanks : ∀ c ∈ gap, isBlank c) : '\\' ∉ gap :=
  fun mem => absurd (blanks '\\' mem) (by decide)

theorem noneProtected_of_blanks (blanks : ∀ c ∈ gap, isBlank c) : NoneProtected gap :=
  noneProtected_iff.mpr fun _ _ inside => backslash_not_mem blanks (inside.subset (by simp))

theorem escapePair_eq_some {c : Char} {found : Text} {width : Nat}
    (h : escapePair (c :: rest) = some (found, width)) :
    ∃ d rest', c = '\\' ∧ rest = d :: rest' ∧ width = 2 ∧
      found = if isBlank d then [protectedSpace] else ['\\', d] := by
  unfold escapePair at h
  split at h
  · rename_i d rest' eq
    obtain ⟨rfl, rfl⟩ := List.cons.inj eq
    simp only [Option.some.injEq, Prod.mk.injEq] at h
    exact ⟨d, rest', rfl, rfl, h.2.symm, h.1.symm⟩
  · cases h

/-- Where no blank is protected, a text stays as it is. -/
theorem protectBlanks_eq_self (unprotected : NoneProtected text) : protectBlanks text = text := by
  unfold protectBlanks
  induction text using scan_induction escapePair with
  | nil => rfl
  | skip c rest silent ih => rw [substitute_of_none silent, ih (List.IsChain.tail unprotected)]
  | hit c rest found width answer ih =>
    obtain ⟨d, rest, rfl, rfl, rfl, rfl⟩ := escapePair_eq_some answer
    have visible : ¬isBlank d = true := fun blank =>
      (List.isChain_cons_cons.mp unprotected).1 ⟨rfl, blank⟩
    rw [substitute_of_some answer, if_neg visible]
    exact congrArg ('\\' :: d :: ·) (ih (List.isChain_cons_cons.mp unprotected).2.tail)

theorem restoreSpaces_eq_self (foreign : protectedSpace ∉ word) : restoreSpaces word = word := by
  rw [restoreSpaces, List.map_congr_left fun c mem =>
    if_neg (fun eq : c = protectedSpace => foreign (eq ▸ mem)), List.map_id']

/-! ### Quotes -/

/-- A word with its quotes doubled. -/
def double (word : Text) : Text :=
  word.flatMap fun c => if c = '"' then ['"', '"'] else [c]

def quote (word : Text) : Text :=
  '"' :: double word ++ ['"']

theorem double_cons (c : Char) (word : Text) :
    double (c :: word) = (if c = '"' then ['"', '"'] else [c]) ++ double word :=
  List.flatMap_cons

theorem head?_double (word : Text) : (double word).head? = word.head? := by
  cases word with
  | nil => rfl
  | cons c word =>
    rw [double_cons]
    split <;> simp [*]

theorem noneProtected_double (unprotected : NoneProtected word) : NoneProtected (double word) := by
  induction word with
  | nil => exact .nil
  | cons c word ih =>
    obtain ⟨head, tail⟩ := List.isChain_cons.mp unprotected
    rw [double_cons, NoneProtected, List.isChain_append, head?_double]
    refine ⟨?_, ih tail, fun last mem next => ?_⟩
    · split <;> simp
    · split at mem
      · obtain rfl : '"' = last := by simpa using mem
        simp
      · obtain rfl : c = last := by simpa using mem
        exact head next

theorem getLast?_quote (word : Text) : (quote word).getLast? = some '"' :=
  List.getLast?_concat

theorem noneProtected_quote (unprotected : NoneProtected word) : NoneProtected (quote word) :=
  ((noneProtected_double unprotected).append (.singleton '"') (.inr fun c mem => by
    obtain rfl : '"' = c := by simpa using mem
    rfl)).cons_quote

/-! ### One step of the cutting -/

theorem cut_between_quote (rest : Text) :
    cut .between ('"' :: rest) = cut (.quoted []) rest := rfl

theorem cut_between_blank {c : Char} (blank : isBlank c) (rest : Text) :
    cut .between (c :: rest) = cut .between rest := by
  have noQuote : c ≠ '"' := by rintro rfl; cases blank
  have noEscape : c ≠ '\\' := by rintro rfl; cases blank
  rw [cut.eq_def]
  split <;> simp_all

theorem cut_between_char {c : Char} (visible : isBlank c = false) (noQuote : c ≠ '"')
    (noEscape : c ≠ '\\') (rest : Text) : cut .between (c :: rest) = cut (.word [c]) rest := by
  rw [cut.eq_def]
  split <;> simp_all

theorem cut_between_escape {c : Char} (noQuote : c ≠ '"') (rest : Text) :
    cut .between ('\\' :: c :: rest) = cut (.word [c, '\\']) rest := by
  rw [cut.eq_def]
  split <;> grind

theorem cut_word_blank {c : Char} (blank : isBlank c) (read rest : Text) :
    cut (.word read) (c :: rest) = (cut .between rest).map (read.reverse :: ·) id := by
  have noEscape : c ≠ '\\' := by rintro rfl; cases blank
  rw [cut.eq_def]
  split <;> simp_all

theorem cut_word_char {c : Char} (visible : isBlank c = false) (noEscape : c ≠ '\\')
    (read rest : Text) : cut (.word read) (c :: rest) = cut (.word (c :: read)) rest := by
  rw [cut.eq_def]
  split <;> simp_all

theorem cut_word_escape {c : Char} (noQuote : c ≠ '"') (read rest : Text) :
    cut (.word read) ('\\' :: c :: rest) = cut (.word (c :: '\\' :: read)) rest := by
  rw [cut.eq_def]
  split <;> grind

theorem cut_quoted_quotes (read rest : Text) :
    cut (.quoted read) ('"' :: '"' :: rest) = cut (.quoted ('"' :: read)) rest := rfl

theorem cut_quoted_quote (outside : rest.head? ≠ some '"') (read : Text) :
    cut (.quoted read) ('"' :: rest) = (cut .between rest).map (read.reverse :: ·) id := by
  cases rest with
  | nil => rfl
  | cons c rest =>
    have other : c ≠ '"' := by simpa using outside
    rw [cut.eq_def]
    split <;> grind

theorem cut_quoted_char {c : Char} (other : c ≠ '"') (read rest : Text) :
    cut (.quoted read) (c :: rest) = cut (.quoted (c :: read)) rest := by
  rw [cut.eq_def]
  split <;> simp_all

/-- Where two cuttings agree, so do their words. -/
theorem cutWords_of_cut {place' : Place} (same : cut place text = cut place' rest) :
    cutWords place text = cutWords place' rest := by
  rw [cutWords, same, cutWords]

/-- A word that ends stands in front of the words that follow. -/
theorem cutWords_of_cut_map {place' : Place}
    (ends : cut place text = (cut place' rest).map (word :: ·) id) :
    cutWords place text = word :: cutWords place' rest := by
  rw [cutWords, ends]
  rfl

/-! ### Cutting quoted words -/

theorem cut_quoted (word : Text) (outside : rest.head? ≠ some '"') (read : Text) :
    cut (.quoted read) (double word ++ '"' :: rest) =
      (cut .between rest).map ((read.reverse ++ word) :: ·) id := by
  induction word generalizing read with
  | nil =>
    rw [List.append_nil]
    exact cut_quoted_quote outside read
  | cons c word ih =>
    rw [double_cons]
    by_cases isQuote : c = '"'
    · rw [if_pos isQuote, isQuote]
      show cut (.quoted read) ('"' :: '"' :: (double word ++ '"' :: rest)) = _
      rw [cut_quoted_quotes, ih]
      simp
    · rw [if_neg isQuote]
      show cut (.quoted read) (c :: (double word ++ '"' :: rest)) = _
      rw [cut_quoted_char isQuote, ih]
      simp

/-- A word in quotes is read back, unless a quote follows it. -/
theorem cut_quote (word : Text) (outside : rest.head? ≠ some '"') :
    cut .between (quote word ++ rest) = (cut .between rest).map (word :: ·) id := by
  have split : quote word ++ rest = '"' :: (double word ++ '"' :: rest) := by simp [quote]
  rw [split, cut_between_quote]
  exact cut_quoted word outside []

theorem cut_blanks (blanks : ∀ c ∈ gap, isBlank c) (rest : Text) :
    cut .between (gap ++ rest) = cut .between rest := by
  induction gap with
  | nil => rfl
  | cons c gap ih =>
    rw [List.cons_append, cut_between_blank (blanks c List.mem_cons_self)]
    exact ih fun d mem => blanks d (List.mem_cons_of_mem c mem)

/-- A text that is words in quotes, with blanks between them. -/
inductive Quoted : List Text → Text → Prop
  | none : Quoted [] []
  | last (word : Text) : Quoted [word] (quote word)
  | more {word next gap text : Text} {list : List Text} (nonempty : gap ≠ [])
      (blanks : ∀ c ∈ gap, isBlank c) (rest : Quoted (next :: list) text) :
      Quoted (word :: next :: list) (quote word ++ (gap ++ text))

theorem Quoted.noneProtected (quoted : Quoted list text)
    (plain : ∀ word ∈ list, NoneProtected word) : NoneProtected text := by
  induction quoted with
  | none => exact .nil
  | last word => exact noneProtected_quote (plain word List.mem_cons_self)
  | @more word next gap text list nonempty blanks rest ih =>
    have behind : NoneProtected (gap ++ text) :=
      (noneProtected_of_blanks blanks).append (ih fun w mem => plain w (List.mem_cons_of_mem _ mem))
        (.inl fun mem => backslash_not_mem blanks (List.mem_of_getLast? mem))
    exact (noneProtected_quote (plain word List.mem_cons_self)).append behind
      (.inl fun mem => absurd (mem.symm.trans (getLast?_quote word)) (by decide))

/-- The cutting of words in quotes ends between words. -/
theorem Quoted.cut (quoted : Quoted list text) : cut .between text = (list, .between) := by
  induction quoted with
  | none => rfl
  | last word =>
    have read := cut_quote word (show ([] : Text).head? ≠ some '"' by simp)
    rwa [List.append_nil] at read
  | @more word next gap text list nonempty blanks rest ih =>
    have outside : (gap ++ text).head? ≠ some '"' := by
      intro first
      rw [List.head?_append_of_ne_nil _ nonempty] at first
      exact absurd (blanks '"' (List.mem_of_mem_head? first)) (by decide)
    rw [cut_quote word outside, cut_blanks blanks, ih]
    rfl

/-- Words in quotes, with their quotes doubled and blanks between them, are read back as they are,
unless a word holds the stand-in for protected blanks, or a backslash that protects one. -/
theorem words_of_quoted (quoted : Quoted list text)
    (plain : ∀ word ∈ list,
      protectedSpace ∉ word ∧ ∀ c, isBlank c → ¬['\\', c] <:+: word) :
    words text = list := by
  have unprotected : NoneProtected text := quoted.noneProtected fun word mem =>
    noneProtected_iff.mpr (plain word mem).2
  have read : cutWords .between text = list := by
    rw [cutWords, quoted.cut]
    exact List.append_nil list
  rw [words, protectBlanks_eq_self unprotected, read, List.map_congr_left fun word mem =>
    restoreSpaces_eq_self (plain word mem).1, List.map_id']

/-- The empty word, a word of quotes, and words that end with a backslash. -/
theorem words_of_quoted_backslash :
    let list := ["", "\"\"", "a b\\", "\\"].map String.toList
    let text := "\"\" \"\"\"\"\"\"\t\"a b\\\" \t\"\\\"".toList
    Quoted list text ∧ (∀ word ∈ list,
      protectedSpace ∉ word ∧ ∀ c, isBlank c → ¬['\\', c] <:+: word) ∧ words text = list := by
  intro list text
  have quoted : Quoted list text :=
    @Quoted.more _ _ [' '] _ _ (by decide) (by simp [isBlank]) <|
      @Quoted.more _ _ ['\t'] _ _ (by decide) (by simp [isBlank]) <|
        @Quoted.more _ _ [' ', '\t'] _ _ (by decide) (by simp [isBlank]) <| .last ['\\']
  have plain : ∀ word ∈ list,
      protectedSpace ∉ word ∧ ∀ c, isBlank c → ¬['\\', c] <:+: word := by
    have plain : ∀ word ∈ list, protectedSpace ∉ word ∧ NoneProtected word := by decide
    exact fun word mem => ⟨(plain word mem).1, noneProtected_iff.mp (plain word mem).2⟩
  exact ⟨quoted, plain, words_of_quoted quoted plain⟩

end ManPage.Line
