import Mathlib.Computability.Language
import ManPage.Proofs.Inline.Link

/-! The grammar of addresses, and why taking as much as possible part by part gives the longest
address at a position. Where a part could be shorter, what the parts behind it could then take lies
within the longer one. -/

namespace ManPage.Inline

open Text
open scoped Computability

/-! ### The grammar -/

def wordsOf (words : List Text) : Language Char :=
  {word | word ∈ words}

/-- One or more characters that satisfy `p`. -/
def stretches (p : Char → Bool) : Language Char :=
  {text | text ≠ [] ∧ ∀ c ∈ text, p c}

/-- Stretches with dots between them. -/
def dotted (p : Char → Bool) : Language Char :=
  stretches p * ({['.']} * stretches p)∗

def hosts : Language Char :=
  dotted isLabelChar

def ports : Language Char :=
  1 + {[':']} * stretches Char.isDigit

def paths : Language Char :=
  ({['/']} * dotted isSegmentChar)∗

def lastParts : Language Char :=
  1 + wordsOf endings

/-- The addresses: a scheme, a host, and as far as they are there a port, a path and an ending. -/
def addresses : Language Char :=
  wordsOf schemes * (hosts * (ports * (paths * lastParts)))

/-! ### Runs with separators -/

section Runs

variable {p separator : Char → Bool} {c : Char} {text part first second rest : Text}

/-- A text all of which `runWidth` takes. -/
def IsRun (p separator : Char → Bool) (text : Text) : Prop :=
  runWidth p separator text = text.length

instance : Decidable (IsRun p separator text) :=
  inferInstanceAs (Decidable (_ = _))

theorem isRun_nil : IsRun p separator [] := rfl

theorem isRun_cons : IsRun p separator (c :: rest) ↔
    (p c ∨ separator c ∧ rest.head?.any p) ∧ IsRun p separator rest := by
  unfold IsRun
  rw [runWidth, List.length_cons]
  split <;> simp_all

theorem runWidth_mono (start : part <+: text) :
    runWidth p separator part ≤ runWidth p separator text := by
  induction part generalizing text with
  | nil => exact Nat.zero_le _
  | cons c part ih =>
    obtain ⟨rest, rfl, inside⟩ : ∃ rest, text = c :: rest ∧ part <+: rest := by
      obtain ⟨rest, rfl⟩ := start
      exact ⟨part ++ rest, rfl, List.prefix_append part rest⟩
    have next : part.head?.any p → rest.head?.any p := by
      obtain ⟨behind, rfl⟩ := inside
      cases part with
      | nil => simp
      | cons d part => exact id
    have tail := ih inside
    rw [runWidth, runWidth]
    split
    · rename_i takes
      rw [if_pos]
      · omega
      · simp only [Bool.or_eq_true, Bool.and_eq_true] at takes ⊢
        exact takes.imp_right fun both => ⟨both.1, next both.2⟩
    · exact Nat.zero_le _

theorem IsRun.length_le (run : IsRun p separator part) (start : part <+: text) :
    part.length ≤ runWidth p separator text :=
  run ▸ runWidth_mono start

theorem isRun_take (p separator : Char → Bool) (text : Text) :
    IsRun p separator (text.take (runWidth p separator text)) := by
  induction text with
  | nil => rfl
  | cons c rest ih =>
    rw [runWidth]
    split
    · rename_i takes
      simp only [Bool.or_eq_true, Bool.and_eq_true] at takes
      rw [List.take_succ_cons, isRun_cons]
      refine ⟨takes.imp_right fun both => ⟨both.1, ?_⟩, ih⟩
      obtain ⟨-, next⟩ := both
      cases rest with
      | nil => simp at next
      | cons d rest =>
        have positive : runWidth p separator (d :: rest) ≠ 0 := by
          rw [runWidth, if_pos (by simpa using .inl next)]
          exact Nat.succ_ne_zero _
        obtain ⟨n, eq⟩ := Nat.exists_eq_succ_of_ne_zero positive
        rwa [eq, List.take_succ_cons]
    · exact isRun_nil

theorem IsRun.append (run : IsRun p separator first) (run' : IsRun p separator second) :
    IsRun p separator (first ++ second) := by
  induction first with
  | nil => exact run'
  | cons c first ih =>
    rw [isRun_cons] at run
    rw [List.cons_append, isRun_cons]
    refine ⟨run.1.imp_right fun both => ⟨both.1, ?_⟩, ih run.2⟩
    cases first with
    | nil => simp at both
    | cons d first => exact both.2

/-- Induction over a run that begins with no separator. -/
theorem IsRun.induction {motive : Text → Prop} (single : ∀ c, p c → motive [c])
    (char : ∀ c rest, p c → motive rest → motive (c :: rest))
    (separated : ∀ c s rest, p c → separator s → motive rest → motive (c :: s :: rest))
    (run : IsRun p separator text) (start : text.head?.any p) : motive text := by
  induction hn : text.length using Nat.strongRecOn generalizing text with
  | ind n ih =>
    subst hn
    match text, run, start with
    | [c], run, start => exact single c (by simpa using start)
    | c :: d :: rest, run, start =>
      have first : p c := by simpa using start
      obtain ⟨-, tail⟩ := isRun_cons.mp run
      obtain ⟨second | ⟨between, next⟩, behind⟩ := isRun_cons.mp tail
      · exact char c (d :: rest) first (ih _ (by simp) tail (by simpa using second) rfl)
      · have shorter : rest.length < (c :: d :: rest).length := by
          simp only [List.length_cons]
          omega
        exact separated c d rest first between (ih _ shorter behind next rfl)

theorem isRun_of_forall (chars : ∀ c ∈ text, p c) : IsRun p separator text := by
  induction text with
  | nil => exact isRun_nil
  | cons c rest ih =>
    exact isRun_cons.mpr ⟨.inl (chars c List.mem_cons_self),
      ih fun d mem => chars d (List.mem_cons_of_mem c mem)⟩

theorem isRun_flatten {parts : List Text} (runs : ∀ part ∈ parts, IsRun p separator part) :
    IsRun p separator parts.flatten := by
  induction parts with
  | nil => exact isRun_nil
  | cons part parts ih =>
    exact (runs part List.mem_cons_self).append
      (ih fun part mem => runs part (List.mem_cons_of_mem _ mem))

theorem IsRun.mono {separator' : Char → Bool} (implies : ∀ c, separator c → separator' c)
    (run : IsRun p separator text) : IsRun p separator' text := by
  induction text with
  | nil => exact isRun_nil
  | cons c rest ih =>
    obtain ⟨first, tail⟩ := isRun_cons.mp run
    exact isRun_cons.mpr ⟨first.imp_right fun both => ⟨implies c both.1, both.2⟩, ih tail⟩

end Runs

/-! ### The grammar by runs -/

section Dotted

variable {p : Char → Bool} {c : Char} {text rest : Text}

theorem append_mem_kstar {language : Language Char} {first second : Text}
    (head : first ∈ language) (tail : second ∈ language∗) : first ++ second ∈ language∗ := by
  rw [← Language.one_add_self_mul_kstar_eq_kstar]
  exact .inr (Language.append_mem_mul head tail)

theorem singleton_mem_dotted (char : p c) : [c] ∈ dotted p := by
  have stretch : [c] ∈ stretches p := ⟨List.cons_ne_nil c [], by simpa using char⟩
  have whole := Language.append_mem_mul stretch (Language.nil_mem_kstar ({['.']} * stretches p))
  rwa [List.append_nil] at whole

theorem cons_mem_dotted (char : p c) (mem : text ∈ dotted p) : c :: text ∈ dotted p := by
  obtain ⟨stretch, ⟨-, chars⟩, rest, more, rfl⟩ := Language.mem_mul.mp mem
  have longer : c :: stretch ∈ stretches p :=
    ⟨List.cons_ne_nil c stretch, by simpa using ⟨char, chars⟩⟩
  exact Language.append_mem_mul longer more

theorem cons_dot_mem_dotted (char : p c) (mem : text ∈ dotted p) : c :: '.' :: text ∈ dotted p := by
  obtain ⟨stretch, first, rest, more, rfl⟩ := Language.mem_mul.mp mem
  have alone : [c] ∈ stretches p := ⟨List.cons_ne_nil c [], by simpa using char⟩
  have behind : ['.'] ++ stretch ∈ ({['.']} * stretches p : Language Char) :=
    Language.append_mem_mul rfl first
  exact Language.append_mem_mul alone (append_mem_kstar behind more)

theorem isRun_of_mem_kstar {language : Language Char} {separator : Char → Bool}
    (runs : ∀ part ∈ language, IsRun p separator part) (mem : text ∈ language∗) :
    IsRun p separator text := by
  obtain ⟨parts, rfl, inside⟩ := Language.mem_kstar.mp mem
  exact isRun_flatten fun part mem => runs part (inside part mem)

/-- What stands behind a separator begins with a character that satisfies `p`. -/
theorem isRun_separated {separator : Char → Bool} {s : Char} (between : separator s)
    (start : text.head?.any p) (run : IsRun p separator text) : IsRun p separator ([s] ++ text) :=
  isRun_cons.mpr ⟨.inr ⟨between, start⟩, run⟩

theorem isRun_of_mem_stretches {separator : Char → Bool} (mem : text ∈ stretches p) :
    text.head?.any p ∧ IsRun p separator text := by
  obtain ⟨nonempty, chars⟩ := mem
  obtain ⟨c, rest, rfl⟩ := List.exists_cons_of_ne_nil nonempty
  exact ⟨by simpa using chars c List.mem_cons_self, isRun_of_forall chars⟩

theorem mem_dotted_iff : text ∈ dotted p ↔ text.head?.any p ∧ IsRun p (· == '.') text := by
  constructor
  · intro mem
    obtain ⟨stretch, first, rest, more, rfl⟩ := Language.mem_mul.mp mem
    obtain ⟨start, run⟩ := isRun_of_mem_stretches first
    have behind : IsRun p (· == '.') rest := by
      refine isRun_of_mem_kstar (fun part mem => ?_) more
      obtain ⟨_, rfl, stretch, chars, rfl⟩ := Language.mem_mul.mp mem
      obtain ⟨start, run⟩ := isRun_of_mem_stretches chars
      exact isRun_separated (by decide) start run
    refine ⟨?_, run.append behind⟩
    obtain ⟨c, stretch, rfl⟩ := List.exists_cons_of_ne_nil first.1
    exact start
  · rintro ⟨start, run⟩
    refine IsRun.induction (motive := (· ∈ dotted p)) (fun c char => singleton_mem_dotted char)
      (fun c rest char => cons_mem_dotted char) (fun c s rest char between mem => ?_) run start
    obtain rfl : s = '.' := by simpa using between
    exact cons_dot_mem_dotted char mem

/-- What separates the characters of a path. -/
def isPathSeparator (c : Char) : Bool :=
  c == '/' || c == '.'

theorem nil_mem_paths : [] ∈ paths :=
  Language.nil_mem_kstar _

theorem cons_mem_paths {segment path : Text} (first : segment ∈ dotted isSegmentChar)
    (more : path ∈ paths) : '/' :: (segment ++ path) ∈ paths := by
  have behind : ['/'] ++ segment ∈ ({['/']} * dotted isSegmentChar : Language Char) :=
    Language.append_mem_mul rfl first
  exact append_mem_kstar behind more

/-- A run of segments is a segment with a path behind it. -/
theorem mem_segment_mul_paths (run : IsRun isSegmentChar isPathSeparator text)
    (start : text.head?.any isSegmentChar) : text ∈ dotted isSegmentChar * paths := by
  refine IsRun.induction (motive := (· ∈ dotted isSegmentChar * paths)) (fun c char => ?_)
    (fun c rest char mem => ?_) (fun c s rest char between mem => ?_) run start
  · have whole := Language.append_mem_mul (singleton_mem_dotted char) nil_mem_paths
    rwa [List.append_nil] at whole
  · obtain ⟨segment, first, path, more, rfl⟩ := Language.mem_mul.mp mem
    exact Language.append_mem_mul (cons_mem_dotted char first) more
  · obtain ⟨segment, first, path, more, rfl⟩ := Language.mem_mul.mp mem
    have slashOrDot : s = '/' ∨ s = '.' := by simpa [isPathSeparator] using between
    rcases slashOrDot with rfl | rfl
    · exact Language.append_mem_mul (singleton_mem_dotted char) (cons_mem_paths first more)
    · exact Language.append_mem_mul (cons_dot_mem_dotted char first) more

theorem mem_paths_iff : text ∈ paths ↔
    (text = [] ∨ text.head? = some '/') ∧ IsRun isSegmentChar isPathSeparator text := by
  constructor
  · intro mem
    refine ⟨?_, isRun_of_mem_kstar (fun part mem => ?_) mem⟩
    · obtain ⟨parts, rfl, inside⟩ := Language.mem_kstar.mp mem
      cases parts with
      | nil => exact .inl rfl
      | cons part parts =>
        obtain ⟨_, rfl, segment, -, rfl⟩ := Language.mem_mul.mp (inside part List.mem_cons_self)
        exact .inr rfl
    · obtain ⟨_, rfl, segment, first, rfl⟩ := Language.mem_mul.mp mem
      obtain ⟨start, run⟩ := mem_dotted_iff.mp first
      exact isRun_separated (by decide) start
        (run.mono fun c dot => by simp [isPathSeparator, dot])
  · rintro ⟨rfl | start, run⟩
    · exact nil_mem_paths
    · obtain ⟨rest, rfl⟩ := List.head?_eq_some_iff.mp start
      obtain ⟨first, tail⟩ := isRun_cons.mp run
      have next : rest.head?.any isSegmentChar := (first.resolve_left (by decide)).2
      obtain ⟨segment, inside, path, more, rfl⟩ :=
        Language.mem_mul.mp (mem_segment_mul_paths tail next)
      exact cons_mem_paths inside more

end Dotted

/-! ### Parts that are as long as they can be -/

/-- At the start of each text, `width` takes a part that belongs to `language`, and the longest. -/
structure Greedy (language : Language Char) (width : Text → Nat) : Prop where
  mem (text : Text) : text.take (width text) ∈ language
  longest {part text : Text} : part ∈ language → part <+: text → part.length ≤ width text

section Greedy

variable {language behind : Language Char} {width widthBehind : Text → Nat} {text part : Text}

theorem prefix_drop {first second : Text} (start : first ++ second <+: text) :
    second <+: text.drop first.length := by
  obtain ⟨rest, rfl⟩ := start
  rw [List.append_assoc, List.drop_left]
  exact List.prefix_append second rest

/-- Two parts in a row are as long as they can be if they are so one after the other, and, wherever
the first one is shorter, both lie in the longest first one. -/
theorem length_append_le {first second : Text} {n : Nat} (start : first ++ second <+: text)
    (le : first.length ≤ n) (within : first.length < n → (first ++ second).length ≤ n)
    (longest : second <+: text.drop n → second.length ≤ widthBehind (text.drop n)) :
    (first ++ second).length ≤ n + widthBehind (text.drop n) := by
  rcases Nat.lt_or_eq_of_le le with shorter | rfl
  · exact (within shorter).trans (Nat.le_add_right n _)
  · rw [List.length_append]
    exact Nat.add_le_add_left (longest (prefix_drop start)) _

theorem Greedy.mul (greedy : Greedy language width) (greedyBehind : Greedy behind widthBehind)
    (within : ∀ first ∈ language, ∀ second ∈ behind, ∀ text, first ++ second <+: text →
      first.length < width text → (first ++ second).length ≤ width text) :
    Greedy (language * behind) fun text => width text + widthBehind (text.drop (width text)) where
  mem text := by
    rw [List.take_add]
    exact Language.append_mem_mul (greedy.mem text) (greedyBehind.mem _)
  longest mem start := by
    obtain ⟨first, inside, second, insideBehind, rfl⟩ := Language.mem_mul.mp mem
    exact length_append_le start
      (greedy.longest inside ((List.prefix_append first second).trans start))
      (within first inside second insideBehind _ start) (greedyBehind.longest insideBehind)

end Greedy

section Parts

variable {text part first second : Text} {c : Char}

theorem mem_one_add {language : Language Char} :
    text ∈ 1 + language ↔ text = [] ∨ text ∈ language := by
  rw [Language.mem_add, Language.mem_one]

theorem length_takeWhile_of_prefix {p : Char → Bool} (chars : ∀ c ∈ part, p c)
    (start : part <+: text) : part.length ≤ (text.takeWhile p).length := by
  obtain ⟨rest, rfl⟩ := start
  rw [List.takeWhile_append_of_pos chars, List.length_append]
  exact Nat.le_add_right _ _

theorem greedy_ports : Greedy ports portWidth where
  mem text := by
    unfold portWidth
    split
    · rename_i rest
      dsimp only
      split
      · exact mem_one_add.mpr (.inl rfl)
      · rename_i digits
        have taken := List.prefix_iff_eq_take.mp (List.takeWhile_prefix (l := rest) Char.isDigit)
        rw [List.take_succ_cons, ← taken]
        refine mem_one_add.mpr (.inr (Language.append_mem_mul (a := [':']) rfl ⟨?_, ?_⟩))
        · exact fun empty => digits (by rw [empty, List.length_nil])
        · exact List.all_eq_true.mp List.all_takeWhile
    · exact mem_one_add.mpr (.inl rfl)
  longest mem start := by
    rcases mem_one_add.mp mem with rfl | mem
    · exact Nat.zero_le _
    · obtain ⟨_, rfl, digits, ⟨nonempty, chars⟩, rfl⟩ := Language.mem_mul.mp mem
      obtain ⟨rest, rfl⟩ := start
      have longer := length_takeWhile_of_prefix chars (List.prefix_append digits rest)
      have positive := List.length_pos_iff.mpr nonempty
      show digits.length + 1 ≤ portWidth (':' :: (digits ++ rest))
      rw [portWidth, if_neg (by omega)]
      omega

theorem greedy_paths : Greedy paths pathWidth where
  mem text := by
    unfold pathWidth
    split
    · rename_i slash
      refine mem_paths_iff.mpr ⟨?_, isRun_take _ _ text⟩
      obtain ⟨rest, rfl⟩ := List.head?_eq_some_iff.mp slash
      cases runWidth isSegmentChar (fun c => c == '/' || c == '.') ('/' :: rest) with
      | zero => exact .inl rfl
      | succ n => exact .inr rfl
    · exact nil_mem_paths
  longest {part text} mem start := by
    obtain ⟨rfl | slash, run⟩ := mem_paths_iff.mp mem
    · exact Nat.zero_le _
    · have begins : text.head? = some '/' := by
        obtain ⟨rest, rfl⟩ := start
        rw [List.head?_append, slash, Option.some_or]
      rw [pathWidth, if_pos begins]
      exact run.length_le start

/-- No ending and no scheme begins another. -/
theorem distinct_words : (∀ a ∈ endings, ∀ b ∈ endings, a <+: b → a = b) ∧
    ∀ a ∈ schemes, ∀ b ∈ schemes, a <+: b → a = b := by
  decide

/-- Of words none of which begins another, a text that begins with one begins with no other. -/
theorem find?_prefix {words : List Text} (distinct : ∀ a ∈ words, ∀ b ∈ words, a <+: b → a = b)
    (mem : part ∈ words) (start : part <+: text) :
    words.find? (·.isPrefixOf text) = some part := by
  cases found : words.find? (·.isPrefixOf text) with
  | none =>
    rw [List.find?_eq_none] at found
    exact absurd (by simpa using start) (found part mem)
  | some other =>
    have inside := List.mem_of_find?_eq_some found
    have begins : other <+: text := by simpa using List.find?_some found
    rcases List.prefix_or_prefix_of_prefix begins start with within | within
    · rw [distinct other inside part mem within]
    · rw [distinct part mem other inside within]

theorem greedy_lastParts : Greedy lastParts endingWidth where
  mem text := by
    unfold endingWidth
    cases found : endings.find? (·.isPrefixOf text) with
    | none => exact mem_one_add.mpr (.inl rfl)
    | some ending =>
      have start : ending <+: text := by simpa using List.find?_some found
      rw [Option.getD_some, ← List.prefix_iff_eq_take.mp start]
      exact mem_one_add.mpr (.inr (List.mem_of_find?_eq_some found))
  longest mem start := by
    rcases mem_one_add.mp mem with rfl | mem
    · exact Nat.zero_le _
    · rw [endingWidth, find?_prefix distinct_words.1 mem start, Option.getD_some]

theorem mem_take_of_append {n : Nat} (start : first ++ c :: second <+: text)
    (within : first.length < n) : c ∈ text.take n := by
  obtain ⟨rest, rfl⟩ := start
  obtain ⟨m, rfl⟩ : ∃ m, n = first.length + (m + 1) := ⟨n - first.length - 1, by omega⟩
  rw [List.append_assoc, List.take_length_add_append]
  simp

/-- An ending is a slash, or a dot with characters behind it that a label and a segment can hold. -/
theorem endings_form : ∀ ending ∈ endings, ending = ['/'] ∨ ending.head? = some '.' ∧
    IsRun isLabelChar (· == '.') ending ∧ IsRun isSegmentChar isPathSeparator ending := by
  decide

/-- Where a path is not as long as it can be, an ending behind it lies in the longest one. -/
theorem path_within (mem : first ∈ paths) (last : second ∈ lastParts)
    (start : first ++ second <+: text) (shorter : first.length < pathWidth text) :
    (first ++ second).length ≤ pathWidth text := by
  rcases mem_one_add.mp last with rfl | last
  · simpa using shorter.le
  · rcases endings_form second last with rfl | ⟨dot, -, run⟩
    · simpa using Nat.succ_le_of_lt shorter
    · have slash : text.head? = some '/' := by
        by_contra other
        rw [pathWidth, if_neg other] at shorter
        exact absurd shorter (Nat.not_lt_zero _)
      obtain ⟨rfl | begins, path⟩ := mem_paths_iff.mp mem
      · obtain ⟨rest, rfl⟩ := start
        rw [List.nil_append, List.head?_append, dot] at slash
        cases slash
      · refine greedy_paths.longest (mem_paths_iff.mpr ⟨.inr ?_, path.append run⟩) start
        rw [List.head?_append, begins, Option.some_or]

def tailWidth (text : Text) : Nat :=
  pathWidth text + endingWidth (text.drop (pathWidth text))

theorem greedy_pathTail : Greedy (paths * lastParts) tailWidth :=
  greedy_paths.mul greedy_lastParts fun _ mem _ last _ => path_within mem last

/-- What a text behind a port begins with. -/
theorem head_pathTail (mem : text ∈ paths * lastParts) :
    text = [] ∨ text.head? = some '/' ∨ text ∈ endings ∧ text.head? = some '.' := by
  obtain ⟨path, first, ending, last, rfl⟩ := Language.mem_mul.mp mem
  obtain ⟨rfl | slash, -⟩ := mem_paths_iff.mp first
  · rcases mem_one_add.mp last with rfl | last
    · exact .inl rfl
    · rcases endings_form ending last with rfl | ⟨dot, -⟩
      · exact .inr (.inl rfl)
      · exact .inr (.inr ⟨last, dot⟩)
  · refine .inr (.inl ?_)
    rw [List.head?_append, slash, Option.some_or]

theorem mem_port (mem : text ∈ ports) : ∀ c ∈ text, c = ':' ∨ c.isDigit := by
  rcases mem_one_add.mp mem with rfl | mem
  · simp
  · obtain ⟨_, rfl, digits, ⟨-, chars⟩, rfl⟩ := Language.mem_mul.mp mem
    simpa using fun c mem => .inr (chars c mem)

/-- A port that is not as long as it can be has nothing behind it. -/
theorem port_within (tail : second ∈ paths * lastParts) (start : first ++ second <+: text)
    (shorter : first.length < portWidth text) : (first ++ second).length ≤ portWidth text := by
  cases second with
  | nil => simpa using shorter.le
  | cons c second =>
    have inside := mem_port (greedy_ports.mem text) c (mem_take_of_append start shorter)
    rcases head_pathTail tail with empty | slash | ⟨-, dot⟩
    · cases empty
    · cases slash
      exact absurd inside (by decide)
    · cases dot
      exact absurd inside (by decide)

def portTailWidth (text : Text) : Nat :=
  portWidth text + tailWidth (text.drop (portWidth text))

theorem greedy_portTail : Greedy (ports * (paths * lastParts)) portTailWidth :=
  greedy_ports.mul greedy_pathTail fun _ _ _ tail _ => port_within tail

/-! ### Addresses -/

theorem hostWidth_eq (positive : hostWidth text ≠ 0) : text.head?.any isLabelChar ∧
    hostWidth text = runWidth isLabelChar (· == '.') text := by
  unfold hostWidth at positive ⊢
  split at positive
  · rename_i label
    exact ⟨label, if_pos label⟩
  · exact absurd rfl positive

theorem mem_hosts_of_hostWidth (positive : hostWidth text ≠ 0) :
    text.take (hostWidth text) ∈ hosts := by
  obtain ⟨label, eq⟩ := hostWidth_eq positive
  have run := isRun_take isLabelChar (· == '.') text
  rw [← eq] at run
  refine mem_dotted_iff.mpr ⟨?_, run⟩
  rwa [List.head?_take, if_neg positive]

theorem host_longest (mem : part ∈ hosts) (start : part <+: text) :
    part.length ≤ hostWidth text := by
  obtain ⟨label, run⟩ := mem_dotted_iff.mp mem
  have begins : text.head?.any isLabelChar := by
    obtain ⟨rest, rfl⟩ := start
    cases part with
    | nil => cases label
    | cons c part => exact label
  rw [hostWidth, if_pos begins]
  exact run.length_le start

/-- Where a host is not as long as it can be, an ending behind it lies in the longest one, and
nothing else is behind it. -/
theorem host_within (mem : first ∈ hosts) (tail : second ∈ ports * (paths * lastParts))
    (start : first ++ second <+: text) (shorter : first.length < hostWidth text) :
    (first ++ second).length ≤ hostWidth text := by
  cases second with
  | nil => simpa using shorter.le
  | cons c second =>
    have inside : isLabelChar c ∨ (c == '.') = true := by
      obtain ⟨-, eq⟩ := hostWidth_eq (Nat.ne_zero_of_lt shorter)
      exact mem_take_runWidth _ _ text c (eq ▸ mem_take_of_append start shorter)
    obtain ⟨port, first', rest, tail, eq⟩ := Language.mem_mul.mp tail
    rcases mem_one_add.mp first' with rfl | colon
    · obtain rfl : rest = c :: second := eq
      rcases head_pathTail tail with empty | slash | ⟨last, dot⟩
      · cases empty
      · cases slash
        exact absurd inside (by decide)
      · obtain ⟨label, run⟩ := mem_dotted_iff.mp mem
        rcases endings_form _ last with slash | ⟨-, ending, -⟩
        · cases slash
          cases dot
        · refine host_longest (mem_dotted_iff.mpr ⟨?_, run.append ending⟩) start
          cases first with
          | nil => cases label
          | cons d first => exact label
    · obtain ⟨_, rfl, digits, -, rfl⟩ := Language.mem_mul.mp colon
      cases eq
      exact absurd inside (by decide)

/-- An address at the start of a text that is the longest one there. -/
structure IsLongest (address text : Text) : Prop where
  mem : address ∈ addresses
  start : address <+: text
  longest : ∀ other ∈ addresses, other <+: text → other.length ≤ address.length

theorem addressWidth_eq (positive : hostWidth text ≠ 0) : addressWidth text =
    hostWidth text + portTailWidth (text.drop (hostWidth text)) := by
  rw [addressWidth]
  dsimp only
  rw [if_neg positive, portTailWidth, tailWidth, List.drop_drop, List.drop_drop]
  omega

/-- A host and what is behind it are no longer than what `addressWidth` takes. -/
theorem length_le_addressWidth (mem : part ∈ hosts * (ports * (paths * lastParts)))
    (start : part <+: text) : addressWidth text ≠ 0 ∧ part.length ≤ addressWidth text := by
  obtain ⟨host, first, tail, more, rfl⟩ := Language.mem_mul.mp mem
  have le := host_longest first ((List.prefix_append host tail).trans start)
  have positive : host.length ≠ 0 := by
    intro empty
    obtain rfl := List.eq_nil_of_length_eq_zero empty
    exact absurd (mem_dotted_iff.mp first).1 (by decide)
  have taken : hostWidth text ≠ 0 := by omega
  rw [addressWidth_eq taken]
  refine ⟨by omega, ?_⟩
  exact length_append_le start le (host_within first more start) (greedy_portTail.longest more)

theorem mem_of_addressWidth (positive : addressWidth text ≠ 0) :
    text.take (addressWidth text) ∈ hosts * (ports * (paths * lastParts)) := by
  have host : hostWidth text ≠ 0 := fun zero => positive (by rw [addressWidth, if_pos zero])
  rw [addressWidth_eq host, List.take_add]
  exact Language.append_mem_mul (mem_hosts_of_hostWidth host) (greedy_portTail.mem _)

/-- What `addressAt` answers is the longest address. -/
theorem isLongest_of_addressAt {address : Text} {width : Nat}
    (found : addressAt text = some (address, width)) :
    IsLongest address text ∧ address = text.take width := by
  simp only [addressAt, Option.bind_eq_bind, Option.bind_eq_some_iff] at found
  obtain ⟨scheme, known, found⟩ := found
  split at found
  · cases found
  · rename_i positive
    cases found
    have begins : scheme <+: text := by simpa using List.find?_some known
    obtain ⟨rest, rfl⟩ := begins
    rw [List.drop_left] at positive ⊢
    refine ⟨⟨?_, List.take_prefix _ _, fun other mem start => ?_⟩, rfl⟩
    · rw [List.take_length_add_append]
      exact Language.append_mem_mul (List.mem_of_find?_eq_some known) (mem_of_addressWidth positive)
    · obtain ⟨scheme', known', tail, more, rfl⟩ := Language.mem_mul.mp mem
      have same := find?_prefix distinct_words.2 known' ((List.prefix_append _ tail).trans start)
      obtain rfl : scheme = scheme' := Option.some.inj (known.symm.trans same)
      have behind := (List.prefix_append_right_inj scheme).mp start
      have le := (length_le_addressWidth more behind).2
      have within := behind.length_le
      rw [List.take_length_add_append, List.length_append, List.length_append, List.length_take]
      omega

theorem isSome_addressAt (mem : part ∈ addresses) (start : part <+: text) :
    (addressAt text).isSome := by
  obtain ⟨scheme, known, tail, more, rfl⟩ := Language.mem_mul.mp mem
  have found := find?_prefix distinct_words.2 known ((List.prefix_append _ tail).trans start)
  have positive := (length_le_addressWidth more (prefix_drop start)).1
  simp [addressAt, found, positive]

theorem addressAt_eq_none_iff :
    addressAt text = none ↔ ∀ address ∈ addresses, ¬address <+: text := by
  constructor
  · intro silent address mem start
    have found := isSome_addressAt mem start
    rw [silent] at found
    cases found
  · intro outside
    refine Option.eq_none_iff_forall_ne_some.mpr fun ⟨address, width⟩ found => ?_
    obtain ⟨longest, -⟩ := isLongest_of_addressAt found
    exact outside address longest.mem longest.start

theorem IsLongest.unique {first second : Text} (one : IsLongest first text)
    (other : IsLongest second text) : first = second := by
  have le := one.longest second other.mem other.start
  have ge := other.longest first one.mem one.start
  rw [List.prefix_iff_eq_take.mp one.start, List.prefix_iff_eq_take.mp other.start,
    Nat.le_antisymm le ge]

end Parts

end ManPage.Inline
