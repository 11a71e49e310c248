import ManPage.Proofs.Inline.Idempotence
import ManPage.Proofs.Inline.Recovery
import ManPage.Proofs.Inline.Separation

/-! Switches of fonts in a line. No entity and no form reaches over the backslash of a switch, so
what stands in front of it and what stands behind it are escaped apart, and the run up to the next
switch is the escaped text of that stretch. A switch is read after the line was escaped: of a name
that is written as an entity it takes the ampersand, and the rest of the entity stays in the run. -/

namespace ManPage.Inline

open Text Markup

variable {c : Char} {first second text lead name spelled : Text}

/-! ### Escaping around a switch -/

/-- An entity or a form holds no backslash behind its first character, and no form begins with the
backslash of a switch. -/
theorem switch_apart : (∀ entity ∈ ownEntities, '\\' ∉ entity.tail) ∧
    ∀ entry ∈ forms, '\\' ∉ entry.1.tail ∧ ¬entry.1.take 2 <+: ['\\', 'f'] := by
  decide +kernel

theorem simpleEscapes_switch (rest : Text) : substitute simpleEscapeAt ('\\' :: 'f' :: rest) =
    '\\' :: 'f' :: substitute simpleEscapeAt rest := by
  have kept : simpleEscapeAt ('\\' :: 'f' :: rest) = some (['\\', 'f'], 2) := rfl
  rw [substitute_of_some kept]
  rfl

/-- The characters that a form begins with. -/
def formStarts : Text :=
  ['\\', '<', '>']

theorem wordAt_forms_eq_none (foreign : c ∉ formStarts) (rest : Text) :
    wordAt forms (c :: rest) = none := by
  refine wordAt_eq_none_iff.mpr fun entry mem begins => foreign ?_
  rcases (isForm_of_mem entry mem).begins with escape | bracket
  · obtain ⟨word, eq⟩ := List.head?_eq_some_iff.mp escape
    obtain rfl := (List.cons_prefix_cons.mp (eq ▸ begins)).1
    decide
  · rcases (brackets_reviving entry bracket).1 with eq | eq
    all_goals
      obtain rfl := (List.cons_prefix_cons.mp (eq ▸ begins)).1
      decide

/-- A character that is no markup and begins no escape is escaped as itself. -/
theorem escape_cons (other : c ≠ '\\') (plain : isPlain c) (rest : Text) :
    escape (c :: rest) = c :: escape rest := by
  have ampersand : c ≠ '&' := by rintro rfl; cases plain
  have foreign : c ∉ formStarts := by
    intro start
    simp only [formStarts, List.mem_cons, List.not_mem_nil, or_false] at start
    rcases start with rfl | rfl | rfl
    · exact other rfl
    all_goals cases plain
  rw [escape_eq, prepare, substitute_of_none (simpleEscapeAt_of_ne other),
    substitute_of_none (ampersandAt_of_ne ampersand),
    substitute_of_none (wordAt_forms_eq_none foreign _), escape_eq, prepare]

theorem escape_append_of_plain (plain : ∀ c ∈ first, c ≠ '\\' ∧ isPlain c) (rest : Text) :
    escape (first ++ rest) = first ++ escape rest := by
  induction first with
  | nil => rw [List.nil_append, List.nil_append]
  | cons c first ih =>
    obtain ⟨other, char⟩ := plain c List.mem_cons_self
    rw [List.cons_append, escape_cons other char,
      ih fun d mem => plain d (List.mem_cons_of_mem c mem), List.cons_append]

theorem wordAt_forms_switch (rest : Text) : wordAt forms ('\\' :: 'f' :: rest) = none := by
  refine wordAt_eq_none_iff.mpr fun entry mem begins => (switch_apart.2 entry mem).2 ?_
  have start : entry.1.take 2 <+: ('\\' :: 'f' :: rest).take 2 :=
    List.prefix_take_iff.mpr ⟨(List.take_prefix 2 entry.1).trans begins, List.length_take_le 2 _⟩
  exact start

/-- What stands in front of a switch is escaped apart from it, and the switch stays as it is. -/
theorem escape_append_switch (complete : IsComplete first) (rest : Text) :
    escape (first ++ '\\' :: 'f' :: rest) = escape first ++ '\\' :: 'f' :: escape rest := by
  have backslash {word : Text} (outside : '\\' ∉ word.tail) (behind : Text) :
      ∀ c ∈ ('\\' :: behind).head?, c ∉ word.tail := by
    rintro c head
    cases head
    exact outside
  have prepared : prepare (first ++ '\\' :: 'f' :: rest) =
      prepare first ++ '\\' :: 'f' :: prepare rest := by
    rw [prepare, prepare, prepare, findsPairs_simpleEscapeAt.substitute_append complete,
      simpleEscapes_switch,
      substitute_ampersandAt_cut fun entity own => backslash (switch_apart.1 entity own) _,
      substitute_of_none (ampersandAt_of_ne (by decide)),
      substitute_of_none (ampersandAt_of_ne (by decide))]
  rw [escape_eq, prepared,
    substitute_forms_cut fun entry mem => backslash (switch_apart.2 entry mem).1 _,
    substitute_of_none (wordAt_forms_switch _),
    substitute_of_none (wordAt_forms_eq_none (by decide) _), escape_eq, escape_eq]

/-- A text without escapes is escaped without a backslash. -/
theorem backslash_not_mem_escape (plain : '\\' ∉ text) : '\\' ∉ escape text := by
  have resolved : substitute simpleEscapeAt text = text :=
    substitute_eq_self_of_not_mem (fun _ _ => simpleEscapeAt_of_ne) plain
  rw [escape_eq, prepare, resolved]
  refine not_mem_substitute (fun _ _ _ => not_mem_of_forms) ?_
  exact not_mem_substitute (fun _ _ _ => backslash_not_mem_of_ampersandAt) plain

/-! ### Runs between switches -/

/-- A name of a font with the text that a switch reads it from. -/
inductive NamesFont : Text → Text → Prop
  | letter {c : Char} : c.isAlphanum → NamesFont [c] [c]
  | pair {a b : Char} : a.isAlphanum → b.isAlphanum → NamesFont ['(', a, b] [a, b]
  | bracketed {name : Text} : (∀ c ∈ name, c.isAlphanum) → NamesFont ('[' :: (name ++ [']'])) name

/-- A switch of fonts, with the text behind it up to the next one. -/
structure Switch where
  name : Text
  spelled : Text
  run : Text
  names : NamesFont spelled name
  plain : '\\' ∉ run

/-- A switch and its run as they stand in a line. -/
def Switch.written (switch : Switch) : Text :=
  '\\' :: 'f' :: (switch.spelled ++ switch.run)

theorem plain_of_isAlphanum (h : c.isAlphanum) : c ≠ '\\' ∧ isPlain c := by
  have ne {d : Char} (other : d.isAlphanum = false) : c ≠ d := by
    rintro rfl
    rw [h] at other
    cases other
  have opening : c ≠ '<' := ne rfl
  have closing : c ≠ '>' := ne rfl
  have ampersand : c ≠ '&' := ne rfl
  exact ⟨ne rfl, by simp [isPlain, opening, closing, ampersand]⟩

theorem NamesFont.plain (names : NamesFont spelled name) :
    ∀ c ∈ spelled, c ≠ '\\' ∧ isPlain c := by
  cases names with
  | letter char => simpa using plain_of_isAlphanum char
  | pair first second =>
    simpa using ⟨by decide, plain_of_isAlphanum first, plain_of_isAlphanum second⟩
  | bracketed chars =>
    intro c mem
    rcases List.mem_cons.mp mem with rfl | mem
    · decide
    · rcases List.mem_append.mp mem with inside | last
      · exact plain_of_isAlphanum (chars c inside)
      · obtain rfl := List.mem_singleton.mp last
        decide

theorem fontName?_letter (parenthesis : c ≠ '(') (bracket : c ≠ '[') (rest : Text) :
    fontName? (c :: rest) = some ([c], 1) := by
  unfold fontName?
  split <;> simp_all

theorem NamesFont.fontName? (names : NamesFont spelled name) (rest : Text) :
    fontName? (spelled ++ rest) = some (name, spelled.length) := by
  cases names with
  | @letter c char =>
    exact fontName?_letter (by rintro rfl; cases char) (by rintro rfl; cases char) rest
  | pair => rfl
  | bracketed chars =>
    have inside : ∀ c ∈ name, (c != ']') = true := fun c mem => by
      have other : c ≠ ']' := by
        rintro rfl
        cases chars _ mem
      simpa using other
    have whole : (name ++ ']' :: rest).takeWhile (· != ']') = name := by
      rw [List.takeWhile_append_of_pos inside, List.takeWhile_cons_of_neg (by decide),
        List.append_nil]
    simp [Inline.fontName?, whole]

theorem scan_switch (read : fontName? (spelled ++ text) = some (name, spelled.length)) :
    scan fontAt ('\\' :: 'f' :: (spelled ++ text)) =
      .inr (Font.ofName name) :: scan fontAt text := by
  have found : fontAt ('\\' :: 'f' :: (spelled ++ text)) =
      some (Font.ofName name, spelled.length + 2) := by
    simp [fontAt, read]
  rw [scan_of_some found]
  simp

theorem runs_append (plain : '\\' ∉ lead) (html : Text) :
    runs (scan fontAt (lead ++ html)) =
      (lead ++ (runs (scan fontAt html)).1, (runs (scan fontAt html)).2) := by
  rw [scan_append fun c s suffix => fontAt_of_ne fun eq =>
    plain (eq ▸ suffix.subset List.mem_cons_self), runs_append_inl]

theorem isComplete_of_plain (plain : '\\' ∉ text) : IsComplete text := by
  have whole : IsComplete (text ++ []) := (isComplete_append plain).mpr isComplete_nil
  rwa [List.append_nil] at whole

/-- The runs of an escaped line are the escaped texts between its switches. -/
theorem runs_switches (plain : '\\' ∉ lead) (switches : List Switch) :
    runs (scan fontAt (escape (lead ++ switches.flatMap Switch.written))) =
      (escape lead, switches.map fun switch => (Font.ofName switch.name, escape switch.run)) := by
  induction switches generalizing lead with
  | nil =>
    have alone := runs_append (backslash_not_mem_escape plain) []
    simpa using alone
  | cons switch switches ih =>
    have line : lead ++ (switch :: switches).flatMap Switch.written =
        lead ++ '\\' :: 'f' ::
          (switch.spelled ++ (switch.run ++ switches.flatMap Switch.written)) := by
      simp [Switch.written]
    rw [line, escape_append_switch (isComplete_of_plain plain),
      escape_append_of_plain switch.names.plain, runs_append (backslash_not_mem_escape plain),
      scan_switch (switch.names.fontName? _), runs_inr, ih switch.plain, List.append_nil,
      List.map_cons]

/-- A line with switches of fonts is what stands in front of them, and each run in the font that the
switch in front of it names. -/
theorem render_switches (plain : '\\' ∉ lead) (switches : List Switch) :
    render (lead ++ switches.flatMap Switch.written) =
      escape lead ++ switches.flatMap fun switch =>
        (Font.ofName switch.name).wrap (escape switch.run) := by
  rw [render, expandFonts, runs_switches plain]
  dsimp only
  rw [List.flatMap_map]

/-- Parts of an entity on both sides of a switch, a name without characters, and a run without
text. -/
theorem render_switches_entities :
    let lead := "<&l".toList
    let switches : List Switch :=
      [⟨['B'], ['B'], "t;&lt;".toList, .letter (by decide), by decide⟩,
        ⟨[], ['[', ']'], "&".toList, @NamesFont.bracketed [] (by simp), by decide⟩,
        ⟨['4'], ['[', '4', ']'], [],
          @NamesFont.bracketed ['4'] (List.forall_mem_singleton.mpr rfl), by decide⟩,
        ⟨"CW".toList, "(CW".toList, "amp; ]".toList, .pair (by decide) (by decide), by decide⟩]
    '\\' ∉ lead ∧ render (lead ++ switches.flatMap Switch.written) =
      escape lead ++ switches.flatMap fun switch =>
        (Font.ofName switch.name).wrap (escape switch.run) := by
  intro lead switches
  have plain : '\\' ∉ lead := by decide
  exact ⟨plain, render_switches plain switches⟩

/-! ### Names of one character -/

/-- A character as an escaped text holds it in front of `rest`: an ampersand that begins an entity
stands for itself. -/
def writtenBefore (rest : Text) (c : Char) : Text :=
  if c = '&' ∧ ∃ entity ∈ ownEntities, entity <+: c :: rest then [c] else written c

theorem writtenBefore_of_ne (other : c ≠ '&') (rest : Text) : writtenBefore rest c = written c :=
  if_neg fun amp => other amp.1

theorem mem_forms_of_brackets {entry : Text × Text} (mem : entry ∈ brackets) : entry ∈ forms :=
  List.mem_append_right _ mem

theorem escape_bracket {entity : Text} (mem : ([c], entity) ∈ brackets) (rest : Text) :
    escape (c :: rest) = entity ++ escape rest := by
  have kept : c ≠ '\\' ∧ c ≠ '&' := by
    rcases (brackets_reviving _ mem).1 with eq | eq
    all_goals
      cases eq
      decide
  have replaced := substitute_word (prepare rest) forms_distinct (mem_forms_of_brackets mem)
    (List.cons_ne_nil c [])
  rw [escape_eq, prepare, substitute_of_none (simpleEscapeAt_of_ne kept.1),
    substitute_of_none (ampersandAt_of_ne kept.2), escape_eq]
  exact replaced

/-- An ampersand in front of a text without escapes is escaped as itself or as its entity. -/
theorem escape_ampersand {rest : Text} (plain : '\\' ∉ rest) :
    escape ('&' :: rest) = writtenBefore rest '&' ++ escape rest := by
  have resolved : substitute simpleEscapeAt rest = rest :=
    substitute_eq_self_of_not_mem (fun _ _ => simpleEscapeAt_of_ne) plain
  have prepared : prepare ('&' :: rest) = writtenBefore rest '&' ++ prepare rest := by
    rw [prepare, prepare, substitute_of_none (simpleEscapeAt_of_ne (by decide)), resolved]
    unfold writtenBefore
    split
    · rename_i own
      rw [substitute_of_none ((ampersandAt_amp rest).trans (if_pos own.2))]
      rfl
    · rename_i foreign
      rw [substitute_of_some
        ((ampersandAt_amp rest).trans (if_neg fun own => foreign ⟨rfl, own⟩))]
      rfl
  have passes : ∀ c ∈ writtenBefore rest '&', c ∉ formStarts := by
    unfold writtenBefore
    split <;> simp [formStarts, written]
  rw [escape_eq, escape_eq, prepared, substitute_append fun c s suffix =>
    wordAt_forms_eq_none (passes c (suffix.subset List.mem_cons_self)) _]

/-- In front of a text without escapes a character is escaped as it is written there. -/
theorem escape_cons_of_plain {rest : Text} (other : c ≠ '\\') (plain : '\\' ∉ rest) :
    escape (c :: rest) = writtenBefore rest c ++ escape rest := by
  rcases written_cases c with rfl | rfl | rfl | ⟨opening, closing, ampersand, itself⟩
  · rw [writtenBefore_of_ne (by decide)]
    exact escape_bracket (by decide) rest
  · rw [writtenBefore_of_ne (by decide)]
    exact escape_bracket (by decide) rest
  · exact escape_ampersand plain
  · rw [writtenBefore_of_ne ampersand, itself, List.singleton_append]
    exact escape_cons other (by simp [isPlain, opening, closing, ampersand]) rest

/-- What a switch leaves in the run behind it, where its name is one character: the rest of the
entity that the name is written with. -/
def leftOver (rest : Text) (c : Char) : Text :=
  (writtenBefore rest c).tail

theorem leftOver_eq_nil_iff {rest : Text} : leftOver rest c = [] ↔
    c ≠ '<' ∧ c ≠ '>' ∧ (c = '&' → ∃ entity ∈ ownEntities, entity <+: '&' :: rest) := by
  rcases written_cases c with rfl | rfl | rfl | ⟨opening, closing, ampersand, itself⟩
  · simp [leftOver, writtenBefore, written]
  · simp [leftOver, writtenBefore, written]
  · by_cases own : ∃ entity ∈ ownEntities, entity <+: '&' :: rest
    · simp [leftOver, writtenBefore, own]
    · simp [leftOver, writtenBefore, own, written]
  · rw [leftOver, writtenBefore_of_ne ampersand, itself]
    simp [opening, closing, ampersand]

theorem writtenBefore_cases (rest : Text) (c : Char) : writtenBefore rest c = [c] ∨
    Font.ofName ['&'] = Font.ofName [c] ∧ ∃ body, writtenBefore rest c = '&' :: body := by
  rcases written_cases c with rfl | rfl | rfl | ⟨-, -, ampersand, itself⟩
  · exact .inr ⟨by decide, _, writtenBefore_of_ne (by decide) rest⟩
  · exact .inr ⟨by decide, _, writtenBefore_of_ne (by decide) rest⟩
  · refine .inr ⟨rfl, ?_⟩
    unfold writtenBefore
    split
    · exact ⟨_, rfl⟩
    · exact ⟨_, rfl⟩
  · exact .inl ((writtenBefore_of_ne ampersand rest).trans itself)

/-- A name of one character is read from the start of what it is written with, which names the same
font. -/
theorem scan_short_switch (parenthesis : c ≠ '(') (bracket : c ≠ '[') (rest html : Text) :
    scan fontAt ('\\' :: 'f' :: (writtenBefore rest c ++ html)) =
      .inr (Font.ofName [c]) :: scan fontAt (leftOver rest c ++ html) := by
  unfold leftOver
  rcases writtenBefore_cases rest c with itself | ⟨unknown, body, entity⟩
  · rw [itself]
    exact scan_switch (fontName?_letter parenthesis bracket html)
  · have read : fontName? (['&'] ++ (body ++ html)) = some (['&'], ['&'].length) := rfl
    rw [entity, ← unknown]
    exact scan_switch read

theorem backslash_not_mem_leftOver (other : c ≠ '\\') (rest : Text) : '\\' ∉ leftOver rest c := by
  have whole : '\\' ∉ writtenBefore rest c := by
    unfold writtenBefore
    split
    · simpa using other.symm
    · exact backslash_not_mem_written other
  exact fun mem => whole (List.mem_of_mem_tail mem)

/-- A switch with a name of one character leaves the rest of the entity that the name is written
with, in front of the text behind. So it is dropped whole if and only if the name is no angle
bracket, and no ampersand but one that begins an entity. -/
theorem render_short_switch (before : '\\' ∉ first) (behind : '\\' ∉ second)
    (short : c ≠ '(' ∧ c ≠ '[' ∧ c ≠ '\\') :
    render (first ++ '\\' :: 'f' :: c :: second) =
        escape first ++ (Font.ofName [c]).wrap (leftOver second c ++ escape second) ∧
      (render (first ++ '\\' :: 'f' :: c :: second) =
          escape first ++ (Font.ofName [c]).wrap (escape second) ↔
        c ≠ '<' ∧ c ≠ '>' ∧ (c = '&' → ∃ entity ∈ ownEntities, entity <+: '&' :: second)) := by
  obtain ⟨parenthesis, bracket, other⟩ := short
  have run : '\\' ∉ leftOver second c ++ escape second := by
    rw [List.mem_append, not_or]
    exact ⟨backslash_not_mem_leftOver other second, backslash_not_mem_escape behind⟩
  have alone := runs_append run []
  rw [List.append_nil, scan_nil, runs_nil, List.append_nil] at alone
  have exactly : render (first ++ '\\' :: 'f' :: c :: second) =
      escape first ++ (Font.ofName [c]).wrap (leftOver second c ++ escape second) := by
    rw [render, escape_append_switch (isComplete_of_plain before),
      escape_cons_of_plain other behind, expandFonts, runs_append (backslash_not_mem_escape before),
      scan_short_switch parenthesis bracket, runs_inr, alone]
    simp
  refine ⟨exactly, ?_⟩
  rw [exactly, List.append_cancel_left_eq, (Font.wrap_injective _).eq_iff, List.append_left_eq_self,
    leftOver_eq_nil_iff]

/-- An ampersand that begins an entity with the text behind it. -/
theorem render_short_switch_entity :
    let first := "a&".toList
    let second := "lt;b&".toList
    '\\' ∉ first ∧ '\\' ∉ second ∧ ('&' ≠ '(' ∧ '&' ≠ '[' ∧ '&' ≠ '\\') ∧
      render (first ++ '\\' :: 'f' :: '&' :: second) =
        escape first ++ (Font.ofName ['&']).wrap (leftOver second '&' ++ escape second) ∧
      (render (first ++ '\\' :: 'f' :: '&' :: second) =
          escape first ++ (Font.ofName ['&']).wrap (escape second) ↔
        '&' ≠ '<' ∧ '&' ≠ '>' ∧
          ('&' = '&' → ∃ entity ∈ ownEntities, entity <+: '&' :: second)) := by
  intro first second
  have before : '\\' ∉ first := by decide
  have behind : '\\' ∉ second := by decide
  have short : '&' ≠ '(' ∧ '&' ≠ '[' ∧ '&' ≠ '\\' := by decide
  exact ⟨before, behind, short, render_short_switch before behind short⟩

/-- Of an angle bracket as a name the end of its entity stays as text. -/
theorem not_render_short_switch_whole : ¬∀ (c : Char) (first second : Text), '\\' ∉ first →
    '\\' ∉ second → c ≠ '(' ∧ c ≠ '[' ∧ c ≠ '\\' →
    render (first ++ '\\' :: 'f' :: c :: second) =
      escape first ++ (Font.ofName [c]).wrap (escape second) := by
  intro whole
  have bracket := whole '<' [] ['x'] (by decide) (by decide) (by decide)
  revert bracket
  decide +kernel

end ManPage.Inline
