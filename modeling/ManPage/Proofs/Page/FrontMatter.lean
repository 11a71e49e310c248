import ManPage.Page.Title
import ManPage.Proofs.Yaml.Entries

/-! The front matter of a page is safe for every value. It has one entry for each thing that the
title request or the options supply, no value can end it early or add to it, and reading it gives
the values back. -/

namespace ManPage.Title

open Inline Yaml

variable {args : List Text} {options : Options} {key value : Text}

/-- `Supplied args options key value` tells that a page whose title request has the arguments `args`
is due an entry for `key`, and with which value. -/
inductive Supplied (args : List Text) (options : Options) : Text → Text → Prop
  | permalink {value : Text} (set : options.permalink = some value) :
      Supplied args options "permalink".toList value
  | layout {value : Text} (set : options.layout = some value) :
      Supplied args options "layout".toList value
  | title (nonempty : (ofArgs args).displayName ≠ []) :
      Supplied args options "title".toList (ofArgs args).displayName
  | argument {key : String} {index : Nat} {arg : Text}
      (slot : (key, index) ∈ [("package", 3), ("date", 2), ("section_text", 4)])
      (present : args[index]? = some arg) (nonempty : arg ≠ []) :
      Supplied args options key.toList (escape arg)

def keys : List Text :=
  ["permalink", "layout", "title", "package", "date", "section_text"].map String.toList

theorem optionalArg?_eq_some {index : Nat} {arg : Text} :
    optionalArg? args index = some arg ↔ args[index]? = some arg ∧ arg ≠ [] := by
  simp [optionalArg?, Option.filter_eq_some_iff]

theorem map_optionalArg?_eq_some {index : Nat} :
    (optionalArg? args index).map escape = some value ↔
      ∃ arg, args[index]? = some arg ∧ arg ≠ [] ∧ escape arg = value := by
  simp [optionalArg?_eq_some, and_assoc]

theorem nonempty?_eq_some {text : Text} :
    Text.nonempty? text = some value ↔ text ≠ [] ∧ text = value := by
  simp [Text.nonempty?]

/-- There is an entry for each thing that is supplied. -/
theorem mem_frontMatterEntries_iff :
    (key, value) ∈ frontMatterEntries (ofArgs args) options ↔ Supplied args options key value := by
  simp only [frontMatterEntries, List.mem_filterMap, List.mem_cons, List.not_mem_nil, or_false,
    Option.map_eq_some_iff, Prod.mk.injEq, Prod.exists]
  constructor
  · rintro ⟨name, found, ⟨name, slot⟩ | ⟨name, slot⟩ | ⟨name, slot⟩ | ⟨name, slot⟩ | ⟨name, slot⟩ |
      ⟨name, slot⟩, value, present, rfl, rfl⟩ <;> rw [name] <;> rw [slot] at present
    · exact .permalink present
    · exact .layout present
    · have named := nonempty?_eq_some.mp present
      exact named.2 ▸ .title named.1
    all_goals
      obtain ⟨arg, given, nonempty, rfl⟩ := map_optionalArg?_eq_some.mp present
      exact .argument (by decide) given nonempty
  · intro supplied
    cases supplied with
    | permalink set => exact ⟨_, _, .inl ⟨rfl, rfl⟩, value, set, rfl, rfl⟩
    | layout set => exact ⟨_, _, .inr (.inl ⟨rfl, rfl⟩), value, set, rfl, rfl⟩
    | title nonempty =>
      have found := nonempty?_eq_some.mpr ⟨nonempty, rfl⟩
      exact ⟨_, _, .inr (.inr (.inl ⟨rfl, rfl⟩)), _, found, rfl, rfl⟩
    | argument slot present nonempty =>
      have found := map_optionalArg?_eq_some.mpr ⟨_, present, nonempty, rfl⟩
      simp only [List.mem_cons, Prod.mk.injEq, List.not_mem_nil, or_false] at slot
      obtain ⟨rfl, rfl⟩ | ⟨rfl, rfl⟩ | ⟨rfl, rfl⟩ := slot
      · exact ⟨_, _, .inr (.inr (.inr (.inl ⟨rfl, rfl⟩))), _, found, rfl, rfl⟩
      · exact ⟨_, _, .inr (.inr (.inr (.inr (.inl ⟨rfl, rfl⟩)))), _, found, rfl, rfl⟩
      · exact ⟨_, _, .inr (.inr (.inr (.inr (.inr ⟨rfl, rfl⟩)))), _, found, rfl, rfl⟩

theorem keys_filterMap (table : List (String × Option Text)) :
    ((table.filterMap fun (key, value) => value.map fun value => (key.toList, value)).map
      Prod.fst).Sublist (table.map fun entry => entry.1.toList) := by
  induction table with
  | nil => exact .slnil
  | cons entry table ih =>
    obtain ⟨key, value⟩ := entry
    cases value with
    | none => exact ih.cons _
    | some value => exact ih.cons_cons _

/-- The keys of the entries are in order, and no key has two. -/
theorem keys_frontMatterEntries (title : Title) (options : Options) :
    ((frontMatterEntries title options).map Prod.fst).Sublist keys :=
  keys_filterMap _

theorem isKey_of_mem (inside : (key, value) ∈ frontMatterEntries (ofArgs args) options) :
    isKey key := by
  have known : ∀ key ∈ keys, isKey key := by decide
  exact known key ((keys_frontMatterEntries _ _).subset (List.mem_map_of_mem inside))

/-- The head of a page with front matter, whatever its title request and its options say. It is made
of lines of entries between two lines of dashes; there is an entry for each thing supplied, in the
order of `keys`; and the entries are what is read from it. -/
theorem head?_jekyll (args : List Text) (options : Options) :
    ∃ head entries blocks,
      head? (ofArgs args) { options with mode := .jekyll } = some head ∧
      lines head = "---\n".toList :: (List.flatten blocks ++ ["---".toList]) ∧
      List.Forall₂ HoldsEntry entries blocks ∧
      readFrontMatter? head = some entries ∧
      (entries.map Prod.fst).Sublist keys ∧
      ∀ key value, (key, value) ∈ entries ↔ Supplied args options key value := by
  have known : ∀ entry ∈ frontMatterEntries (ofArgs args) options, isKey entry.1 :=
    fun _ inside => isKey_of_mem inside
  exact ⟨delimited (frontMatterEntries (ofArgs args) options),
    frontMatterEntries (ofArgs args) options, entryLines (frontMatterEntries (ofArgs args) options),
    rfl, lines_delimited _, holdsEntry_entryLines known, readFrontMatter?_delimited known,
    keys_frontMatterEntries _ _, fun _ _ => mem_frontMatterEntries_iff⟩

example : ∃ head, head? (ofArgs []) { mode := .jekyll, layout := some "a\n---\nkey: b".toList } =
    some head ∧ head = "---\nlayout: |-\n  a\n  ---\n  key: b\n---".toList ∧
    readFrontMatter? head = some [("layout".toList, "a\n---\nkey: b".toList)] :=
  ⟨_, rfl, by decide, by decide⟩

end ManPage.Title
