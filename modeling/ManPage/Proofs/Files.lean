import Mathlib.Data.List.Infix
import ManPage.Files

/-! Files that are written. A path leads to a place below a directory, so a file that is put there
makes no new directories: what stands at other places stays as it is, and where the place was not a
directory, all paths lead where they led before. -/

namespace ManPage.Files

variable {files : Files} {place other found : Place} {content : List UInt8} {path : Text}

/-! ### Places above others -/

/-- A place that the current directory or a node is at or below. -/
def leads (files : Files) (place : Place) : Bool :=
  place.isPrefixOf files.current || files.nodes.any fun (other, _) => place.isPrefixOf other

theorem leads_iff : files.leads place ↔
    place <+: files.current ∨ ∃ node ∈ files.nodes, place <+: node.1 := by
  simp [leads, List.isPrefixOf_iff_prefix, -Prod.exists]

theorem leads_above (leads : files.leads place) (above : other <+: place) : files.leads other :=
  leads_iff.mpr <| (leads_iff.mp leads).imp above.trans
    fun ⟨node, mem, below⟩ => ⟨node, mem, above.trans below⟩

theorem node?_eq (files : Files) (place : Place) : files.node? place =
    (files.nodes.lookup place).or (if files.leads place then some .directory else none) :=
  rfl

theorem leads_of_isDirectory (directory : files.isDirectory place) : files.leads place := by
  have node : files.node? place = some .directory := beq_iff_eq.mp directory
  rw [node?_eq, Option.or_eq_some_iff] at node
  rcases node with given | ⟨-, leads⟩
  · obtain ⟨before, after, eq, -⟩ := List.lookup_eq_some_iff.mp given
    exact leads_iff.mpr (.inr ⟨(place, .directory), by simp [eq], List.prefix_rfl⟩)
  · exact (Option.ite_none_right_eq_some.mp leads).1

/-- A place all of whose parents are places of the tree. -/
def Rooted (files : Files) (place : Place) : Prop :=
  ∀ above, above <+: place → above ≠ place → files.leads above

theorem rooted_of_leads (leads : files.leads place) : files.Rooted place :=
  fun _ above _ => leads_above leads above

theorem rooted_child {name : Text} (leads : files.leads place) : files.Rooted (place ++ [name]) := by
  intro above isPrefix other
  exact leads_above leads ((List.prefix_concat_iff.mp isPrefix).resolve_left other)

/-- The names of a path lead from a directory to a directory or a place in one. -/
theorem follow?_rooted {names : List Text} (rooted : files.Rooted place)
    (follows : files.follow? place names = some found) : files.Rooted found := by
  induction names generalizing place with
  | nil => exact Option.some.inj follows ▸ rooted
  | cons name names ih =>
    unfold follow? at follows
    split at follows
    · cases follows
    · rename_i directory
      have leads : files.leads place := leads_of_isDirectory (by simpa using directory)
      split at follows
      · exact ih rooted follows
      · split at follows
        · exact ih (rooted_of_leads (leads_above leads (List.dropLast_prefix place))) follows
        · split at follows
          · cases follows
          · exact ih (rooted_child leads) follows

theorem locate?_rooted (located : files.locate? path = some place) : files.Rooted place := by
  have root : files.leads [] := leads_iff.mpr (.inl List.nil_prefix)
  have current : files.leads files.current := leads_iff.mpr (.inl List.prefix_rfl)
  unfold locate? at located
  split at located
  · refine follow?_rooted ?_ located
    split
    · exact rooted_of_leads root
    · exact rooted_of_leads current
  · cases located

/-! ### Writing -/

theorem node?_write (files : Files) (place : Place) (content : List UInt8) :
    (files.write place content).node? place = some (.file content) := by
  rw [node?_eq, write, List.lookup_cons_self]
  rfl

theorem leads_write : (files.write place content).leads other ↔
    files.leads other ∨ other <+: place := by
  simp only [leads_iff, write, List.mem_cons, List.mem_filter, exists_eq_or_imp, bne_iff_ne]
  constructor
  · rintro (current | child | ⟨node, ⟨mem, -⟩, below⟩)
    · exact .inl (.inl current)
    · exact .inr child
    · exact .inl (.inr ⟨node, mem, below⟩)
  · rintro ((current | ⟨node, mem, below⟩) | child)
    · exact .inl current
    · -- A node at the place itself is replaced by the file.
      by_cases same : node.1 = place
      · exact .inr (.inl (same ▸ below))
      · exact .inr (.inr ⟨node, ⟨mem, same⟩, below⟩)
    · exact .inr (.inl child)

theorem lookup_write (different : other ≠ place) :
    (files.write place content).nodes.lookup other = files.nodes.lookup other := by
  have head : (other == place) = false := beq_eq_false_iff_ne.mpr different
  rw [write, List.lookup_cons, head]
  dsimp only
  generalize files.nodes = nodes
  induction nodes with
  | nil => rfl
  | cons node nodes ih =>
    by_cases same : node.1 = place
    · have passed : (other == node.1) = false := by rw [same, head]
      rw [List.filter_cons_of_neg (by simp [same]), ih, List.lookup_cons, passed]
    · rw [List.filter_cons_of_pos (by simp [same]), List.lookup_cons, List.lookup_cons, ih]

/-- What stands at other places is not changed by a file. -/
theorem node?_write_of_ne (rooted : files.Rooted place) (content : List UInt8)
    (different : other ≠ place) :
    (files.write place content).node? other = files.node? other := by
  have leads : (files.write place content).leads other = files.leads other := by
    rw [Bool.eq_iff_iff, leads_write, or_iff_left_iff_imp]
    exact fun above => rooted other above different
  rw [node?_eq, node?_eq, lookup_write different, leads]

theorem rooted_write (rooted : files.Rooted place) (content : List UInt8) :
    (files.write place content).Rooted place :=
  fun above isPrefix different => leads_write.mpr (.inl (rooted above isPrefix different))

theorem follow?_of_isDirectory {files' : Files} (same : files'.isDirectory = files.isDirectory)
    (place : Place) (names : List Text) : files'.follow? place names = files.follow? place names := by
  induction names generalizing place with
  | nil => rfl
  | cons name names ih => simp only [follow?, same, ih]

/-- Paths lead where they led before a file was put where there is no directory. -/
theorem locate?_write (rooted : files.Rooted place) (content : List UInt8)
    (free : files.isDirectory place = false) (path : Text) :
    (files.write place content).locate? path = files.locate? path := by
  have same : (files.write place content).isDirectory = files.isDirectory := by
    funext other
    by_cases different : other = place
    · rw [different, free, isDirectory, node?_write]
      rfl
    · rw [isDirectory, isDirectory, node?_write_of_ne rooted content different]
  unfold locate?
  rw [follow?_of_isDirectory same]
  rfl

/-- A tree with an empty file at a place is as it was elsewhere. -/
structure Started (files : Files) (place : Place) (after : Files) : Prop where
  empty : after.node? place = some (.file [])
  elsewhere : ∀ other, other ≠ place → after.node? other = files.node? other
  paths : ∀ path, after.locate? path = files.locate? path
  rooted : after.Rooted place

theorem create?_eq_some {after : Files} (created : files.create? path = some (place, after)) :
    files.locate? path = some place ∧ files.Started place after := by
  unfold create? at created
  rw [Option.bind_eq_some_iff] at created
  obtain ⟨at_, located, created⟩ := created
  split at created
  · cases created
  · rename_i free
    cases created
    have rooted := locate?_rooted located
    refine ⟨located, ?_, fun other => node?_write_of_ne rooted [],
      locate?_write rooted [] (by simpa using free), rooted_write rooted []⟩
    exact node?_write files place []

end ManPage.Files
