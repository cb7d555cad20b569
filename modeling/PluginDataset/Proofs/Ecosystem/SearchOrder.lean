import PluginDataset.Proofs.Ecosystem.Beside
import PluginDataset.Proofs.Files.Components

/-!
# Which directories are searched

The search lists the roots that exist, each with the directories that can be reached from it through
visible directories alone. No directory is listed twice, those of one root are in ascending order,
and a root that has been listed already adds nothing.

## Main definitions

* `FileName.IsVisible` says that directories of a name are searched.
* `FileSystem.VisibleBelow` says that names lead through visible directories.

## Main results

* `FileSystem.visibleBelow_iff`: the visible directories by their paths are those of the tree.
* `FileSystem.pairwise_directoriesOf`: the directories of one root are in ascending order.
* `FileSystem.dropSame_eq_eraseDupsBy`: of paths with the same components the first one is kept.
* `FileSystem.searchDirectories_append_of_same`: what is listed already adds nothing as a root.
* `FileSystem.searchDirectories_visible`: the listed directories, once each and in order.
-/

namespace PluginDataset

/-- Whether a directory of this name is searched: it is not hidden, and holds no compiled files.
Names that are no text are visible. -/
def FileName.IsVisible (n : FileName) : Prop :=
  ∀ text, n.text? = some text → text.head? ≠ some '.' ∧ text ≠ "__pycache__".toList

theorem FileName.isSkipped_eq_false_iff {n : FileName} : n.isSkipped = false ↔ n.IsVisible := by
  rw [isSkipped, IsVisible]
  cases n.text? with
  | none => simp
  | some text => simp

namespace FileSystem

variable {fs : FileSystem}

/-! ## Visible directories -/

/-- Names that lead from a path through visible directories, none of which is a link. -/
inductive VisibleBelow (fs : FileSystem) : Path → List FileName → Prop where
  | here {p : Path} : VisibleBelow fs p []
  | inside {p : Path} {name : FileName} {rest : List FileName} (hplain : name.IsPlain)
    (hvisible : name.IsVisible) (hdirectory : fs.isPlainDirectory (p.child name) = true)
    (h : VisibleBelow fs (p.child name) rest) : VisibleBelow fs p (name :: rest)

theorem VisibleBelow.isPlain {p : Path} {names : List FileName} (h : fs.VisibleBelow p names) :
    ∀ name ∈ names, FileName.IsPlain name := by
  induction h with
  | here => simp
  | inside hplain _ _ _ ih => exact List.forall_mem_cons.2 ⟨hplain, ih⟩

/-- Names lead through visible directories if each part of them does. -/
theorem visibleBelow_append {p : Path} {outer inner : List FileName} :
    fs.VisibleBelow p (outer ++ inner) ↔
      fs.VisibleBelow p outer ∧ fs.VisibleBelow (p.branch outer) inner := by
  induction outer generalizing p with
  | nil =>
    constructor
    · intro h
      exact ⟨.here, h⟩
    · rintro ⟨_, h⟩
      exact h
  | cons name rest ih =>
    constructor
    · intro h
      cases h with
      | inside hplain hvisible hdirectory h =>
        obtain ⟨hrest, hinner⟩ := ih.1 h
        exact ⟨.inside hplain hvisible hdirectory hrest, hinner⟩
    · rintro ⟨h, hinner⟩
      cases h with
      | inside hplain hvisible hdirectory hrest =>
        exact .inside hplain hvisible hdirectory (ih.2 ⟨hrest, hinner⟩)

/-- An entry of a directory is a directory by its path if it is one in the tree. -/
theorem isPlainDirectory_child_iff {p : Path} {place : Place}
    {entries : List (FileName × Node)} (h : fs.find .use p = .ok (place, .directory entries))
    {n : FileName} (hn : n.IsPlain) : fs.isPlainDirectory (p.child n) = true ↔
      ∃ inner, entries.lookup n = some (.directory inner) := by
  rw [isPlainDirectory, find_inspect_child h hn]
  cases hlookup : entries.lookup n with
  | none => simp
  | some child => cases child <;> simp

section

variable (hfs : fs.WellNamed) {root : Path} {place : Place} {entries : List (FileName × Node)}

include hfs

/-- Names lead through visible directories by paths just as they do in the tree. -/
theorem visibleBelow_iff (h : fs.find .use root = .ok (place, .directory entries))
    {names : List FileName} : fs.VisibleBelow root names ↔
      (Node.directory entries).kind? names = some .directory ∧
        ∀ name ∈ names, FileName.isSkipped name = false := by
  induction names generalizing root place entries with
  | nil => simp [Node.kind, VisibleBelow.here]
  | cons name rest ih =>
    obtain ⟨_, _, hat⟩ := leads_of_find h
    rw [Node.kind?_cons]
    constructor
    · intro hbelow
      cases hbelow with
      | inside hplain hvisible hdirectory hrest =>
        obtain ⟨inner, hlookup⟩ := (isPlainDirectory_child_iff h hplain).1 hdirectory
        have hfind := find_child h hplain hlookup (by simp)
        obtain ⟨hkind, hvisibles⟩ := (ih hfind).1 hrest
        rw [hlookup]
        refine ⟨hkind, ?_⟩
        exact List.forall_mem_cons.2 ⟨FileName.isSkipped_eq_false_iff.2 hvisible, hvisibles⟩
    · rintro ⟨hkind, hvisibles⟩
      obtain ⟨hskipped, hvisibles⟩ := List.forall_mem_cons.1 hvisibles
      obtain ⟨child, hlookup, hchild⟩ := Option.bind_eq_some_iff.1 hkind
      have hmem := (Node.lookup_eq_some_iff_mem (hfs.distinct place entries hat)).1 hlookup
      have hplain : name.IsPlain := hfs.plain place entries hat _ hmem
      -- what leads to a directory is itself a directory
      obtain ⟨inner, rfl⟩ : ∃ inner, child = .directory inner := by
        refine Node.kind_eq_directory.1 ?_
        by_cases hrest : rest = []
        · simpa [hrest] using hchild
        · have hsome : (child.kind? ([] ++ rest)).isSome := by simp [hchild]
          simpa using Node.kind?_of_isSome_append hrest hsome
      have hdirectory := (isPlainDirectory_child_iff h hplain).2 ⟨inner, hlookup⟩
      have hfind := find_child h hplain hlookup (by simp)
      exact .inside hplain (FileName.isSkipped_eq_false_iff.1 hskipped) hdirectory
        ((ih hfind).2 ⟨hchild, hvisibles⟩)

theorem mem_branches_iff_visibleBelow (h : fs.find .use root = .ok (place, .directory entries))
    {names : List FileName} : names ∈ (Node.directory entries).branches ↔
      names ≠ [] ∧ fs.VisibleBelow root names := by
  obtain ⟨_, _, hat⟩ := leads_of_find h
  rw [Node.mem_branches_iff (hfs.distinct.of_at? hat), visibleBelow_iff hfs h]

/-- The directories of a root are all that are reached through visible directories, and the root
unless it is a link. -/
theorem mem_directoriesOf_iff_visibleBelow {p : Path} : p ∈ fs.directoriesOf root ↔
    fs.isDirectory root = true ∧ ∃ names, fs.VisibleBelow root names ∧ p = root.branch names ∧
      (names = [] → fs.isLink root = false) := by
  constructor
  · intro h
    obtain ⟨place, entries, hfind⟩ := exists_find_of_mem_directoriesOf h
    refine ⟨isDirectory_iff.2 ⟨place, entries, hfind⟩, ?_⟩
    obtain ⟨hroot, rfl⟩ | ⟨names, hnames, rfl⟩ := (mem_directoriesOf_iff hfind).1 h
    · exact ⟨[], .here, rfl, fun _ => isLink_of_isPlainDirectory hroot⟩
    · obtain ⟨hne, hbelow⟩ := (mem_branches_iff_visibleBelow hfs hfind).1 hnames
      exact ⟨names, hbelow, rfl, fun hnil => absurd hnil hne⟩
  · intro ⟨hroot, names, hbelow, hp, hlink⟩
    obtain ⟨place, entries, hfind⟩ := isDirectory_iff.1 hroot
    rw [mem_directoriesOf_iff hfind]
    by_cases hnil : names = []
    · subst hnil
      exact .inl ⟨isPlainDirectory_of_isDirectory hroot (hlink rfl), hp⟩
    · exact .inr ⟨names, (mem_branches_iff_visibleBelow hfs hfind).2 ⟨hnil, hbelow⟩, hp⟩

end

end FileSystem

/-! ## The order of directories -/

namespace Path

theorem branch_append (p : Path) (outer inner : List FileName) :
    p.branch (outer ++ inner) = (p.branch outer).branch inner :=
  List.foldl_append

/-- The components of a directory below another one end in the names that lead there. -/
theorem components_branch {p : Path} (hp : p.bytes ≠ []) {names : List FileName}
    (hnames : ∀ n ∈ names, FileName.IsPlain n) :
    (p.branch names).components = p.components ++ names.map .name := by
  induction names generalizing p with
  | nil => exact (List.append_nil _).symm
  | cons n rest ih =>
    obtain ⟨hn, hrest⟩ := List.forall_mem_cons.1 hnames
    calc ((p.child n).branch rest).components
      _ = (p.child n).components ++ rest.map .name :=
        ih (FileSystem.bytes_child_ne_nil hp n) hrest
      _ = p.components ++ (n :: rest).map .name := by
        rw [components_child hp hn, List.append_assoc]
        rfl

/-- Two spellings of a path are spellings of the same path with more names behind them. -/
theorem branch_same_branch {p q : Path} (h : p.same q = true) (hp : p.bytes ≠ [])
    {names : List FileName} (hnames : ∀ n ∈ names, FileName.IsPlain n) :
    (p.branch names).same (q.branch names) = true := by
  have hq := FileSystem.bytes_ne_nil_of_same h hp
  rw [same_iff, components_branch hp hnames, components_branch hq hnames, same_iff.1 h]

theorem map_name_lt {names names' : List FileName} (h : names < names') :
    names.map Component.name < names'.map Component.name := by
  induction names generalizing names' with
  | nil =>
    cases names' with
    | nil => exact absurd h (List.lt_irrefl [])
    | cons n rest => exact List.nil_lt_cons _ _
  | cons n rest ih =>
    cases names' with
    | nil => exact absurd h (List.not_lt_nil _)
    | cons m rest' =>
      rw [List.map_cons, List.map_cons]
      obtain hlt | ⟨rfl, hlt⟩ := List.cons_lt_cons_iff.1 h
      · exact List.cons_lt_cons_iff.2 (.inl (.name hlt))
      · exact List.cons_lt_cons_iff.2 (.inr ⟨rfl, ih hlt⟩)

/-- Directories below one path are in the order of the names that lead there. -/
theorem branch_lt_branch {p : Path} (hp : p.bytes ≠ []) {names names' : List FileName}
    (hnames : ∀ n ∈ names, FileName.IsPlain n) (hnames' : ∀ n ∈ names', FileName.IsPlain n)
    (h : names < names') : p.branch names < p.branch names' := by
  show (p.branch names).components < (p.branch names').components
  rw [components_branch hp hnames, components_branch hp hnames']
  exact List.append_left_lt (map_name_lt h)

end Path

namespace FileSystem

variable {fs : FileSystem}

/-- The directories of one root are in ascending order. -/
theorem pairwise_directoriesOf (hfs : fs.WellNamed) (root : Path) :
    (fs.directoriesOf root).Pairwise (· < ·) := by
  by_cases hroot : fs.isDirectory root = true
  · obtain ⟨place, entries, hfind⟩ := isDirectory_iff.1 hroot
    have hp := bytes_ne_nil_of_find hfind
    obtain ⟨_, _, hat⟩ := leads_of_find hfind
    have hplain {names : List FileName} (hnames : names ∈ (Node.directory entries).branches) :
        ∀ n ∈ names, FileName.IsPlain n :=
      ((mem_branches_iff_visibleBelow hfs hfind).1 hnames).2.isPlain
    rw [directoriesOf_of_find hfind, List.pairwise_append]
    refine ⟨?_, ?_, ?_⟩
    · split <;> simp
    · -- the tree lists its branches by their names
      have hsorted := Node.pairwise_branches (.directory entries) (hfs.distinct.of_at? hat)
      refine List.pairwise_map.2 (hsorted.imp_of_mem ?_)
      intro names names' hnames hnames' hlt
      exact Path.branch_lt_branch hp (hplain hnames) (hplain hnames') hlt
    · intro p hroot q hq
      obtain ⟨names, hnames, rfl⟩ := List.mem_map.1 hq
      obtain rfl : p = root := by
        split at hroot
        · exact List.mem_singleton.1 hroot
        · exact absurd hroot List.not_mem_nil
      -- no names lead to the root itself
      obtain ⟨n, rest, rfl⟩ := List.exists_cons_of_ne_nil
        ((mem_branches_iff_visibleBelow hfs hfind).1 hnames).1
      show p.branch [] < p.branch (n :: rest)
      exact Path.branch_lt_branch hp (by simp) (hplain hnames) (List.nil_lt_cons n rest)
  · have hnone : fs.directoriesOf root = [] := by
      refine List.eq_nil_iff_forall_not_mem.2 ?_
      intro p hp
      obtain ⟨place, entries, hfind⟩ := exists_find_of_mem_directoriesOf hp
      exact hroot (isDirectory_iff.2 ⟨place, entries, hfind⟩)
    rw [hnone]
    exact List.Pairwise.nil

/-! ## Each directory once -/

section

variable {seen paths : List Path} {p q : Path}

theorem any_same_iff : seen.any p.same = true ↔ ∃ q ∈ seen, p.same q = true :=
  List.any_eq_true

/-- Nothing is kept that has been seen. -/
theorem same_eq_false_of_mem_dropSame (h : p ∈ dropSame seen paths) (hq : q ∈ seen) :
    p.same q = false := by
  induction paths generalizing seen with
  | nil => exact absurd h List.not_mem_nil
  | cons first rest ih =>
    rw [dropSame] at h
    by_cases hseen : seen.any first.same = true
    · rw [if_pos hseen] at h
      exact ih h hq
    · rw [if_neg hseen] at h
      obtain rfl | h := List.mem_cons.1 h
      · rw [Bool.eq_false_iff]
        intro hsame
        exact hseen (any_same_iff.2 ⟨q, hq, hsame⟩)
      · exact ih h (List.mem_cons_of_mem first hq)

theorem pairwise_dropSame (seen paths : List Path) :
    (dropSame seen paths).Pairwise fun p q => p.same q = false := by
  induction paths generalizing seen with
  | nil => exact List.Pairwise.nil
  | cons first rest ih =>
    rw [dropSame]
    split
    · exact ih seen
    · refine List.pairwise_cons.2 ⟨?_, ih (first :: seen)⟩
      intro q hq
      rw [Path.same_comm]
      exact same_eq_false_of_mem_dropSame hq List.mem_cons_self

/-- What is not kept has been seen, or it is the same as something that is kept. -/
theorem exists_same_of_mem (h : p ∈ paths) :
    (∃ q ∈ seen, p.same q = true) ∨ ∃ q ∈ dropSame seen paths, p.same q = true := by
  induction paths generalizing seen with
  | nil => exact absurd h List.not_mem_nil
  | cons first rest ih =>
    rw [dropSame]
    by_cases hseen : seen.any first.same = true
    · rw [if_pos hseen]
      obtain rfl | h := List.mem_cons.1 h
      · exact .inl (any_same_iff.1 hseen)
      · exact ih h
    · rw [if_neg hseen]
      obtain rfl | h := List.mem_cons.1 h
      · exact .inr ⟨p, List.mem_cons_self, Path.same_iff.2 rfl⟩
      · -- the first path is seen by the rest, and it is kept
        obtain ⟨q, hq, hsame⟩ | ⟨q, hq, hsame⟩ := @ih (first :: seen) h
        · obtain rfl | hq := List.mem_cons.1 hq
          · exact .inr ⟨q, List.mem_cons_self, hsame⟩
          · exact .inl ⟨q, hq, hsame⟩
        · exact .inr ⟨q, List.mem_cons_of_mem first hq, hsame⟩

/-- Paths that have all been seen add nothing. -/
theorem dropSame_eq_nil (h : ∀ p ∈ paths, ∃ q ∈ seen, p.same q = true) :
    dropSame seen paths = [] := by
  induction paths with
  | nil => rfl
  | cons first rest ih =>
    obtain ⟨hfirst, hrest⟩ := List.forall_mem_cons.1 h
    rw [dropSame, if_pos (any_same_iff.2 hfirst), ih hrest]

/-- Paths of which no two are the same are all kept. -/
theorem dropSame_eq_self (h : paths.Pairwise fun p q => p.same q = false)
    (hseen : ∀ p ∈ paths, ∀ q ∈ seen, p.same q = false) : dropSame seen paths = paths := by
  induction paths generalizing seen with
  | nil => rfl
  | cons first rest ih =>
    obtain ⟨hfirst, hrest⟩ := List.pairwise_cons.1 h
    obtain ⟨hnew, hseen⟩ := List.forall_mem_cons.1 hseen
    have hany : ¬seen.any first.same = true := by
      rw [any_same_iff]
      rintro ⟨q, hq, hsame⟩
      exact absurd hsame (by simp [hnew q hq])
    rw [dropSame, if_neg hany, ih hrest]
    intro p hp q hq
    obtain rfl | hq := List.mem_cons.1 hq
    · rw [Path.same_comm]
      exact hfirst p hp
    · exact hseen p hp q hq

theorem dropSame_append (seen paths paths' : List Path) : dropSame seen (paths ++ paths') =
    dropSame seen paths ++ dropSame ((dropSame seen paths).reverse ++ seen) paths' := by
  induction paths generalizing seen with
  | nil => rfl
  | cons first rest ih =>
    rw [List.cons_append, dropSame, dropSame]
    split
    · exact ih seen
    · rw [ih, List.reverse_cons, List.append_assoc]
      rfl

/-- The loop of the library collects what it has seen in reverse. -/
theorem loop_same_eq (paths seen : List Path) :
    List.eraseDupsBy.loop Path.same paths seen = seen.reverse ++ dropSame seen paths := by
  induction paths generalizing seen with
  | nil => exact (List.append_nil _).symm
  | cons first rest ih =>
    rw [List.eraseDupsBy.loop, dropSame]
    cases hseen : seen.any first.same with
    | true => exact ih seen
    | false => simp [ih]

/-- Of paths with the same components the first one is kept. -/
theorem dropSame_eq_eraseDupsBy (paths : List Path) :
    dropSame [] paths = paths.eraseDupsBy Path.same :=
  (loop_same_eq paths []).symm

end

/-! ## The search -/

/-- The directories of further roots come after the others. -/
theorem searchDirectories_append (roots more : List Path) : fs.searchDirectories (roots ++ more) =
    fs.searchDirectories roots ++
      dropSame (fs.searchDirectories roots).reverse (more.flatMap fs.directoriesOf) := by
  rw [searchDirectories, searchDirectories, List.flatMap_append, dropSame_append, List.append_nil]

section

variable (hfs : fs.WellNamed) {roots : List Path}

include hfs

/-- The directories of a single root are all listed. -/
theorem searchDirectories_singleton (root : Path) :
    fs.searchDirectories [root] = fs.directoriesOf root := by
  have hdistinct : (fs.directoriesOf root).Pairwise fun p q => p.same q = false :=
    (pairwise_directoriesOf hfs root).imp Path.same_eq_false_of_lt
  rw [searchDirectories, List.flatMap_cons, List.flatMap_nil, List.append_nil]
  exact dropSame_eq_self hdistinct (by simp)

/-- The directories of some roots are those of each root, without those that have been listed. -/
theorem searchDirectories_eq_eraseDupsBy (roots : List Path) : fs.searchDirectories roots =
    (roots.flatMap fun root => fs.searchDirectories [root]).eraseDupsBy Path.same := by
  rw [funext (searchDirectories_singleton hfs), ← dropSame_eq_eraseDupsBy, searchDirectories]

/-- A searched directory is reached from a root through visible directories. -/
theorem visibleBelow_of_mem_searchDirectories {p : Path} (h : p ∈ fs.searchDirectories roots) :
    ∃ root ∈ roots, fs.isDirectory root = true ∧ ∃ names, fs.VisibleBelow root names ∧
      p = root.branch names ∧ (names = [] → fs.isLink root = false) := by
  obtain ⟨root, hroot, hp⟩ := List.mem_flatMap.1 (mem_of_mem_dropSame h)
  exact ⟨root, hroot, (mem_directoriesOf_iff_visibleBelow hfs).1 hp⟩

/-- What is reached from a root through visible directories is searched. -/
theorem exists_mem_searchDirectories {root : Path} (hroot : root ∈ roots)
    (hdirectory : fs.isDirectory root = true) {names : List FileName}
    (hnames : fs.VisibleBelow root names) (hlink : names = [] → fs.isLink root = false) :
    ∃ p ∈ fs.searchDirectories roots, p.same (root.branch names) = true := by
  have hmem : root.branch names ∈ roots.flatMap fs.directoriesOf :=
    List.mem_flatMap.2 ⟨root, hroot, (mem_directoriesOf_iff_visibleBelow hfs).2
      ⟨hdirectory, names, hnames, rfl, hlink⟩⟩
  obtain ⟨q, hq, _⟩ | ⟨q, hq, hsame⟩ := @exists_same_of_mem [] _ _ hmem
  · exact absurd hq List.not_mem_nil
  · exact ⟨q, hq, Path.same_symm hsame⟩

/-- What is listed already adds nothing as a root. -/
theorem searchDirectories_append_of_same (hroots : ∀ root ∈ roots, fs.isLink root = false)
    {p directory : Path} (hp : p ∈ fs.searchDirectories roots) (hsame : p.same directory = true) :
    fs.searchDirectories (roots ++ [directory]) = fs.searchDirectories roots := by
  rw [searchDirectories_append, List.flatMap_singleton, dropSame_eq_nil, List.append_nil]
  intro q hq
  obtain ⟨root, hroot, hdirectory, outer, houter, rfl, _⟩ :=
    visibleBelow_of_mem_searchDirectories hfs hp
  obtain ⟨place, entries, inner, hfind, rfl, hinner⟩ := exists_branch_of_mem_directoriesOf hq
  have hbelow : fs.VisibleBelow (root.branch outer) inner := by
    have hfind' := find_use_of_same (Path.same_symm hsame) hfind
    obtain rfl | hinner := hinner
    · exact .here
    · exact ((mem_branches_iff_visibleBelow hfs hfind').1 hinner).2
  -- the same directory is reached from the root that has listed this one
  obtain ⟨r, hr, hrsame⟩ := exists_mem_searchDirectories hfs hroot hdirectory
    (visibleBelow_append.2 ⟨houter, hbelow⟩) fun _ => hroots root hroot
  have hbranch := Path.branch_same_branch (Path.same_symm hsame) (bytes_ne_nil_of_find hfind)
    hbelow.isPlain
  rw [Path.branch_append] at hrsame
  refine ⟨r, List.mem_reverse.2 hr, ?_⟩
  rw [Path.same_iff, Path.same_iff.1 hbranch, Path.same_iff.1 hrsame]

/-- The directories of some roots that are no links: all visible directories that are reached from
them, each once. Those of one root are in ascending order, so that each comes before those inside
it; those of several roots are joined without repetition, and what is listed already adds nothing as
a further root. -/
theorem searchDirectories_visible (hroots : ∀ root ∈ roots, fs.isLink root = false) :
    (∀ p ∈ fs.searchDirectories roots, ∃ root ∈ roots, fs.isDirectory root = true ∧
      ∃ names, fs.VisibleBelow root names ∧ p = root.branch names) ∧
    (∀ root ∈ roots, fs.isDirectory root = true → ∀ names, fs.VisibleBelow root names →
      ∃ p ∈ fs.searchDirectories roots, p.same (root.branch names) = true) ∧
    ((fs.searchDirectories roots).Pairwise fun p q => p.same q = false) ∧
    (∀ root, (fs.searchDirectories [root]).Pairwise (· < ·) ∧
      ∀ i j (hi : i < (fs.searchDirectories [root]).length)
        (hj : j < (fs.searchDirectories [root]).length),
        (fs.searchDirectories [root])[i].components <+:
          (fs.searchDirectories [root])[j].components → i ≤ j) ∧
    fs.searchDirectories roots =
      (roots.flatMap fun root => fs.searchDirectories [root]).eraseDupsBy Path.same ∧
    ∀ directory, (∃ p ∈ fs.searchDirectories roots, p.same directory = true) →
      fs.searchDirectories (roots ++ [directory]) = fs.searchDirectories roots := by
  refine ⟨?_, ?_, ?_, ?_, ?_, ?_⟩
  · intro p hp
    obtain ⟨root, hroot, hdirectory, names, hnames, heq, _⟩ :=
      visibleBelow_of_mem_searchDirectories hfs hp
    exact ⟨root, hroot, hdirectory, names, hnames, heq⟩
  · intro root hroot hdirectory names hnames
    exact exists_mem_searchDirectories hfs hroot hdirectory hnames fun _ => hroots root hroot
  · exact pairwise_dropSame [] _
  · intro root
    have hsorted : (fs.searchDirectories [root]).Pairwise (· < ·) := by
      rw [searchDirectories_singleton hfs]
      exact pairwise_directoriesOf hfs root
    refine ⟨hsorted, ?_⟩
    intro i j hi hj h
    refine Nat.le_of_not_lt ?_
    intro hlt
    exact Path.not_lt_of_isPrefix h (List.pairwise_iff_getElem.1 hsorted j i hj hi hlt)
  · exact searchDirectories_eq_eraseDupsBy hfs roots
  · intro directory ⟨p, hp, hsame⟩
    exact searchDirectories_append_of_same hfs hroots hp hsame

end

/-- A tree in which directories are hidden, linked, and listed in no order. -/
def visibleTree : FileSystem where
  top := .directory
    [(FileName.ofString "modules", .directory
      [(FileName.ofString "net", .directory [(FileName.ofString "tools", .directory [])]),
        (FileName.ofString ".git", .directory [(FileName.ofString "hooks", .directory [])]),
        (FileName.ofString "cloud", .directory [(FileName.ofString "__pycache__", .directory [])]),
        (FileName.ofString "alias", .link (Path.ofString "net"))])]
  working := []

/-- Roots one of which is below another one, and one of which is missing. -/
def overlappingRoots : List Path :=
  [Path.ofString "modules/net", Path.ofString "missing", Path.ofString "modules/"]

/-- A directory below two of the roots is searched, and it adds nothing as a further root. -/
theorem searchDirectories_visible_overlapping : visibleTree.WellNamed ∧
    (∀ root ∈ overlappingRoots, visibleTree.isLink root = false) ∧
    (∃ p ∈ visibleTree.searchDirectories overlappingRoots,
      p.same (Path.ofString "modules/net/./tools/") = true) ∧
    visibleTree.searchDirectories (overlappingRoots ++ [Path.ofString "modules/net/./tools/"]) =
      visibleTree.searchDirectories overlappingRoots := by
  have hfs : visibleTree.WellNamed := wellNamed_of_isWellNamed (by decide)
  have hroots : ∀ root ∈ overlappingRoots, visibleTree.isLink root = false := by decide
  have hvisible {name : FileName} (h : name.isSkipped = false) : name.IsVisible :=
    FileName.isSkipped_eq_false_iff.1 h
  have hnames : visibleTree.VisibleBelow (Path.ofString "modules/")
      [FileName.ofString "net", FileName.ofString "tools"] :=
    .inside (by decide) (hvisible (by decide)) (by decide)
      (.inside (by decide) (hvisible (by decide)) (by decide) .here)
  obtain ⟨_, hcomplete, _, _, _, hagain⟩ := searchDirectories_visible hfs hroots
  obtain ⟨p, hp, hsame⟩ := hcomplete (Path.ofString "modules/") (by decide) (by decide) _ hnames
  have hdirectory : p.same (Path.ofString "modules/net/./tools/") = true := by
    have hpath : ((Path.ofString "modules/").branch
        [FileName.ofString "net", FileName.ofString "tools"]).components =
          (Path.ofString "modules/net/./tools/").components := by
      decide
    exact Path.same_iff.2 ((Path.same_iff.1 hsame).trans hpath)
  exact ⟨hfs, hroots, ⟨p, hp, hdirectory⟩, hagain _ ⟨p, hp, hdirectory⟩⟩

end FileSystem

end PluginDataset
