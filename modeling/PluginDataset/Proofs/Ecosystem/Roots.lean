import PluginDataset.Proofs.Ecosystem.SearchOrder

/-!
# Which roots are searched

A root that does not lead to a directory is passed over. A root that is a link to a directory is
passed over as well, although its visible directories are searched, unless another spelling of it
that is no link is among the roots. A root that is no link comes before the directories that it
adds, and the modules of a searched root are in the catalog.

## Main results

* `FileSystem.exists_same_root_iff`: which of the roots that lead to a directory are searched.
* `FileSystem.exists_contributed`: what a root adds to the search.
* `FileSystem.mem_catalog_of_candidate?`: the modules of a searched directory are in the catalog.
* `FileSystem.searchDirectories_root`: the place of a root in the search.
-/

namespace PluginDataset

/-- A path with names behind it is another path. -/
theorem Path.eq_nil_of_branch_same {p : Path} (hp : p.bytes ≠ []) {names : List FileName}
    (hnames : ∀ n ∈ names, FileName.IsPlain n) (h : (p.branch names).same p = true) :
    names = [] := by
  have hcomponents := same_iff.1 h
  rw [components_branch hp hnames] at hcomponents
  simpa using hcomponents

namespace FileSystem

variable {fs : FileSystem}

section

variable (hfs : fs.WellNamed) {roots : List Path} {root : Path}

include hfs

/-- No spelling of a visible directory below the root is a link. -/
theorem isLink_of_same_branch (hdirectory : fs.isDirectory root = true) {names : List FileName}
    (hnames : fs.VisibleBelow root names) (hne : names ≠ []) {p : Path}
    (h : p.same (root.branch names) = true) : fs.isLink p = false := by
  obtain ⟨outer, name, rfl⟩ := (List.eq_nil_or_concat names).resolve_left hne
  rw [List.concat_eq_append] at hnames h
  obtain ⟨houter, hname⟩ := visibleBelow_append.1 hnames
  rw [Path.branch_append] at h
  cases hname with
  | inside hplain _ hplainDirectory _ =>
    obtain ⟨place, entries, hfind⟩ := isDirectory_iff.1 hdirectory
    obtain ⟨inner, hfind'⟩ := find_branch hfs hfind ((visibleBelow_iff hfs hfind).1 houter).1
    obtain ⟨_, hlookup⟩ := (isPlainDirectory_child_iff hfind' hplain).1 hplainDirectory
    exact isLink_of_isPlainDirectory (isPlainDirectory_of_same_child hfind' hplain hlookup h)

/-- A root that leads to a directory is searched if one of the roots is another spelling of it that
does not end in a link, and only then. -/
theorem exists_same_root_iff (hroot : root ∈ roots) (hdirectory : fs.isDirectory root = true) :
    (∃ p ∈ fs.searchDirectories roots, p.same root = true) ↔
      ∃ other ∈ roots, other.same root = true ∧ fs.isLink other = false := by
  constructor
  · intro ⟨p, hp, hsame⟩
    obtain ⟨other, hother, hotherDirectory, names, hnames, rfl, hlink⟩ :=
      visibleBelow_of_mem_searchDirectories hfs hp
    by_cases hnil : names = []
    · subst hnil
      exact ⟨other, hother, hsame, hlink rfl⟩
    · have hself := isLink_of_same_branch hfs hotherDirectory hnames hnil (Path.same_symm hsame)
      exact ⟨root, hroot, Path.same_iff.2 rfl, hself⟩
  · intro ⟨other, hother, hsame, hlink⟩
    have hotherDirectory : fs.isDirectory other = true := by
      obtain ⟨place, entries, hfind⟩ := isDirectory_iff.1 hdirectory
      exact isDirectory_iff.2 ⟨place, entries, find_use_of_same (Path.same_symm hsame) hfind⟩
    obtain ⟨p, hp, hpsame⟩ :=
      exists_mem_searchDirectories hfs hother hotherDirectory .here fun _ => hlink
    exact ⟨p, hp, Path.same_iff.2 ((Path.same_iff.1 hpsame).trans (Path.same_iff.1 hsame))⟩

/-- A root adds directories that are reached from it. It comes first among them, if it is no link
and has not been listed before; a link is not among them. -/
theorem exists_contributed (hdirectory : fs.isDirectory root = true) (before : List Path) :
    ∃ contributed,
      fs.searchDirectories (before ++ [root]) = fs.searchDirectories before ++ contributed ∧
      (∀ p ∈ contributed, ∃ names, fs.VisibleBelow root names ∧ p = root.branch names) ∧
      (fs.isLink root = false → (∃ p ∈ fs.searchDirectories before, p.same root = true) ∨
        contributed.head? = some root) ∧
      (fs.isLink root = true → ∀ p ∈ contributed, p.same root = false) := by
  have hmem {p : Path}
      (hp : p ∈ dropSame (fs.searchDirectories before).reverse (fs.directoriesOf root)) :=
    (mem_directoriesOf_iff_visibleBelow hfs).1 (mem_of_mem_dropSame hp)
  obtain ⟨place, entries, hfind⟩ := isDirectory_iff.1 hdirectory
  refine ⟨dropSame (fs.searchDirectories before).reverse (fs.directoriesOf root), ?_, ?_, ?_, ?_⟩
  · rw [searchDirectories_append, List.flatMap_singleton]
  · intro p hp
    obtain ⟨_, names, hnames, heq, _⟩ := hmem hp
    exact ⟨names, hnames, heq⟩
  · intro hlink
    rw [directoriesOf_of_find hfind, if_pos (isPlainDirectory_of_isDirectory hdirectory hlink),
      List.singleton_append, dropSame]
    by_cases hseen : (fs.searchDirectories before).reverse.any root.same = true
    · obtain ⟨p, hp, hsame⟩ := any_same_iff.1 hseen
      exact .inl ⟨p, List.mem_reverse.1 hp, Path.same_symm hsame⟩
    · rw [if_neg hseen]
      exact .inr rfl
  · intro hlink p hp
    obtain ⟨_, names, hnames, rfl, hroot⟩ := hmem hp
    rw [Bool.eq_false_iff]
    intro hsame
    have hnil := Path.eq_nil_of_branch_same (bytes_ne_nil_of_find hfind) hnames.isPlain hsame
    exact absurd hlink (by simp [hroot hnil])

/-- The modules of a searched directory are in the catalog, in whatever spelling it is searched. -/
theorem mem_catalog_of_candidate? {p directory : Path} (hp : p ∈ fs.searchDirectories roots)
    (hsame : p.same directory = true) (lookupRoots : List Path) {names : List FileName}
    {entry : FileName} {name : String} (hlist : fs.list directory = .ok names)
    (hentry : entry ∈ names) (hcandidate : fs.candidate? directory entry = some name) :
    name ∈ (fs.ecosystem roots lookupRoots).catalog (fs.searchDirectories roots) := by
  have hplain : entry.IsPlain := hfs.isPlain_of_mem_list hlist hentry
  have hsame := Path.same_symm hsame
  have hlist' : fs.list p = .ok names := by
    rw [list] at hlist ⊢
    split at hlist
    · simp at hlist
    · next place entries hfind =>
      rw [find_use_of_same hsame hfind]
      exact hlist
    · simp at hlist
  have hbytes : directory.bytes ≠ [] :=
    bytes_ne_nil_of_same (Path.same_symm hsame) (bytes_ne_nil_of_mem_searchDirectories hp)
  have hcandidate' : fs.candidate? p entry = some name := by
    rw [← hcandidate]
    simp only [candidate?, isDirectory_child_of_same hsame hbytes hplain,
      isLink_child_of_same hsame hbytes hplain]
  exact mem_catalog.2 ⟨p, hp, names, entry, hlist', hentry, hcandidate'⟩

/-- The place in the search of a root that leads to a directory. It is searched unless it is given
only as a link. What it adds is reached from it, and starts with the root if that is no link and has
not been listed before. If it is searched, its modules are in the catalog. -/
theorem searchDirectories_root (hdirectory : fs.isDirectory root = true)
    (before after : List Path) :
    ((∃ p ∈ fs.searchDirectories (before ++ root :: after), p.same root = true) ↔
      ∃ other ∈ before ++ root :: after, other.same root = true ∧ fs.isLink other = false) ∧
    (∃ contributed,
      fs.searchDirectories before ++ contributed <+:
        fs.searchDirectories (before ++ root :: after) ∧
      fs.searchDirectories (before ++ [root]) = fs.searchDirectories before ++ contributed ∧
      (∀ p ∈ contributed, ∃ names, fs.VisibleBelow root names ∧ p = root.branch names) ∧
      (fs.isLink root = false → (∃ p ∈ fs.searchDirectories before, p.same root = true) ∨
        contributed.head? = some root) ∧
      (fs.isLink root = true → ∀ p ∈ contributed, p.same root = false)) ∧
    ((∃ other ∈ before ++ root :: after, other.same root = true ∧ fs.isLink other = false) →
      ∀ lookupRoots names entry name, fs.list root = .ok names → entry ∈ names →
        fs.candidate? root entry = some name →
        name ∈ (fs.ecosystem (before ++ root :: after) lookupRoots).catalog
          (fs.searchDirectories (before ++ root :: after))) := by
  have hroot : root ∈ before ++ root :: after := by simp
  refine ⟨exists_same_root_iff hfs hroot hdirectory, ?_, ?_⟩
  · obtain ⟨contributed, heq, hcontributed⟩ := exists_contributed hfs hdirectory before
    refine ⟨contributed, ?_, heq, hcontributed⟩
    rw [← heq, List.append_cons before root after,
      searchDirectories_append (before ++ [root]) after]
    exact List.prefix_append _ _
  · intro hother lookupRoots names entry name hlist hentry hcandidate
    obtain ⟨p, hp, hsame⟩ := (exists_same_root_iff hfs hroot hdirectory).2 hother
    exact mem_catalog_of_candidate? hfs hp hsame lookupRoots hlist hentry hcandidate

end

/-- A tree with a link to a directory of modules. -/
def linkedTree : FileSystem where
  top := .directory
    [(FileName.ofString "real", .directory [(FileName.ofString "ping.py", .file [])]),
      (FileName.ofString "modules", .link (Path.ofString "real"))]
  working := []

/-- A root that is a link to a directory is not searched. With a separator behind it, it is. -/
theorem searchDirectories_root_linked : linkedTree.WellNamed ∧
    linkedTree.isDirectory (Path.ofString "modules") = true ∧
    (¬∃ p ∈ linkedTree.searchDirectories [Path.ofString "modules"],
      p.same (Path.ofString "modules") = true) ∧
    ∃ p ∈ linkedTree.searchDirectories [Path.ofString "modules", Path.ofString "modules/"],
      p.same (Path.ofString "modules") = true := by
  have hfs : linkedTree.WellNamed := wellNamed_of_isWellNamed (by decide)
  have hdirectory : linkedTree.isDirectory (Path.ofString "modules") = true := by decide
  obtain ⟨halone, _⟩ := searchDirectories_root hfs hdirectory [] []
  obtain ⟨hboth, _⟩ := searchDirectories_root hfs hdirectory [] [Path.ofString "modules/"]
  refine ⟨hfs, hdirectory, ?_, hboth.2 ?_⟩
  · intro h
    obtain ⟨other, hother, _, hlink⟩ := halone.1 h
    obtain rfl := List.mem_singleton.1 hother
    exact absurd hlink (by decide)
  · exact ⟨Path.ofString "modules/", by decide, by decide, by decide⟩

end FileSystem

end PluginDataset
