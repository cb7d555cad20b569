import Mathlib.Data.List.Forall2
import PluginDataset.Proofs.Ecosystem.SearchOrder
import PluginDataset.Proofs.Text.Ascii

/-!
# Which lookup plugins are listed

The lookup plugins of some roots are the files with the extension `py` in the searched directories,
one directory after the other, and in each directory by their names. Files that mark a package are
left out. No path is listed twice, and the name of a plugin is that of its file without the
extension.

## Main definitions

* `FileSystem.HasTextNames` says that all names in a tree are texts.
* `FileSystem.IsLookup` describes the entries that are lookup plugins.
* `FileSystem.lookupEntries` and `FileSystem.lookupPaths` list those of a directory and those of
  some roots.

## Main results

* `FileName.extension?_eq_some_iff`: an extension comes after the last dot of a name.
* `FileSystem.mem_lookupEntries`, `FileSystem.pairwise_lookupEntries`: the plugins of a directory.
* `FileSystem.pairwise_lookupPaths`: overlapping roots list nothing twice.
* `FileSystem.lookupPlugins_listed`: all lookup plugins, with their names.
-/

namespace PluginDataset

/-! ## Extensions -/

/-- A part of a text, wherever it stands. -/
theorem containsPart_iff {part s : List Char} : containsPart part s = true ↔ part <:+: s := by
  induction s with
  | nil => rw [containsPart, List.isEmpty_iff, List.infix_nil]
  | cons c s ih =>
    rw [containsPart, Bool.or_eq_true, List.isPrefixOf_iff_prefix, ih, List.infix_cons_iff]

namespace FileName

/-- An extension comes after the last dot of a name, and a stem before it. -/
theorem extension?_eq_some_iff {n after : FileName} :
    n.extension? = some after ↔
      ∃ before, n = before ++ dot :: after ∧ before ≠ [] ∧ dot ∉ after := by
  rw [extension?, Option.map_eq_some_iff]
  constructor
  · rintro ⟨⟨before, after'⟩, hsplit, rfl⟩
    exact ⟨before, splitLastDot?_eq_some_iff.1 hsplit⟩
  · rintro ⟨before, h⟩
    exact ⟨(before, after), splitLastDot?_eq_some_iff.2 h, rfl⟩

/-- The file name of a lookup plugin. -/
def ofStem (stem : List Char) : FileName :=
  Utf8.encode (stem ++ ".py".toList)

theorem ofStem_eq (stem : List Char) :
    ofStem stem = Utf8.encode stem ++ dot :: FileName.ofString "py" :=
  Utf8.encode_append stem ".py".toList

theorem stem_ofStem {stem : List Char} (hne : stem ≠ []) :
    FileName.stem (ofStem stem) = Utf8.encode stem := by
  obtain ⟨c, s, rfl⟩ := List.exists_cons_of_ne_nil hne
  rw [ofStem_eq]
  exact stem_append_dot (Utf8.encode_cons_ne_nil c s) (by decide)

/-- The names with the extension `py` are those with a stem before it. -/
theorem extension?_eq_py_iff {text : List Char} :
    FileName.extension? (Utf8.encode text) = some (FileName.ofString "py") ↔
      ∃ stem, stem ≠ [] ∧ Utf8.encode text = ofStem stem := by
  rw [extension?_eq_some_iff]
  constructor
  · rintro ⟨before, htext, hne, _⟩
    have hascii : ∀ c ∈ ".py".toList, c.toNat < 0x80 := by simp
    obtain ⟨stem, rfl, rfl⟩ := Utf8.exists_of_encode_eq_append hascii htext
    refine ⟨stem, ?_, rfl⟩
    rintro rfl
    exact hne rfl
  · rintro ⟨stem, hne, htext⟩
    obtain ⟨c, s, rfl⟩ := List.exists_cons_of_ne_nil hne
    exact ⟨_, htext.trans (ofStem_eq _), Utf8.encode_cons_ne_nil c s, by decide⟩

theorem isPackageFile_ofStem {stem : List Char} (hne : stem ≠ []) :
    FileName.isPackageFile (ofStem stem) = true ↔ "__init__".toList <:+: stem := by
  rw [isPackageFile, stem_ofStem hne, Utf8.decode?_encode]
  exact containsPart_iff

end FileName

/-! ## Names that are texts -/

namespace Node

mutual

/-- Whether all names in a node have a property. -/
def everyName (p : FileName → Bool) : Node → Bool
  | .directory entries => everyEntry p entries
  | _ => true

def everyEntry (p : FileName → Bool) : List (FileName × Node) → Bool
  | [] => true
  | (name, n) :: rest => p name && n.everyName p && everyEntry p rest

end

theorem everyEntry_iff {p : FileName → Bool} {entries : List (FileName × Node)} :
    everyEntry p entries = true ↔ ∀ e ∈ entries, p e.1 = true ∧ e.2.everyName p = true := by
  induction entries with
  | nil => simp [everyEntry]
  | cons e rest ih =>
    obtain ⟨name, n⟩ := e
    simp [everyEntry, ih]

/-- The parts of a node have names with the same property. -/
theorem everyName_of_at? {p : FileName → Bool} {n m : Node} (h : n.everyName p = true)
    {place : Place} (hat : n.at? place = some m) : m.everyName p = true := by
  induction place generalizing n with
  | nil =>
    obtain rfl : n = m := by simpa using hat
    exact h
  | cons name rest ih =>
    cases n with
    | file _ => simp [at?] at hat
    | link _ => simp [at?] at hat
    | directory entries =>
      rw [at?] at hat
      cases hlookup : entries.lookup name with
      | none => simp [hlookup] at hat
      | some child =>
        rw [hlookup] at hat
        obtain ⟨before, after, rfl, _⟩ := List.lookup_eq_some_iff.1 hlookup
        exact ih (everyEntry_iff.1 h (name, child) (by simp)).2 hat

end Node

namespace FileSystem

variable {fs : FileSystem} {directory : Path} {names : List FileName} {entry : FileName}

/-- All names in the tree are texts. -/
def HasTextNames (fs : FileSystem) : Prop :=
  fs.top.everyName (fun n => n.text?.isSome) = true

theorem HasTextNames.exists_text (h : fs.HasTextNames) (hlist : fs.list directory = .ok names)
    (hentry : entry ∈ names) : ∃ text, entry = Utf8.encode text := by
  obtain ⟨place, entries, hat, rfl⟩ := exists_directory_of_list hlist
  obtain ⟨e, he, rfl⟩ := List.mem_map.1 hentry
  obtain ⟨htext, _⟩ := Node.everyEntry_iff.1 (Node.everyName_of_at? h hat) e he
  obtain ⟨text, htext⟩ := Option.isSome_iff_exists.1 htext
  exact ⟨text, (Utf8.decode?_eq_some_iff.1 htext).symm⟩

/-! ## The plugins of a directory -/

/-- An entry of a directory that is a lookup plugin: a file, maybe behind a link, with the extension
`py` after a stem that marks no package. -/
structure IsLookup (fs : FileSystem) (directory : Path) (entry : FileName) : Prop where
  listed : ∃ names, fs.list directory = .ok names ∧ entry ∈ names
  isFile : fs.isFile (directory.child entry) = true
  form : ∃ stem, stem ≠ [] ∧ entry = FileName.ofStem stem ∧ ¬ "__init__".toList <:+: stem

/-- The names of the lookup plugins in a directory. -/
def lookupEntries (fs : FileSystem) (directory : Path) : List FileName :=
  match fs.list directory with
  | .error _ => []
  | .ok names =>
    (FileName.sort (names.filter fun entry => fs.isFile (directory.child entry) &&
      entry.extension? == some (FileName.ofString "py"))).filter (!·.isPackageFile)

/-- The paths of the lookup plugins of some roots, one directory after the other. -/
def lookupPaths (fs : FileSystem) (roots : List Path) : List Path :=
  (fs.searchDirectories roots).flatMap fun directory =>
    (fs.lookupEntries directory).map directory.child

theorem lookupsIn_of_list (hlist : fs.list directory = .ok names) :
    fs.lookupsIn directory = .ok ((fs.lookupEntries directory).map directory.child) := by
  rw [lookupsIn, lookupEntries, hlist]

/-- The plugins of a directory are all of its entries with this form. -/
theorem mem_lookupEntries (htext : fs.HasTextNames) :
    entry ∈ fs.lookupEntries directory ↔ fs.IsLookup directory entry := by
  rw [lookupEntries]
  cases hlist : fs.list directory with
  | error e =>
    refine ⟨fun h => absurd h List.not_mem_nil, fun h => ?_⟩
    obtain ⟨names, hnames, _⟩ := h.listed
    simp [hlist] at hnames
  | ok names =>
    dsimp only
    rw [List.mem_filter, FileName.sort, List.mem_mergeSort, List.mem_filter, Bool.and_eq_true,
      beq_iff_eq]
    constructor
    · rintro ⟨⟨hentry, hfile, hextension⟩, hpackage⟩
      obtain ⟨text, rfl⟩ := htext.exists_text hlist hentry
      obtain ⟨stem, hne, hstem⟩ := FileName.extension?_eq_py_iff.1 hextension
      refine ⟨⟨names, hlist, hentry⟩, hfile, stem, hne, hstem, fun hin => ?_⟩
      rw [hstem, (FileName.isPackageFile_ofStem hne).2 hin] at hpackage
      simp at hpackage
    · rintro ⟨⟨names', hlist', hentry⟩, hfile, stem, hne, rfl, hpackage⟩
      obtain rfl := Except.ok.inj (hlist.symm.trans hlist')
      refine ⟨⟨hentry, hfile, FileName.extension?_eq_py_iff.2 ⟨stem, hne, rfl⟩⟩, ?_⟩
      rw [Bool.not_eq_true', Bool.eq_false_iff]
      exact fun h => hpackage ((FileName.isPackageFile_ofStem hne).1 h)

section

variable (hfs : fs.WellNamed)

include hfs

theorem nodup_of_list (hlist : fs.list directory = .ok names) : names.Nodup := by
  obtain ⟨place, entries, hat, rfl⟩ := exists_directory_of_list hlist
  exact hfs.distinct place entries hat

/-- The plugins of a directory are in ascending order, each once. -/
theorem pairwise_lookupEntries (directory : Path) :
    (fs.lookupEntries directory).Pairwise (· < ·) := by
  rw [lookupEntries]
  cases hlist : fs.list directory with
  | error e => exact List.Pairwise.nil
  | ok names =>
    dsimp only
    refine List.Pairwise.filter _ ?_
    have hdistinct := (List.mergeSort_perm (names.filter fun entry =>
      fs.isFile (directory.child entry) && entry.extension? == some (FileName.ofString "py"))
        fun a b => decide (a ≤ b)).nodup_iff.2 ((nodup_of_list hfs hlist).filter _)
    refine ((pairwise_mergeSort_le _).and hdistinct).imp ?_
    rintro a b ⟨hle, hne⟩
    exact Std.lt_of_le_of_ne hle hne

theorem isPlain_of_mem_lookupEntries (h : entry ∈ fs.lookupEntries directory) : entry.IsPlain := by
  rw [lookupEntries] at h
  split at h
  · exact absurd h List.not_mem_nil
  · next names hlist =>
    rw [List.mem_filter, FileName.sort, List.mem_mergeSort, List.mem_filter] at h
    exact hfs.isPlain_of_mem_list hlist h.1.1

/-! ## The plugins of some roots -/

/-- A searched directory can be listed. -/
theorem exists_list_of_mem_searchDirectories {roots : List Path}
    (h : directory ∈ fs.searchDirectories roots) : ∃ names, fs.list directory = .ok names := by
  obtain ⟨root, _, hdirectory⟩ := List.mem_flatMap.1 (mem_of_mem_dropSame h)
  obtain ⟨q, entries, names, hfind, rfl, hnames⟩ := exists_branch_of_mem_directoriesOf hdirectory
  have hleads : ∃ q, fs.LeadsToDirectory (root.branch names) q := by
    obtain rfl | hnames := hnames
    · exact ⟨q, entries, hfind⟩
    · obtain ⟨_, _, hat⟩ := leads_of_find hfind
      obtain ⟨_, hkind, _⟩ := (Node.mem_branches_iff (hfs.distinct.of_at? hat)).1 hnames
      exact ⟨_, find_branch hfs hfind hkind⟩
  obtain ⟨_, inner, hfind⟩ := hleads
  exact ⟨inner.map (·.1), by rw [list, hfind]⟩

theorem lookupPlugins_eq_lookupPaths (roots : List Path) :
    fs.lookupPlugins roots = .ok (fs.lookupPaths roots) := by
  have hlookups : ∀ directory ∈ fs.searchDirectories roots, fs.lookupsIn directory =
      .ok ((fs.lookupEntries directory).map directory.child) := by
    intro directory h
    obtain ⟨names, hlist⟩ := exists_list_of_mem_searchDirectories hfs h
    exact lookupsIn_of_list hlist
  have hall : (fs.searchDirectories roots).mapM fs.lookupsIn =
      .ok ((fs.searchDirectories roots).map fun directory =>
        (fs.lookupEntries directory).map directory.child) :=
    (mapM_congr hlookups).trans List.mapM_pure
  rw [lookupPlugins, hall]
  rfl

/-- No path of a plugin is listed twice, also where roots overlap. -/
theorem pairwise_lookupPaths (roots : List Path) :
    (fs.lookupPaths roots).Pairwise fun p q => p.same q = false := by
  -- paths of entries are the same just when the directories are and the names are equal
  have hchild : ∀ {d d' : Path} {entry entry' : FileName}, d.bytes ≠ [] → d'.bytes ≠ [] →
      entry ∈ fs.lookupEntries d → entry' ∈ fs.lookupEntries d' →
        (d.child entry).same (d'.child entry') = true → d.same d' = true ∧ entry = entry' := by
    intro d d' entry entry' hd hd' hentry hentry' hsame
    rw [Path.same_iff, Path.components_child hd (isPlain_of_mem_lookupEntries hfs hentry),
      Path.components_child hd' (isPlain_of_mem_lookupEntries hfs hentry')] at hsame
    obtain ⟨hcomponents, hname⟩ := List.append_inj' hsame rfl
    exact ⟨Path.same_iff.2 hcomponents, Component.name.inj (List.cons.inj hname).1⟩
  have hdirectories : (fs.searchDirectories roots).Pairwise fun d d' => d.same d' = false :=
    pairwise_dropSame [] _
  rw [lookupPaths, List.pairwise_flatMap]
  constructor
  · intro d hd
    have hbytes := bytes_ne_nil_of_mem_searchDirectories hd
    refine List.pairwise_map.2 ((pairwise_lookupEntries hfs d).imp_of_mem ?_)
    intro entry entry' hentry hentry' hlt
    rw [Bool.eq_false_iff]
    intro hsame
    obtain ⟨_, rfl⟩ := hchild hbytes hbytes hentry hentry' hsame
    exact List.lt_irrefl entry hlt
  · refine hdirectories.imp_of_mem ?_
    intro d d' hd hd' hne p hp q hq
    obtain ⟨entry, hentry, rfl⟩ := List.mem_map.1 hp
    obtain ⟨entry', hentry', rfl⟩ := List.mem_map.1 hq
    rw [Bool.eq_false_iff]
    intro hsame
    obtain ⟨hsame, _⟩ := hchild (bytes_ne_nil_of_mem_searchDirectories hd)
      (bytes_ne_nil_of_mem_searchDirectories hd') hentry hentry' hsame
    rw [hne] at hsame
    exact absurd hsame (by decide)

/-- The name of a plugin is that of its file without the extension. -/
theorem fileName?_eq_displayName (htext : fs.HasTextNames) {roots : List Path} {path : Path}
    (h : path ∈ fs.lookupPaths roots) :
    path.fileName? = some (FileName.ofString (Ecosystem.displayName path ++ ".py")) := by
  obtain ⟨directory, hdirectory, hpath⟩ := List.mem_flatMap.1 h
  obtain ⟨entry, hentry, rfl⟩ := List.mem_map.1 hpath
  have hplain := isPlain_of_mem_lookupEntries hfs hentry
  have hname : (directory.child entry).fileName? = some entry := by
    rw [Path.fileName?, Path.components_child (bytes_ne_nil_of_mem_searchDirectories hdirectory)
      hplain, List.getLast?_concat]
  obtain ⟨stem, hne, rfl, _⟩ := ((mem_lookupEntries htext).1 hentry).form
  rw [hname, Ecosystem.displayName, Path.stem?, hname, Option.map_some, Option.getD_some,
    FileName.stem_ofStem hne, Utf8.decodeLossy_encode, FileName.ofString, String.toList_append,
    String.toList_ofList]
  rfl

/-- The lookup plugins of some roots are listed directory by directory, in each all that there are
in ascending order, without repeats, and each under the name of its file. -/
theorem lookupPlugins_listed (htext : fs.HasTextNames) (moduleRoots roots : List Path) :
    (∀ directory, (fs.lookupEntries directory).Pairwise (· < ·) ∧
      ∀ entry, entry ∈ fs.lookupEntries directory ↔ fs.IsLookup directory entry) ∧
    fs.lookupPlugins roots = .ok (fs.lookupPaths roots) ∧
    (fs.lookupPaths roots).Pairwise (fun p q => p.same q = false) ∧
    ∃ names, (fs.ecosystem moduleRoots roots).lookupNames = .ok names ∧
      List.Forall₂ (fun name path => path.fileName? = some (FileName.ofString (name ++ ".py")))
        names (fs.lookupPaths roots) := by
  refine ⟨fun directory => ?_, lookupPlugins_eq_lookupPaths hfs roots,
    pairwise_lookupPaths hfs roots, (fs.lookupPaths roots).map Ecosystem.displayName, ?_, ?_⟩
  · exact ⟨pairwise_lookupEntries hfs directory, fun _ => mem_lookupEntries htext⟩
  · have hplugins : (fs.ecosystem moduleRoots roots).lookupPlugins = fs.lookupPlugins roots := rfl
    rw [Ecosystem.lookupNames, hplugins, lookupPlugins_eq_lookupPaths hfs]
    rfl
  · rw [List.forall₂_map_left_iff, List.forall₂_same]
    exact fun path hpath => fileName?_eq_displayName hfs htext hpath

end

/-- A tree with two plugins, one of which is a link, and three entries that are none, above a
directory with another plugin. -/
def lookupTree : FileSystem where
  top := .directory
    [(FileName.ofString "lookups", .directory
      [(FileName.ofString "web.py", .file []),
        (FileName.ofString "env.py", .link (Path.ofString "web.py")),
        (FileName.ofString "__init__.py", .file []),
        (FileName.ofString ".py", .file []),
        (FileName.ofString "old.py", .directory []),
        (FileName.ofString "more", .directory [(FileName.ofString "web.py", .file [])])])]
  working := []

/-- The first root is below the second one. -/
def nestedRoots : List Path :=
  [Path.ofString "lookups/more", Path.ofString "lookups"]

/-- A link to a file is a plugin, the file of a package is none, and plugins of the same name in
nested directories are both listed. -/
theorem lookupPlugins_listed_nested : lookupTree.WellNamed ∧ lookupTree.HasTextNames ∧
    FileName.ofString "env.py" ∈ lookupTree.lookupEntries (Path.ofString "lookups") ∧
    FileName.ofString "__init__.py" ∉ lookupTree.lookupEntries (Path.ofString "lookups") ∧
    lookupTree.lookupPlugins nestedRoots = .ok (lookupTree.lookupPaths nestedRoots) ∧
    (lookupTree.lookupPaths nestedRoots).Pairwise (fun p q => p.same q = false) ∧
    ∃ names, (lookupTree.ecosystem [] nestedRoots).lookupNames = .ok names ∧
      List.Forall₂ (fun name path => path.fileName? = some (FileName.ofString (name ++ ".py")))
        names (lookupTree.lookupPaths nestedRoots) := by
  have hfs : lookupTree.WellNamed := wellNamed_of_isWellNamed (by decide)
  have htext : lookupTree.HasTextNames := by rw [HasTextNames]; decide
  obtain ⟨hentries, hplugins, hdistinct, hnames⟩ := lookupPlugins_listed hfs htext [] nestedRoots
  have hlink : lookupTree.IsLookup (Path.ofString "lookups") (FileName.ofString "env.py") := by
    refine ⟨⟨_, rfl, by decide⟩, by decide, "env".toList, by simp, rfl, ?_⟩
    rw [← containsPart_iff]
    decide
  have hpackage : ¬ lookupTree.IsLookup (Path.ofString "lookups")
      (FileName.ofString "__init__.py") := by
    rintro ⟨_, _, stem, hne, hstem, hnone⟩
    have hmarked := FileName.isPackageFile_ofStem hne
    rw [← hstem] at hmarked
    exact hnone (hmarked.1 (by decide))
  exact ⟨hfs, htext, ((hentries _).2 _).2 hlink, fun h => hpackage (((hentries _).2 _).1 h),
    hplugins, hdistinct, hnames⟩

end FileSystem

end PluginDataset
