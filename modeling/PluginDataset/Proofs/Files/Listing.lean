import PluginDataset.Proofs.Files.Entries

/-!
# The order of listings

A directory lists its entries in some order, and what is found in a tree depends on their names
alone. Two trees that differ in the order of listings have the same files and links at all places,
and directories with the same names, so that every path leads to the same place in both.

## Main definitions

* `Node.HasDistinctNames` says that no directory lists a name twice, `FileSystem.WellNamed` besides
  that names can stand in a path. Both hold of every tree on a disk.
* `Node.Reordered` says that listings in a tree have been permuted.
* `Node.SameEntry` compares two nodes, of directories only the names that they list.
* `Node.isWellNamed` computes whether a tree has both properties.
* `FileSystem.FindsSame` says that a path leads to the same place in two file systems.

## Main results

* `mergeSort_eq_of_perm`: sorting undoes a permutation.
* `Node.Reordered.sameEntries`: what a permuted tree has at its places.
* `FileSystem.Reordered.findsSame`: where a path leads in a permuted tree.
-/

namespace PluginDataset

/-- Sorting leads to ascending order. -/
theorem pairwise_mergeSort_le {α : Type} [LE α] [DecidableLE α] [Std.IsLinearOrder α]
    (items : List α) : (items.mergeSort fun a b => decide (a ≤ b)).Pairwise (· ≤ ·) := by
  refine List.Pairwise.imp of_decide_eq_true (List.pairwise_mergeSort ?_ ?_ items)
  · intro a b c hab hbc
    rw [decide_eq_true_iff] at hab hbc ⊢
    exact Std.le_trans hab hbc
  · intro a b
    rw [Bool.or_eq_true, decide_eq_true_iff, decide_eq_true_iff]
    exact Std.le_total

/-- Lists with the same items in another order are sorted to the same list. -/
theorem mergeSort_eq_of_perm {α : Type} [LE α] [DecidableLE α] [Std.IsLinearOrder α]
    {items items' : List α} (h : items.Perm items') :
    (items'.mergeSort fun a b => decide (a ≤ b)) = items.mergeSort fun a b => decide (a ≤ b) := by
  have hperm : (items'.mergeSort fun a b => decide (a ≤ b)).Perm
      (items.mergeSort fun a b => decide (a ≤ b)) :=
    (List.mergeSort_perm _ _).trans (h.symm.trans (List.mergeSort_perm _ _).symm)
  exact hperm.eq_of_pairwise (fun _ _ _ _ hab hba => Std.le_antisymm hab hba)
    (pairwise_mergeSort_le items') (pairwise_mergeSort_le items)

/-! ## Distinct names -/

namespace Node

/-- Where no name is listed twice, looking up a name finds each entry. -/
theorem lookup_eq_some_iff_mem {entries : List (FileName × Node)}
    (h : (entries.map (·.1)).Nodup) {name : FileName} {n : Node} :
    entries.lookup name = some n ↔ (name, n) ∈ entries := by
  constructor
  · intro hlookup
    obtain ⟨before, after, rfl, _⟩ := List.lookup_eq_some_iff.1 hlookup
    simp
  · intro hmem
    obtain ⟨before, after, rfl⟩ := List.append_of_mem hmem
    refine List.lookup_eq_some_iff.2 ⟨before, after, rfl, fun e he => ?_⟩
    rw [List.map_append, List.nodup_append] at h
    have hne : e.1 ≠ name := h.2.2 e.1 (List.mem_map_of_mem he) name (by simp)
    simpa using hne.symm

/-- No directory in the tree lists a name twice. -/
def HasDistinctNames (n : Node) : Prop :=
  ∀ place entries, n.at? place = some (.directory entries) → (entries.map (·.1)).Nodup

theorem hasDistinctNames_directory {entries : List (FileName × Node)} :
    (directory entries).HasDistinctNames ↔
      (entries.map (·.1)).Nodup ∧ ∀ e ∈ entries, e.2.HasDistinctNames := by
  constructor
  · intro h
    have hnodup := h [] entries (at?_nil _)
    refine ⟨hnodup, fun e he place inner hat => h (e.1 :: place) inner ?_⟩
    rw [at?, (lookup_eq_some_iff_mem hnodup).2 he]
    exact hat
  · rintro ⟨hnodup, hentries⟩ place inner hat
    cases place with
    | nil =>
      obtain rfl : entries = inner := by simpa using hat
      exact hnodup
    | cons name rest =>
      rw [at?] at hat
      cases hlookup : entries.lookup name with
      | none => simp [hlookup] at hat
      | some child =>
        rw [hlookup] at hat
        have hmem := (lookup_eq_some_iff_mem hnodup).1 hlookup
        exact hentries (name, child) hmem rest inner hat

theorem HasDistinctNames.of_lookup {entries : List (FileName × Node)}
    (h : (directory entries).HasDistinctNames) {name : FileName} {child : Node}
    (hlookup : entries.lookup name = some child) : child.HasDistinctNames := by
  obtain ⟨hnodup, hentries⟩ := hasDistinctNames_directory.1 h
  exact hentries (name, child) ((lookup_eq_some_iff_mem hnodup).1 hlookup)

/-- What is inside a part of a tree is inside the tree. -/
theorem at?_append (n : Node) (outer inner : Place) :
    n.at? (outer ++ inner) = (n.at? outer).bind fun m => m.at? inner := by
  induction outer generalizing n with
  | nil => simp
  | cons name rest ih =>
    cases n with
    | file _ => rfl
    | link _ => rfl
    | directory entries =>
      rw [List.cons_append, at?, at?]
      cases entries.lookup name with
      | none => rfl
      | some child => exact ih child

theorem HasDistinctNames.of_at? {n m : Node} (h : n.HasDistinctNames) {place : Place}
    (hat : n.at? place = some m) : m.HasDistinctNames := by
  intro inner entries hinner
  refine h (place ++ inner) entries ?_
  rw [at?_append, hat]
  exact hinner

/-! ## Trees with names that can stand in a path -/

mutual

/-- Whether no directory in a node lists a name twice, and all names can stand in a path. -/
def isWellNamed : Node → Bool
  | .directory entries => decide (entries.map (·.1)).Nodup && entriesAreWellNamed entries
  | _ => true

/-- Whether the names of some entries can stand in a path, and what is inside them is so as well. -/
def entriesAreWellNamed : List (FileName × Node) → Bool
  | [] => true
  | (name, n) :: rest => decide name.IsPlain && n.isWellNamed && entriesAreWellNamed rest

end

theorem entriesAreWellNamed_iff {entries : List (FileName × Node)} :
    entriesAreWellNamed entries = true ↔
      ∀ e ∈ entries, FileName.IsPlain e.1 ∧ e.2.isWellNamed = true := by
  induction entries with
  | nil => simp [entriesAreWellNamed]
  | cons e rest ih =>
    obtain ⟨name, n⟩ := e
    simp [entriesAreWellNamed, ih]

theorem isWellNamed_directory {entries : List (FileName × Node)} :
    (directory entries).isWellNamed = true ↔ (entries.map (·.1)).Nodup ∧
      ∀ e ∈ entries, FileName.IsPlain e.1 ∧ e.2.isWellNamed = true := by
  rw [isWellNamed, Bool.and_eq_true, decide_eq_true_iff, entriesAreWellNamed_iff]

/-- The parts of a well-named tree are well-named. -/
theorem isWellNamed_of_at? {n m : Node} (h : n.isWellNamed = true) {place : Place}
    (hat : n.at? place = some m) : m.isWellNamed = true := by
  induction place generalizing n with
  | nil =>
    obtain rfl : n = m := by simpa using hat
    exact h
  | cons name rest ih =>
    cases n with
    | file _ => simp [at?] at hat
    | link _ => simp [at?] at hat
    | directory entries =>
      obtain ⟨hnodup, hentries⟩ := isWellNamed_directory.1 h
      rw [at?] at hat
      cases hlookup : entries.lookup name with
      | none => simp [hlookup] at hat
      | some child =>
        rw [hlookup] at hat
        have hmem := (lookup_eq_some_iff_mem hnodup).1 hlookup
        exact ih (hentries _ hmem).2 hat

/-! ## Permuted listings -/

/-- The second tree is the first one after some of its listings have been permuted. -/
inductive Reordered : Node → Node → Prop where
  | refl (n : Node) : Reordered n n
  | listing {entries entries' : List (FileName × Node)} (h : entries.Perm entries') :
    Reordered (directory entries) (directory entries')
  | inside {before after : List (FileName × Node)} {name : FileName} {child child' : Node}
    (h : Reordered child child') :
    Reordered (directory (before ++ (name, child) :: after))
      (directory (before ++ (name, child') :: after))
  | trans {n m k : Node} (h : Reordered n m) (h' : Reordered m k) : Reordered n k

/-- Two nodes are the same file or link, or they are directories that list the same names in some
order. -/
inductive SameEntry : Node → Node → Prop where
  | file (bytes : List UInt8) : SameEntry (file bytes) (file bytes)
  | link (target : Path) : SameEntry (link target) (link target)
  | directory {entries entries' : List (FileName × Node)}
    (h : (entries.map (·.1)).Perm (entries'.map (·.1))) :
    SameEntry (directory entries) (directory entries')

namespace SameEntry

theorem refl : (n : Node) → SameEntry n n
  | .file bytes => .file bytes
  | .link target => .link target
  | .directory _ => .directory (List.Perm.refl _)

theorem trans {n m k : Node} (h : SameEntry n m) (h' : SameEntry m k) : SameEntry n k := by
  cases h with
  | file bytes => exact h'
  | link target => exact h'
  | directory h =>
    cases h' with
    | directory h' => exact .directory (h.trans h')

theorem kind_eq {n m : Node} (h : SameEntry n m) : n.kind = m.kind := by
  cases h <;> rfl

end SameEntry

/-- Two trees have entries at the same places, and these are the same but for the order of
listings. -/
def SameEntries (n n' : Node) : Prop :=
  ∀ place, Option.Rel SameEntry (n.at? place) (n'.at? place)

namespace SameEntries

theorem refl (n : Node) : n.SameEntries n := by
  intro place
  cases n.at? place with
  | none => exact .none
  | some m => exact .some (.refl m)

theorem trans {n m k : Node} (h : n.SameEntries m) (h' : m.SameEntries k) : n.SameEntries k := by
  intro place
  have hplace := h place
  have hplace' := h' place
  generalize n.at? place = first at hplace ⊢
  generalize m.at? place = second at hplace hplace'
  generalize k.at? place = third at hplace' ⊢
  cases hplace with
  | none => exact hplace'
  | some hn =>
    cases hplace' with
    | some hk => exact .some (hn.trans hk)

/-- Directories with the same entries under each name, up to the order of listings inside them. -/
theorem directory {entries entries' : List (FileName × Node)}
    (hnames : (entries.map (·.1)).Perm (entries'.map (·.1)))
    (h : ∀ name, Option.Rel SameEntries (entries.lookup name) (entries'.lookup name)) :
    (Node.directory entries).SameEntries (.directory entries') := by
  intro place
  cases place with
  | nil =>
    rw [at?_nil, at?_nil]
    exact .some (.directory hnames)
  | cons name rest =>
    have hname := h name
    rw [at?, at?]
    generalize entries.lookup name = found at hname ⊢
    generalize entries'.lookup name = found' at hname ⊢
    cases hname with
    | none => exact .none
    | some hchild => exact hchild rest

theorem kind?_eq {n n' : Node} (h : n.SameEntries n') (place : Place) :
    n'.kind? place = n.kind? place := by
  have hplace := h place
  rw [kind?, kind?]
  generalize n.at? place = found at hplace ⊢
  generalize n'.at? place = found' at hplace ⊢
  cases hplace with
  | none => rfl
  | some hsame => exact congrArg some hsame.kind_eq.symm

/-- No name is listed twice where the same names are listed. -/
theorem hasDistinctNames {n n' : Node} (h : n.SameEntries n') (hn : n.HasDistinctNames) :
    n'.HasDistinctNames := by
  intro place entries' hat'
  have hplace := h place
  rw [hat'] at hplace
  generalize hat : n.at? place = found at hplace
  cases hplace with
  | some hsame =>
    cases hsame with
    | directory hnames => exact hnames.nodup_iff.1 (hn place _ hat)

end SameEntries

/-- Looking up a name in a permuted listing finds the same entry. -/
theorem lookup_eq_of_perm {entries entries' : List (FileName × Node)} (h : entries.Perm entries')
    (hnodup : (entries.map (·.1)).Nodup) (name : FileName) :
    entries'.lookup name = entries.lookup name := by
  have hnodup' : (entries'.map (·.1)).Nodup := (h.map (·.1)).nodup_iff.1 hnodup
  refine Option.ext fun n => ?_
  rw [lookup_eq_some_iff_mem hnodup, lookup_eq_some_iff_mem hnodup']
  exact h.mem_iff.symm

/-- A permuted tree has the same entries as before. -/
theorem Reordered.sameEntries {n n' : Node} (h : n.Reordered n') (hn : n.HasDistinctNames) :
    n.SameEntries n' := by
  induction h with
  | refl n => exact .refl n
  | @listing entries entries' hperm =>
    have hnodup := (hasDistinctNames_directory.1 hn).1
    refine .directory (hperm.map (·.1)) fun name => ?_
    rw [lookup_eq_of_perm hperm hnodup]
    cases entries.lookup name with
    | none => exact .none
    | some child => exact .some (.refl child)
  | @inside before after name child child' _ ih =>
    obtain ⟨hnodup, hentries⟩ := hasDistinctNames_directory.1 hn
    have hchild := ih (hentries (name, child) (by simp))
    refine .directory (by simp) fun other => ?_
    rw [List.lookup_append, List.lookup_append]
    cases before.lookup other with
    | some found => exact .some (.refl found)
    | none =>
      rw [Option.none_or, Option.none_or, List.lookup_cons, List.lookup_cons]
      by_cases hother : other = name
      · subst hother
        simpa using Option.Rel.some hchild
      · rw [beq_eq_false_iff_ne.2 hother]
        dsimp only
        cases after.lookup other with
        | none => exact .none
        | some found => exact .some (.refl found)
  | trans _ _ ih ih' =>
    have hmiddle := ih hn
    exact hmiddle.trans (ih' (hmiddle.hasDistinctNames hn))

end Node

/-! ## Paths in permuted trees -/

namespace FileSystem

variable {fs fs' : FileSystem}

/-- A walk depends on the kinds of the nodes alone. -/
theorem walk_eq_of_kind? (hkind : ∀ q, fs'.kind? q = fs.kind? q) (purpose : Purpose) (slash : Bool)
    (onLink : Route → Except FileFault Goal) (place : Place) (parts : List Component) :
    fs'.walk purpose slash onLink place parts = fs.walk purpose slash onLink place parts := by
  induction parts generalizing place with
  | nil => rfl
  | cons part rest ih =>
    rw [walk_cons, walk_cons]
    simp only [hkind, ih]

theorem follow_eq_of_kind? (hkind : ∀ q, fs'.kind? q = fs.kind? q) (purpose : Purpose)
    (links : Nat) : fs'.follow purpose links = fs.follow purpose links := by
  induction links with
  | zero =>
    funext r
    exact walk_eq_of_kind? hkind purpose r.slash _ r.start r.parts
  | succ links ih =>
    funext r
    rw [follow, follow, ih]
    exact walk_eq_of_kind? hkind purpose r.slash _ r.start r.parts

/-- No directory of the file system lists a name twice. -/
def HasDistinctNames (fs : FileSystem) : Prop :=
  fs.top.HasDistinctNames

/-- No directory lists a name twice, and all names can stand in a path. -/
structure WellNamed (fs : FileSystem) : Prop where
  distinct : fs.HasDistinctNames
  plain : ∀ place entries, fs.at? place = some (.directory entries) →
    ∀ e ∈ entries, FileName.IsPlain e.1

/-- Whether a file system is well-named can be computed. -/
theorem wellNamed_of_isWellNamed (h : fs.top.isWellNamed = true) :
    fs.WellNamed where
  distinct _ _ hat :=
    (Node.isWellNamed_directory.1 (Node.isWellNamed_of_at? h hat)).1
  plain _ _ hat e he :=
    ((Node.isWellNamed_directory.1 (Node.isWellNamed_of_at? h hat)).2 e he).1

namespace WellNamed

variable (hfs : fs.WellNamed)

include hfs

/-- The names that lead to something can stand in a path. -/
theorem isPlain_of_isSome {place : Place} (h : (fs.at? place).isSome) :
    ∀ n ∈ place, FileName.IsPlain n := by
  intro n hn
  obtain ⟨before, after, rfl⟩ := List.append_of_mem hn
  rw [List.append_cons, at?, Node.at?_append, Node.at?_concat] at h
  cases hat : fs.top.at? before with
  | none => simp [hat] at h
  | some outer =>
    cases outer with
    | file _ => simp [hat] at h
    | link _ => simp [hat] at h
    | directory entries =>
      rw [hat] at h
      cases hlookup : entries.lookup n with
      | none => simp [hlookup] at h
      | some child =>
        have hmem := (Node.lookup_eq_some_iff_mem (hfs.distinct before entries hat)).1 hlookup
        exact hfs.plain before entries hat _ hmem

/-- The names that lead to something in a part of the tree can stand in a path. -/
theorem isPlain_of_kind? {place inner : Place} {n : Node} {kind : NodeKind}
    (hat : fs.at? place = some n) (hkind : n.kind? inner = some kind) :
    ∀ name ∈ inner, FileName.IsPlain name := by
  have hsome : (fs.at? (place ++ inner)).isSome := by
    rw [at?, Node.at?_append, show fs.top.at? place = _ from hat]
    obtain ⟨_, hinner, _⟩ := Option.map_eq_some_iff.1 hkind
    exact Option.isSome_of_eq_some hinner
  intro name hname
  exact hfs.isPlain_of_isSome hsome name (List.mem_append_right place hname)

/-- The names that a directory lists can stand in a path. -/
theorem isPlain_of_mem_list {p : Path} {names : List FileName} (hlist : fs.list p = .ok names)
    {n : FileName} (hn : n ∈ names) : n.IsPlain := by
  obtain ⟨place, entries, hat, rfl⟩ := exists_directory_of_list hlist
  obtain ⟨e, he, rfl⟩ := List.mem_map.1 hn
  exact hfs.plain place entries hat e he

end WellNamed

/-- The second file system is the first one after some of its listings have been permuted. -/
structure Reordered (fs fs' : FileSystem) : Prop where
  working : fs'.working = fs.working
  top : fs.top.Reordered fs'.top

/-- A path leads to the same place in both file systems, or to the same fault. -/
inductive FindsSame (fs fs' : FileSystem) (purpose : Purpose) (p : Path) : Prop where
  | error (e : FileFault) (h : fs.find purpose p = .error e) (h' : fs'.find purpose p = .error e)
  | ok {place : Place} {n n' : Node} (h : fs.find purpose p = .ok (place, n))
    (h' : fs'.find purpose p = .ok (place, n')) (hat : fs.at? place = some n)
    (hat' : fs'.at? place = some n') (hsame : n.SameEntry n')

namespace Reordered

variable (h : fs.Reordered fs') (hfs : fs.HasDistinctNames)

include h hfs

/-- Every path leads to the same place after listings have been permuted. -/
theorem findsSame (purpose : Purpose) (p : Path) : FindsSame fs fs' purpose p := by
  have hentries := h.top.sameEntries hfs
  have hkind : ∀ q, fs'.kind? q = fs.kind? q := hentries.kind?_eq
  have hgoal : fs'.goal purpose p = fs.goal purpose p := by
    simp only [goal, h.working, follow_eq_of_kind? hkind]
  cases hfs : fs.goal purpose p with
  | error e => exact .error e (by rw [find, hfs]) (by rw [find, hgoal, hfs])
  | ok g =>
    rw [hfs] at hgoal
    cases g with
    | missing directory name =>
      exact .error .notFound (by rw [find, hfs]) (by rw [find, hgoal])
    | found place slash =>
      have hplace : Option.Rel Node.SameEntry (fs.at? place) (fs'.at? place) := hentries place
      generalize hat : fs.at? place = found at hplace
      generalize hat' : fs'.at? place = found' at hplace
      cases hplace with
      | none =>
        exact .error .notFound (by simp [find, hfs, hat]) (by simp [find, hgoal, hat'])
      | @some n n' hsame =>
        have hdirectory : n'.isDirectory = n.isDirectory := by cases hsame <;> rfl
        by_cases hslash : (slash && !n.isDirectory) = true
        · exact .error .notADirectory (by simp [find, hfs, hat, hslash])
            (by simp [find, hgoal, hat', hdirectory, hslash])
        · exact .ok (by simp [find, hfs, hat, hslash])
            (by simp [find, hgoal, hat', hdirectory, hslash]) hat hat' hsame

theorem isDirectory_eq (p : Path) : fs'.isDirectory p = fs.isDirectory p := by
  rw [isDirectory, isDirectory, look?, look?]
  cases h.findsSame hfs .use p with
  | error e hfind hfind' => rw [hfind, hfind']
  | ok hfind hfind' _ _ hsame =>
    rw [hfind, hfind']
    cases hsame <;> rfl

theorem isFile_eq (p : Path) : fs'.isFile p = fs.isFile p := by
  rw [isFile, isFile, look?, look?]
  cases h.findsSame hfs .use p with
  | error e hfind hfind' => rw [hfind, hfind']
  | ok hfind hfind' _ _ hsame =>
    rw [hfind, hfind']
    cases hsame <;> rfl

theorem isPlainDirectory_eq (p : Path) : fs'.isPlainDirectory p = fs.isPlainDirectory p := by
  rw [isPlainDirectory, isPlainDirectory]
  cases h.findsSame hfs .inspect p with
  | error e hfind hfind' => rw [hfind, hfind']
  | ok hfind hfind' _ _ hsame =>
    rw [hfind, hfind']
    cases hsame <;> rfl

theorem isLink_eq (p : Path) : fs'.isLink p = fs.isLink p := by
  rw [isLink, isLink]
  cases h.findsSame hfs .inspect p with
  | error e hfind hfind' => rw [hfind, hfind']
  | ok hfind hfind' _ _ hsame =>
    rw [hfind, hfind']
    cases hsame <;> rfl

theorem readText_eq (p : Path) : fs'.readText p = fs.readText p := by
  have hread : fs'.read p = fs.read p := by
    rw [read, read]
    cases h.findsSame hfs .use p with
    | error e hfind hfind' => rw [hfind, hfind']
    | ok hfind hfind' _ _ hsame =>
      rw [hfind, hfind']
      cases hsame <;> rfl
  rw [readText, readText, hread]

/-- A directory lists the same names, in some order. -/
theorem list_perm (p : Path) : (∃ e, fs.list p = .error e ∧ fs'.list p = .error e) ∨
    ∃ names names', fs.list p = .ok names ∧ fs'.list p = .ok names' ∧ names.Perm names' := by
  rw [list, list]
  cases h.findsSame hfs .use p with
  | error e hfind hfind' =>
    rw [hfind, hfind']
    exact .inl ⟨e, rfl, rfl⟩
  | ok hfind hfind' _ _ hsame =>
    rw [hfind, hfind']
    cases hsame with
    | file _ => exact .inl ⟨_, rfl, rfl⟩
    | link _ => exact .inl ⟨_, rfl, rfl⟩
    | directory hnames => exact .inr ⟨_, _, rfl, rfl, hnames⟩

end Reordered

end FileSystem

end PluginDataset
