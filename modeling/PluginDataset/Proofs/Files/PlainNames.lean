import PluginDataset.Proofs.Files.Frame

/-!
# Names without separators

The names of entries never hold a separator. Nothing in the type of a tree says so, but it is true
of what is loaded from a disk, and it stays true: the names of new entries come from paths, which
are cut at their separators.

## Main definitions

* `FileSystem.HasPlainNames` says that no entry of a tree has a separator in its name.

## Main results

* `FileSystem.HasPlainNames.notMem`: what a directory lists has no separator in its name.
* `FileSystem.HasPlainNames.write`, `FileSystem.HasPlainNames.createDirectories`: changes keep the
  names plain.
-/

namespace PluginDataset

/-! ## Trees -/

namespace Node

mutual

/-- No entry inside the node has a separator in its name. -/
def hasPlainNames : Node → Bool
  | .directory entries => entriesHavePlainNames entries
  | _ => true

/-- No entry of a list or inside one of them has a separator in its name. -/
def entriesHavePlainNames : List (FileName × Node) → Bool
  | [] => true
  | (name, n) :: rest => !name.contains slash && n.hasPlainNames && entriesHavePlainNames rest

end

theorem entriesHavePlainNames_iff {entries : List (FileName × Node)} :
    entriesHavePlainNames entries = true ↔
      ∀ e ∈ entries, slash ∉ e.1 ∧ e.2.hasPlainNames = true := by
  induction entries with
  | nil => simp [entriesHavePlainNames]
  | cons e rest ih =>
    obtain ⟨name, n⟩ := e
    simp [entriesHavePlainNames, ih]

theorem hasPlainNames_directory {entries : List (FileName × Node)} :
    (directory entries).hasPlainNames = true ↔
      ∀ e ∈ entries, slash ∉ e.1 ∧ e.2.hasPlainNames = true := by
  rw [hasPlainNames, entriesHavePlainNames_iff]

/-- The names that lead to a node are plain, and so are the names inside it. -/
theorem hasPlainNames_of_at? {n m : Node} {place : Place} (h : n.hasPlainNames = true)
    (hat : n.at? place = some m) : (∀ name ∈ place, slash ∉ name) ∧ m.hasPlainNames = true := by
  induction place generalizing n with
  | nil =>
    obtain rfl : n = m := by simpa using hat
    exact ⟨by simp, h⟩
  | cons name rest ih =>
    cases n with
    | file _ => simp [at?] at hat
    | link _ => simp [at?] at hat
    | directory entries =>
      rw [at?] at hat
      cases hlookup : entries.lookup name with
      | none => simp [hlookup] at hat
      | some child =>
        rw [hlookup] at hat
        obtain ⟨before, after, rfl, _⟩ := List.lookup_eq_some_iff.1 hlookup
        have hchild := hasPlainNames_directory.1 h (name, child) (by simp)
        obtain ⟨hrest, hm⟩ := ih hchild.2 hat
        exact ⟨List.forall_mem_cons.2 ⟨hchild.1, hrest⟩, hm⟩

theorem mem_of_mem_setEntry {name : FileName} {n : Node} {entries : List (FileName × Node)}
    {e : FileName × Node} (h : e ∈ setEntry name n entries) : e = (name, n) ∨ e ∈ entries := by
  induction entries with
  | nil => exact .inl (List.mem_singleton.1 h)
  | cons p rest ih =>
    obtain ⟨k, m⟩ := p
    rw [setEntry] at h
    by_cases hname : name = k
    · subst hname
      rw [if_pos rfl] at h
      exact (List.mem_cons.1 h).imp_right (List.mem_cons_of_mem _)
    · rw [if_neg hname] at h
      rcases List.mem_cons.1 h with rfl | h
      · exact .inr List.mem_cons_self
      · exact (ih h).imp_right (List.mem_cons_of_mem _)

/-- A node that is set at a place with plain names keeps all names plain. -/
theorem hasPlainNames_set {n new : Node} {place : Place} (h : n.hasPlainNames = true)
    (hnew : new.hasPlainNames = true) (hplace : ∀ name ∈ place, slash ∉ name) :
    (set new place n).hasPlainNames = true := by
  induction place generalizing n with
  | nil => cases n <;> exact hnew
  | cons name rest ih =>
    obtain ⟨hname, hrest⟩ := List.forall_mem_cons.1 hplace
    cases n with
    | file _ => exact h
    | link _ => exact h
    | directory entries =>
      have hentries := hasPlainNames_directory.1 h
      have hchild : ((entries.lookup name).getD (.directory [])).hasPlainNames = true := by
        cases hlookup : entries.lookup name with
        | none => rfl
        | some child =>
          obtain ⟨before, after, rfl, _⟩ := List.lookup_eq_some_iff.1 hlookup
          exact (hentries (name, child) (by simp)).2
      rw [set]
      refine hasPlainNames_directory.2 fun e he => ?_
      rcases mem_of_mem_setEntry he with rfl | he
      · exact ⟨hname, ih hchild hrest⟩
      · exact hentries e he

end Node

/-! ## Routes -/

/-- The pieces between separators have none. -/
theorem Path.notMem_of_mem_pieces {bytes : List UInt8} {piece : FileName}
    (h : piece ∈ pieces bytes) : PluginDataset.slash ∉ piece := by
  induction bytes generalizing piece with
  | nil =>
    obtain rfl := List.mem_singleton.1 h
    exact List.not_mem_nil
  | cons b rest ih =>
    rw [pieces] at h
    by_cases hb : b = PluginDataset.slash
    · rw [if_pos hb] at h
      rcases List.mem_cons.1 h with rfl | h
      · exact List.not_mem_nil
      · exact ih h
    · rw [if_neg hb] at h
      obtain ⟨first, others, hpieces⟩ := List.exists_cons_of_ne_nil (pieces_ne_nil rest)
      rw [hpieces, consPiece] at h
      rw [hpieces] at ih
      rcases List.mem_cons.1 h with rfl | h
      · rw [List.mem_cons, not_or]
        exact ⟨Ne.symm hb, ih List.mem_cons_self⟩
      · exact ih (List.mem_cons_of_mem first h)

namespace FileSystem

variable {fs : FileSystem}

theorem notMem_of_mem_parts {directory : Place} {p : Path} {n : FileName}
    (h : .name n ∈ (route directory p).parts) : slash ∉ n := by
  obtain ⟨piece, hpiece, hpart⟩ := List.mem_filterMap.1 h
  have hslash := Path.notMem_of_mem_pieces hpiece
  rw [part?] at hpart
  split at hpart
  · simp at hpart
  · split at hpart
    · simp at hpart
    · split at hpart
      · simp at hpart
      · obtain rfl := Component.name.inj (Option.some.inj hpart)
        exact hslash

/-- A name that a walk does not find is one of the route, or of the target of a link. -/
theorem Leads.notMem_of_missing {purpose : Purpose} {links : Nat} {r : Route} {directory : Place}
    {name : FileName} (h : Leads fs purpose links r (.missing directory name))
    (hparts : ∀ n, .name n ∈ r.parts → slash ∉ n) : slash ∉ name := by
  generalize hg : Goal.missing directory name = g at h
  induction h with
  | arrived => simp at hg
  | inspected => simp at hg
  | missing _ _ _ =>
    obtain ⟨_, rfl⟩ := Goal.missing.inj hg
    exact hparts _ (by simp)
  | top _ _ ih => exact ih (fun n hn => hparts n (List.mem_cons_of_mem _ hn)) hg
  | here _ _ ih => exact ih (fun n hn => hparts n (List.mem_cons_of_mem _ hn)) hg
  | up _ _ ih => exact ih (fun n hn => hparts n (List.mem_cons_of_mem _ hn)) hg
  | entry _ _ _ _ ih => exact ih (fun n hn => hparts n (List.mem_cons_of_mem _ hn)) hg
  | link _ _ _ _ _ _ ih =>
    refine ih (fun n hn => ?_) hg
    rcases List.mem_append.1 hn with hn | hn
    · exact notMem_of_mem_parts hn
    · exact hparts n (List.mem_cons_of_mem _ hn)

/-- No entry of the tree has a separator in its name. -/
def HasPlainNames (fs : FileSystem) : Prop :=
  fs.top.hasPlainNames = true

namespace HasPlainNames

/-- What a directory lists has no separator in its name. -/
theorem notMem {p : Path} {names : List FileName} (h : fs.HasPlainNames)
    (hlist : fs.list p = .ok names) {n : FileName} (hn : n ∈ names) : slash ∉ n := by
  obtain ⟨place, entries, hat, rfl⟩ := exists_directory_of_list hlist
  obtain ⟨e, he, rfl⟩ := List.mem_map.1 hn
  obtain ⟨_, hentries⟩ := Node.hasPlainNames_of_at? h hat
  exact (Node.hasPlainNames_directory.1 hentries e he).1

/-! ## Changes -/

/-- A file or an empty directory can be set where a walk finds nothing. -/
theorem set_missing (h : fs.HasPlainNames) {purpose : Purpose} {links : Nat} {r : Route}
    {directory : Place} {name : FileName}
    (hleads : Leads fs purpose links r (.missing directory name))
    (hparts : ∀ n, .name n ∈ r.parts → slash ∉ n) {new : Node} (hnew : new.hasPlainNames = true) :
    (fs.set (directory ++ [name]) new).HasPlainNames := by
  obtain ⟨hkind, _⟩ := hleads.missing_kind
  obtain ⟨entries, hat⟩ := exists_entries_of_kind? hkind
  obtain ⟨hdirectory, _⟩ := Node.hasPlainNames_of_at? h hat
  have hname := hleads.notMem_of_missing hparts
  refine Node.hasPlainNames_set h hnew fun n hn => ?_
  rcases List.mem_append.1 hn with hn | hn
  · exact hdirectory n hn
  · obtain rfl := List.mem_singleton.1 hn
    exact hname

theorem set_found (h : fs.HasPlainNames) {place : Place} {old new : Node}
    (hat : fs.at? place = some old) (hnew : new.hasPlainNames = true) :
    (fs.set place new).HasPlainNames :=
  Node.hasPlainNames_set h hnew (Node.hasPlainNames_of_at? h hat).1

/-- Writing keeps names plain. -/
theorem write (h : fs.HasPlainNames) {p : Path} {bytes : List UInt8} {fs' : FileSystem}
    (hwrite : fs.write p bytes = .ok fs') : fs'.HasPlainNames := by
  rw [FileSystem.write] at hwrite
  cases hgoal : fs.goal .write p with
  | error e => simp [hgoal] at hwrite
  | ok g =>
    rw [hgoal] at hwrite
    cases g with
    | missing directory name =>
      obtain rfl := Except.ok.inj hwrite
      rw [goal_of_ne_inspect (by decide) (bytes_ne_nil_of_goal hgoal), follow_eq_ok_iff] at hgoal
      exact h.set_missing hgoal (fun n hn => notMem_of_mem_parts hn) rfl
    | found place slash =>
      dsimp only at hwrite
      split at hwrite
      · next old hat =>
        cases slash with
        | true => simp at hwrite
        | false =>
          obtain rfl := Except.ok.inj hwrite
          exact h.set_found hat rfl
      · simp at hwrite
      · simp at hwrite

theorem createDirectory (h : fs.HasPlainNames) {p : Path} {fs' : FileSystem}
    (hcreate : fs.createDirectory p = .ok fs') : fs'.HasPlainNames := by
  rw [FileSystem.createDirectory] at hcreate
  split at hcreate
  · simp at hcreate
  · dsimp only at hcreate
    split at hcreate
    · simp at hcreate
    · simp at hcreate
    · next directory name hfollow =>
      obtain rfl := Except.ok.inj hcreate
      have hleads := follow_eq_ok_iff.1 hfollow
      have hparts : ∀ n, .name n ∈ (route fs.working p).parts → slash ∉ n :=
        fun n hn => notMem_of_mem_parts hn
      exact h.set_missing hleads hparts rfl

/-- Creating directories keeps names plain, also when it fails on the way. -/
theorem createDirectories (h : fs.HasPlainNames) (p : Path) :
    (fs.createDirectories p).1.HasPlainNames :=
  createDirectories_induction (motive := fun fs fs' => fs.HasPlainNames → fs'.HasPlainNames)
    (fun _ h => h) (fun h h' hfs => h' (h hfs)) (fun _ hcreate hfs => hfs.createDirectory hcreate)
    fs h

end HasPlainNames

end FileSystem

end PluginDataset
