import PluginDataset.Proofs.Ecosystem.Completeness
import PluginDataset.Proofs.Files.Listing
import PluginDataset.Proofs.Text.Ascii

/-!
# Which file a module is resolved to

Resolution searches three times through the directories: for the file of the module, for its file as
deprecated, and for any entry with its stem. This amounts to one choice among all that may stand for
the module. Each contender has the rank of the search that finds it; of the contenders of the least
rank those in the earliest directory are preferred, and of these the one with the least name.

## Main definitions

* `FileSystem.HasRank` says which search finds an entry.
* `Contender` is an entry of one of the directories with its rank, `Contender.Before` is their
  order.
* `FileSystem.Wins` says that a contender comes before all others.

## Main results

* `FileSystem.exists_wins_of_resolveModule`: what is resolved is a contender before all others.
* `FileSystem.resolveModule_wins`: resolution in one choice.
* `FileSystem.resolveModule_in_working`: an empty path stands for two directories.
-/

namespace PluginDataset

/-- A separator is in the bytes of a name only if it is in its text. -/
theorem slash_notMem_ofString {name : String} (h : '/' ∉ name.toList) :
    slash ∉ FileName.ofString name :=
  fun hmem => h ((Utf8.ofNat_mem_encode_iff (by decide)).1 hmem)

/-! ## Contenders -/

/-- A name in one of several directories, with the rank of the search that finds it there. -/
@[ext]
structure Contender where
  rank : Nat
  position : Nat
  entry : FileName

namespace Contender

/-- A lower rank is preferred, then an earlier directory, then a smaller name. -/
def Before (c d : Contender) : Prop :=
  c.rank < d.rank ∨ c.rank = d.rank ∧
    (c.position < d.position ∨ c.position = d.position ∧ c.entry < d.entry)

theorem Before.asymm {c d : Contender} (h : c.Before d) : ¬d.Before c := by
  rintro (hrank | ⟨hrank, hposition | ⟨hposition, hentry⟩⟩)
  · rcases h with h | ⟨h, _⟩ <;> omega
  · rcases h with h | ⟨_, h | ⟨h, _⟩⟩ <;> omega
  · rcases h with h | ⟨_, h | ⟨_, h⟩⟩
    · omega
    · omega
    · exact List.lt_asymm h hentry

/-- A contender that is no later than another one in each respect that decides comes before it. -/
theorem eq_or_before {c d : Contender} (hrank : c.rank ≤ d.rank)
    (hposition : c.rank = d.rank → c.position ≤ d.position)
    (hentry : c.rank = d.rank → c.position = d.position → c.entry ≤ d.entry) :
    d = c ∨ c.Before d := by
  rcases Nat.lt_or_eq_of_le hrank with hlt | heq
  · exact .inr (.inl hlt)
  · rcases Nat.lt_or_eq_of_le (hposition heq) with hlt | heq'
    · exact .inr (.inr ⟨heq, .inl hlt⟩)
    · by_cases hname : c.entry = d.entry
      · exact .inl (Contender.ext heq heq' hname).symm
      · have hlt := Std.lt_of_le_of_ne (hentry heq heq') hname
        exact .inr (.inr ⟨heq, .inr ⟨heq', hlt⟩⟩)

end Contender

namespace FileSystem

variable {fs : FileSystem} {name : String} {directory : Path} {entry : FileName}
  {paths : List Path} {p : Path}

/-- The search that finds a name in a directory: that for the file of a module, that for its file as
deprecated, or that for an entry with its stem. -/
inductive HasRank (fs : FileSystem) (name : String) (directory : Path) (entry : FileName) :
    Nat → Prop where
  | own (hentry : entry = FileName.ofString (name ++ ".py"))
    (hfile : fs.isFile (directory.child entry) = true) : HasRank fs name directory entry 0
  | deprecated (hentry : entry = FileName.ofString ("_" ++ name ++ ".py"))
    (hfile : fs.isFile (directory.child entry) = true) : HasRank fs name directory entry 1
  | stem {names : List FileName} (hlist : fs.list directory = .ok names) (hmem : entry ∈ names)
    (hstem : entry.stem = FileName.ofString name ∨ entry.stem = FileName.ofString ("_" ++ name)) :
    HasRank fs name directory entry 2

/-- What may stand for a module in some directories. -/
def Contends (fs : FileSystem) (name : String) (paths : List Path) (c : Contender) : Prop :=
  ∃ directory, paths[c.position]? = some directory ∧ fs.HasRank name directory c.entry c.rank

/-- A contender that comes before all others. -/
def Wins (fs : FileSystem) (name : String) (paths : List Path) (c : Contender) : Prop :=
  fs.Contends name paths c ∧ ∀ d, fs.Contends name paths d → d = c ∨ c.Before d

theorem Wins.unique {c d : Contender} (hc : fs.Wins name paths c) (hd : fs.Wins name paths d) :
    c = d := by
  rcases hc.2 d hd.1 with rfl | hbefore
  · rfl
  · exact (hd.2 c hc.1).resolve_right hbefore.asymm

/-! ## One search -/

theorem hasRank_zero_iff : fs.HasRank name directory entry 0 ↔
    entry = (moduleFile "" name).bytes ∧ fs.isFile (directory.child entry) = true := by
  have hbytes : (moduleFile "" name).bytes = FileName.ofString (name ++ ".py") := by
    rw [moduleFile, String.empty_append]
    rfl
  rw [hbytes]
  constructor
  · intro h
    cases h with
    | own hentry hfile => exact ⟨hentry, hfile⟩
  · rintro ⟨hentry, hfile⟩
    exact .own hentry hfile

theorem hasRank_one_iff : fs.HasRank name directory entry 1 ↔
    entry = (moduleFile "_" name).bytes ∧ fs.isFile (directory.child entry) = true := by
  constructor
  · intro h
    cases h with
    | deprecated hentry hfile => exact ⟨hentry, hfile⟩
  · rintro ⟨hentry, hfile⟩
    exact .deprecated hentry hfile

theorem hasRank_two_iff : fs.HasRank name directory entry 2 ↔
    ∃ names, fs.list directory = .ok names ∧ entry ∈ names ∧ entry.isModule name = true := by
  have hmodule : entry.isModule name = true ↔
      entry.stem = FileName.ofString name ∨ entry.stem = FileName.ofString ("_" ++ name) := by
    simpa [FileName.ofString] using FileName.isModule_iff
  rw [hmodule]
  constructor
  · intro h
    cases h with
    | stem hlist hmem hstem => exact ⟨_, hlist, hmem, hstem⟩
  · rintro ⟨names, hlist, hmem, hstem⟩
    exact .stem hlist hmem hstem

section

variable {mark : String} {rank : Nat}

/-- A search for a file that ends finds a contender before all others, if none has a lower rank. -/
theorem exists_wins_of_find?
    (hrank : ∀ directory entry, fs.HasRank name directory entry rank ↔
      entry = (moduleFile mark name).bytes ∧ fs.isFile (directory.child entry) = true)
    (hleast : ∀ c, fs.Contends name paths c → rank ≤ c.rank)
    (h : (paths.map fun directory => directory.join (moduleFile mark name)).find? fs.isFile =
      some p) :
    ∃ c directory, fs.Wins name paths c ∧ paths[c.position]? = some directory ∧
      p = directory.child c.entry := by
  obtain ⟨hfile, i, hi, heq, hbefore⟩ := List.find?_eq_some_iff_getElem.1 h
  rw [List.length_map] at hi
  rw [List.getElem_map] at heq
  have hgetElem : paths[i]? = some paths[i] := List.getElem?_eq_getElem hi
  refine ⟨⟨rank, i, (moduleFile mark name).bytes⟩, paths[i], ⟨?_, ?_⟩, hgetElem, heq.symm⟩
  · exact ⟨paths[i], hgetElem, (hrank _ _).2 ⟨rfl, heq ▸ hfile⟩⟩
  · rintro d hd
    obtain ⟨other, hother, hdrank⟩ := hd
    refine Contender.eq_or_before (hleast d ⟨other, hother, hdrank⟩) ?_ ?_
    · -- a contender of this rank in an earlier directory would have ended the search there
      rintro rfl
      obtain ⟨hentry, hdfile⟩ := (hrank _ _).1 hdrank
      by_contra hlt
      obtain ⟨hj, rfl⟩ := List.getElem?_eq_some_iff.1 hother
      have hnot := hbefore d.position (Nat.lt_of_not_le hlt)
      rw [List.getElem_map] at hnot
      rw [hentry] at hdfile
      simp [show fs.isFile (paths[d.position].join (moduleFile mark name)) = true from hdfile]
        at hnot
    · rintro rfl _
      rw [((hrank _ _).1 hdrank).1]
      exact List.le_refl _

/-- A search for a file that finds nothing leaves no contender of its rank. -/
theorem rank_ne_of_find?_eq_none
    (hrank : ∀ directory entry, fs.HasRank name directory entry rank ↔
      entry = (moduleFile mark name).bytes ∧ fs.isFile (directory.child entry) = true)
    (h : (paths.map fun directory => directory.join (moduleFile mark name)).find? fs.isFile = none)
    {c : Contender} (hc : fs.Contends name paths c) : c.rank ≠ rank := by
  rintro rfl
  obtain ⟨directory, hdirectory, hcrank⟩ := hc
  obtain ⟨hentry, hfile⟩ := (hrank _ _).1 hcrank
  have hnone := find?_moduleFile_eq_none h directory (List.mem_of_getElem? hdirectory)
  rw [hentry] at hfile
  exact absurd (hfile.symm.trans hnone) (by decide)

end

/-- The entry that is found by its stem is the least of those that its directory lists. -/
theorem findByStem?_le (h : fs.findByStem? name directory = some p) :
    ∃ entry, fs.HasRank name directory entry 2 ∧ p = directory.child entry ∧
      ∀ other, fs.HasRank name directory other 2 → entry ≤ other := by
  rw [findByStem?] at h
  split at h
  · simp at h
  · next names hlist =>
    obtain ⟨entry, hhead, heq⟩ := Option.map_eq_some_iff.1 h
    obtain ⟨rest, hsorted⟩ := List.head?_eq_some_iff.1 hhead
    have hmem (other : FileName) : other ∈ entry :: rest ↔ fs.HasRank name directory other 2 := by
      rw [← hsorted, FileName.sort, List.mem_mergeSort, List.mem_filter, hasRank_two_iff]
      constructor
      · rintro ⟨hother, hmodule⟩
        exact ⟨names, hlist, hother, hmodule⟩
      · rintro ⟨names', hlist', hother, hmodule⟩
        obtain rfl := Except.ok.inj (hlist.symm.trans hlist')
        exact ⟨hother, hmodule⟩
    refine ⟨entry, (hmem entry).1 List.mem_cons_self, heq.symm, fun other hother => ?_⟩
    have hordered : (entry :: rest).Pairwise (· ≤ ·) := hsorted ▸ pairwise_mergeSort_le _
    rcases List.mem_cons.1 ((hmem other).2 hother) with rfl | hrest
    · exact List.le_refl _
    · exact List.rel_of_pairwise_cons hordered hrest

/-- The search by stems finds something in every directory that lists such an entry. -/
theorem isSome_findByStem? (h : fs.HasRank name directory entry 2) :
    (fs.findByStem? name directory).isSome := by
  obtain ⟨names, hlist, hmem, hmodule⟩ := hasRank_two_iff.1 h
  obtain ⟨p, hp⟩ := exists_findByStem? hlist hmem hmodule
  exact Option.isSome_of_eq_some hp

/-- The search by stems finds a contender before all others, if none has a lower rank. -/
theorem exists_wins_of_findSome? (hleast : ∀ c, fs.Contends name paths c → 2 ≤ c.rank)
    (h : paths.findSome? (fs.findByStem? name) = some p) :
    ∃ c directory, fs.Wins name paths c ∧ paths[c.position]? = some directory ∧
      p = directory.child c.entry := by
  obtain ⟨before, directory, after, rfl, hfound, hnone⟩ := List.findSome?_eq_some_iff.1 h
  obtain ⟨entry, hentry, heq, hle⟩ := findByStem?_le hfound
  have hgetElem : (before ++ directory :: after)[before.length]? = some directory := by simp
  refine ⟨⟨2, before.length, entry⟩, directory, ⟨⟨directory, hgetElem, hentry⟩, ?_⟩, hgetElem,
    heq⟩
  rintro d hd
  obtain ⟨other, hother, hdrank⟩ := hd
  refine Contender.eq_or_before (hleast d ⟨other, hother, hdrank⟩) ?_ ?_
  · intro hrank
    dsimp only at hrank ⊢
    rw [← hrank] at hdrank
    by_contra hlt
    rw [List.getElem?_append_left (Nat.lt_of_not_le hlt)] at hother
    have hsome := isSome_findByStem? hdrank
    rw [hnone other (List.mem_of_getElem? hother)] at hsome
    simp at hsome
  · intro hrank hposition
    dsimp only at hrank hposition ⊢
    rw [← hposition, hgetElem] at hother
    obtain rfl := Option.some.inj hother
    exact hle d.entry (hrank ▸ hdrank)

/-! ## Resolution -/

/-- What is resolved is the contender before all others. -/
theorem exists_wins_of_resolveModule (h : fs.resolveModule name paths = some p) :
    ∃ c directory, fs.Wins name paths c ∧ paths[c.position]? = some directory ∧
      p = directory.child c.entry := by
  rw [resolveModule] at h
  dsimp only at h
  cases hown : (paths.map fun directory => directory.join (moduleFile "" name)).find? fs.isFile with
  | some q =>
    rw [hown] at h
    obtain rfl : q = p := by simpa using h
    exact exists_wins_of_find? (fun _ _ => hasRank_zero_iff) (fun c _ => Nat.zero_le c.rank) hown
  | none =>
    have hpositive : ∀ c, fs.Contends name paths c → 1 ≤ c.rank := fun c hc =>
      Nat.pos_of_ne_zero (rank_ne_of_find?_eq_none (fun _ _ => hasRank_zero_iff) hown hc)
    cases hmarked :
        (paths.map fun directory => directory.join (moduleFile "_" name)).find? fs.isFile with
    | some q =>
      rw [hown, hmarked] at h
      obtain rfl : q = p := by simpa using h
      exact exists_wins_of_find? (fun _ _ => hasRank_one_iff) hpositive hmarked
    | none =>
      have hleast : ∀ c, fs.Contends name paths c → 2 ≤ c.rank := by
        intro c hc
        have hne := rank_ne_of_find?_eq_none (fun _ _ => hasRank_one_iff) hmarked hc
        have hpos := hpositive c hc
        omega
      rw [hown, hmarked] at h
      exact exists_wins_of_findSome? hleast (by simpa using h)

/-- Nothing is resolved if all three searches find nothing. -/
theorem resolveModule_eq_none_iff : fs.resolveModule name paths = none ↔
    (paths.map fun directory => directory.join (moduleFile "" name)).find? fs.isFile = none ∧
    (paths.map fun directory => directory.join (moduleFile "_" name)).find? fs.isFile = none ∧
    paths.findSome? (fs.findByStem? name) = none := by
  rw [resolveModule]
  dsimp only
  cases (paths.map fun directory => directory.join (moduleFile "" name)).find? fs.isFile with
  | some q => simp
  | none =>
    cases (paths.map fun directory => directory.join (moduleFile "_" name)).find? fs.isFile with
    | some q => simp
    | none => simp

/-- Nothing is resolved only if nothing contends. -/
theorem not_contends_of_resolveModule_eq_none (h : fs.resolveModule name paths = none)
    (c : Contender) : ¬fs.Contends name paths c := by
  obtain ⟨hown, hmarked, hstem⟩ := resolveModule_eq_none_iff.1 h
  rintro ⟨directory, hdirectory, hrank⟩
  have hc : fs.Contends name paths c := ⟨directory, hdirectory, hrank⟩
  have hne := rank_ne_of_find?_eq_none (fun _ _ => hasRank_zero_iff) hown hc
  have hne' := rank_ne_of_find?_eq_none (fun _ _ => hasRank_one_iff) hmarked hc
  generalize c.rank = rank at hrank hne hne'
  cases hrank with
  | own _ _ => exact hne rfl
  | deprecated _ _ => exact hne' rfl
  | stem hlist hmem hstems =>
    have hsome := isSome_findByStem? (.stem hlist hmem hstems)
    rw [List.findSome?_eq_none_iff.1 hstem directory (List.mem_of_getElem? hdirectory)] at hsome
    simp at hsome

/-- What contends in a directory whose path is not empty is one of the entries listed there. -/
theorem Contends.listed (hname : slash ∉ FileName.ofString name) {c : Contender}
    (hc : fs.Contends name paths c) (hdirectory : paths[c.position]? = some directory)
    (hne : directory.bytes ≠ []) : ∃ names, fs.list directory = .ok names ∧ c.entry ∈ names := by
  obtain ⟨other, hother, hrank⟩ := hc
  obtain rfl := Option.some.inj (hdirectory.symm.trans hother)
  generalize c.rank = rank at hrank
  cases hrank with
  | own hentry hfile =>
    obtain ⟨hbytes, hfile⟩ := hasRank_zero_iff.1 (.own hentry hfile)
    rw [hbytes] at hfile ⊢
    exact exists_list_of_isFile hname (.inl rfl) hne hfile
  | deprecated hentry hfile =>
    obtain ⟨hbytes, hfile⟩ := hasRank_one_iff.1 (.deprecated hentry hfile)
    rw [hbytes] at hfile ⊢
    exact exists_list_of_isFile hname (.inr rfl) hne hfile
  | stem hlist hmem _ => exact ⟨_, hlist, hmem⟩

theorem list_of_bytes_eq_nil (hempty : directory.bytes = []) :
    fs.list directory = .error .notFound := by
  rw [list, find, goal, if_pos hempty]

/-- An empty path lists nothing, and the path of a name in it is the name. -/
theorem Contends.of_bytes_eq_nil {c : Contender} (hc : fs.Contends name paths c)
    (hdirectory : paths[c.position]? = some directory) (hempty : directory.bytes = []) :
    c.rank < 2 ∧ directory.child c.entry = ⟨c.entry⟩ := by
  obtain ⟨other, hother, hrank⟩ := hc
  obtain rfl := Option.some.inj (hdirectory.symm.trans hother)
  constructor
  · generalize c.rank = rank at hrank
    cases hrank with
    | own _ _ => decide
    | deprecated _ _ => decide
    | stem hlist _ _ =>
      rw [list_of_bytes_eq_nil hempty] at hlist
      simp at hlist
  · rw [Path.child, Path.join]
    split
    · rfl
    · rw [if_pos (.inl hempty), hempty]
      rfl

/-- Resolution finds the contender that comes before all others, and nothing only if nothing
contends. In a directory whose path is not empty, all contenders are listed entries. An empty path
lists nothing, but the files of the working directory contend there. -/
theorem resolveModule_wins (hname : '/' ∉ name.toList) :
    (fs.resolveModule name paths = none ↔ ∀ c, ¬fs.Contends name paths c) ∧
    (∀ p, fs.resolveModule name paths = some p ↔ ∃ c directory, fs.Wins name paths c ∧
      paths[c.position]? = some directory ∧ p = directory.child c.entry) ∧
    ∀ c directory, fs.Contends name paths c → paths[c.position]? = some directory →
      (directory.bytes ≠ [] → ∃ names, fs.list directory = .ok names ∧ c.entry ∈ names) ∧
      (directory.bytes = [] → c.rank < 2 ∧ directory.child c.entry = ⟨c.entry⟩) := by
  refine ⟨⟨not_contends_of_resolveModule_eq_none, ?_⟩, ?_, ?_⟩
  · intro hnone
    cases hresolve : fs.resolveModule name paths with
    | none => rfl
    | some p =>
      obtain ⟨c, _, hwins, _⟩ := exists_wins_of_resolveModule hresolve
      exact absurd hwins.1 (hnone c)
  · intro p
    refine ⟨exists_wins_of_resolveModule, ?_⟩
    rintro ⟨c, directory, hwins, hdirectory, rfl⟩
    cases hresolve : fs.resolveModule name paths with
    | none => exact absurd hwins.1 (not_contends_of_resolveModule_eq_none hresolve c)
    | some q =>
      obtain ⟨d, other, hwins', hother, rfl⟩ := exists_wins_of_resolveModule hresolve
      obtain rfl := hwins'.unique hwins
      obtain rfl := Option.some.inj (hdirectory.symm.trans hother)
      rfl
  · intro c directory hc hdirectory
    exact ⟨hc.listed (slash_notMem_ofString hname) hdirectory, hc.of_bytes_eq_nil hdirectory⟩

/-- A tree in which a module is a script in the first directory and a `.py` file in the second. -/
def twoDirectories : FileSystem where
  top := .directory
    [(FileName.ofString "first", .directory [(FileName.ofString "copy.ps1", .file [])]),
      (FileName.ofString "second", .directory [(FileName.ofString "copy.py", .file [])])]
  working := []

/-- The file of rank 0 wins although a directory before its own has an entry of rank 2. -/
theorem resolveModule_wins_second :
    '/' ∉ "copy".toList ∧ ∃ c directory, twoDirectories.Wins "copy"
        [Path.ofString "first", Path.ofString "missing", Path.ofString "second"] c ∧
      [Path.ofString "first", Path.ofString "missing", Path.ofString "second"][c.position]? =
        some directory ∧ Path.ofString "second/copy.py" = directory.child c.entry := by
  have hname : '/' ∉ "copy".toList := by decide
  have hresolve : twoDirectories.resolveModule "copy"
      [Path.ofString "first", Path.ofString "missing", Path.ofString "second"] =
        some (Path.ofString "second/copy.py") := by
    decide
  exact ⟨hname, ((resolveModule_wins hname).2.1 _).1 hresolve⟩

/-- A tree with a `.py` file and a script in the working directory. -/
def workingFiles : FileSystem where
  top := .directory
    [(FileName.ofString "ping.py", .file []), (FileName.ofString "pong.ps1", .file [])]
  working := []

/-- An empty path cannot be listed, and yet a `.py` file of the working directory is found in it.
Other entries of the working directory are not found. -/
theorem resolveModule_in_working :
    workingFiles.list ⟨[]⟩ = .error .notFound ∧
    workingFiles.resolveModule "ping" [⟨[]⟩] = some (Path.ofString "ping.py") ∧
    workingFiles.list (Path.ofString ".") =
      .ok [FileName.ofString "ping.py", FileName.ofString "pong.ps1"] ∧
    workingFiles.resolveModule "pong" [⟨[]⟩] = none := by
  refine ⟨rfl, by decide, rfl, by decide⟩

end FileSystem

end PluginDataset
