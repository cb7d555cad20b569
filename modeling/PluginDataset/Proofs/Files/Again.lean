import PluginDataset.Proofs.Files.Frame

/-!
# Operations done again

Directories that are there are not created again, and a file that has been written is written again
in the same place. The second time nothing changes, whatever links are on the way.

## Main results

* `FileSystem.createDirectories_of_isDirectory`: creating a directory that is there.
* `FileSystem.isDirectory_of_createDirectories`: what has been created is there.
* `FileSystem.isDirectory_of_write`: a directory is still there when a file has been written.
* `FileSystem.write_again`: writing the same bytes to the same path.
-/

namespace PluginDataset

namespace Node

theorem setEntry_of_lookup {entries : List (FileName × Node)} {name : FileName} {n : Node}
    (h : entries.lookup name = some n) : setEntry name n entries = entries := by
  induction entries with
  | nil => simp at h
  | cons e rest ih =>
    obtain ⟨key, m⟩ := e
    rw [List.lookup_cons] at h
    rw [setEntry]
    by_cases hkey : name = key
    · subst hkey
      obtain rfl : m = n := by simpa using h
      rw [if_pos rfl]
    · rw [beq_eq_false_iff_ne.2 hkey] at h
      rw [if_neg hkey, ih h]

/-- Setting the node that is at a place changes nothing. -/
theorem set_of_at? {n m : Node} {place : Place} (h : n.at? place = some m) :
    set m place n = n := by
  induction place generalizing n with
  | nil =>
    obtain rfl : n = m := by simpa using h
    cases n <;> rfl
  | cons name rest ih =>
    cases n with
    | file _ => rfl
    | link _ => rfl
    | directory entries =>
      rw [at?] at h
      cases hlookup : entries.lookup name with
      | none => simp [hlookup] at h
      | some child =>
        rw [hlookup] at h
        rw [set, hlookup, Option.getD_some, ih h, setEntry_of_lookup hlookup]

end Node

namespace FileSystem

variable {fs fs' : FileSystem}

/-! ## Creating directories -/

/-- What is used where a path leads is also found when the path is inspected without a separator at
its end, unless a link is found there. -/
theorem Leads.inspect {links : Nat} {r : Route} {place : Place} {slash : Bool}
    (h : Leads fs .use links r (.found place slash)) :
    ∃ other s, Leads fs .inspect links { r with slash := false } (.found other s) ∧
      (other = place ∨ s = false ∧ ∃ target, fs.kind? other = some (.link target)) := by
  generalize hg : Goal.found place slash = g at h
  induction h with
  | arrived => exact ⟨_, _, .arrived, .inl (Goal.found.inj hg).1.symm⟩
  | top hplace _ ih =>
    obtain ⟨other, s, hleads, hother⟩ := ih hg
    exact ⟨other, s, .top hplace hleads, hother⟩
  | here hplace _ ih =>
    obtain ⟨other, s, hleads, hother⟩ := ih hg
    exact ⟨other, s, .here hplace hleads, hother⟩
  | up hplace _ ih =>
    obtain ⟨other, s, hleads, hother⟩ := ih hg
    exact ⟨other, s, .up hplace hleads, hother⟩
  | missing => simp at hg
  | entry hplace _ hn _ ih =>
    obtain ⟨other, s, hleads, hother⟩ := ih hg
    exact ⟨other, s, .entry hplace (by simp) hn hleads, hother⟩
  | inspected _ hpurpose _ => exact absurd hpurpose (by decide)
  | @link links start n rest s target g hplace _ _ hn htarget _ ih =>
    by_cases hrest : rest = []
    · -- a link at the end is found itself
      subst hrest
      exact ⟨_, _, .inspected hplace rfl hn, .inr ⟨rfl, target, hn⟩⟩
    · obtain ⟨other, s', hleads, hother⟩ := ih hg
      exact ⟨other, s', .link hplace (by simp) (fun hi => hrest hi.1) hn htarget
        (by simpa [hrest] using hleads), hother⟩

/-- A directory that is there is not created. -/
theorem createDirectory_of_isDirectory {p : Path} (h : fs.isDirectory p = true) :
    fs.createDirectory p = .error .alreadyExists := by
  obtain ⟨place, entries, hfind⟩ := isDirectory_iff.1 h
  obtain ⟨slash, hleads, _⟩ := leads_of_find hfind
  obtain ⟨other, s, hinspect, _⟩ := hleads.inspect
  rw [createDirectory, if_neg (bytes_ne_nil_of_find hfind)]
  dsimp only
  rw [follow_eq_ok_iff.2 hinspect]

/-- Creating a directory that is there, with its parents, changes nothing. -/
theorem createDirectories_of_isDirectory {p : Path} (h : fs.isDirectory p = true) :
    fs.createDirectories p = (fs, none) := by
  obtain ⟨place, entries, hfind⟩ := isDirectory_iff.1 h
  rw [createDirectories, createDirectoriesWith, if_neg (bytes_ne_nil_of_find hfind),
    createDirectory_of_isDirectory h]
  dsimp only
  rw [if_pos h]

/-- A directory that has been created is there. -/
theorem isDirectory_of_createDirectory {p : Path} (h : fs.createDirectory p = .ok fs') :
    fs'.isDirectory p = true := by
  obtain ⟨g, _, _, _, _, hleads⟩ := set_of_createDirectory h
  exact isDirectory_iff.2 ⟨g.place, hleads⟩

/-- A directory that has been created with its parents is there. -/
theorem isDirectory_of_createDirectories {p : Path} (hp : p.bytes ≠ [])
    (h : fs.createDirectories p = (fs', none)) : fs'.isDirectory p = true := by
  rw [createDirectories, createDirectoriesWith, if_neg hp] at h
  split at h
  · next created hcreate =>
    obtain rfl := (Prod.mk.inj h).1
    exact isDirectory_of_createDirectory hcreate
  · split at h
    · simp at h
    · split at h
      · simp at h
      · split at h
        · next created hcreate =>
          obtain rfl := (Prod.mk.inj h).1
          exact isDirectory_of_createDirectory hcreate
        · split at h
          · next hdirectory =>
            obtain rfl := (Prod.mk.inj h).1
            exact hdirectory
          · simp at h
  · split at h
    · next hdirectory =>
      obtain rfl := (Prod.mk.inj h).1
      exact hdirectory
    · simp at h

/-! ## Writing -/

/-- Writing a file leaves directories where they are. -/
theorem isDirectory_of_write {p q : Path} {bytes : List UInt8} (h : fs.write p bytes = .ok fs')
    (hq : fs.isDirectory q = true) : fs'.isDirectory q = true := by
  obtain ⟨place, hleads⟩ := isDirectory_iff.1 hq
  obtain ⟨g, _, hwritable, _, rfl⟩ := goal_of_write h
  have hkeep : fs.KeepsKinds (fs.set g.place (.file bytes)) := fun _ _ hkind =>
    hwritable.kind?_set_of_eq_some bytes hkind
  exact isDirectory_iff.2 ⟨place, hleads.of_keepsKinds hkeep rfl⟩

/-- A file that has been written is written again where it is. -/
theorem write_again {p : Path} {bytes : List UInt8} (h : fs.write p bytes = .ok fs') :
    fs'.write p bytes = .ok fs' := by
  obtain ⟨g, hgoal, hwritable, hslash, rfl⟩ := goal_of_write h
  have hp := bytes_ne_nil_of_goal hgoal
  rw [goal_of_ne_inspect (by decide) hp] at hgoal
  have hleads := (follow_eq_ok_iff.1 hgoal).set_file hwritable bytes .write (by decide)
  have hat : (fs.set g.place (.file bytes)).at? g.place = some (.file bytes) :=
    Node.at?_set hwritable.reaches _
  have hagain : (fs.set g.place (.file bytes)).goal .write p = .ok (.found g.place false) := by
    rw [goal_of_ne_inspect (by decide) hp]
    exact follow_eq_ok_iff.2 (hslash ▸ hleads)
  rw [write, hagain]
  dsimp only
  rw [hat]
  have htop : Node.set (.file bytes) g.place (fs.set g.place (.file bytes)).top =
      (fs.set g.place (.file bytes)).top := Node.set_of_at? hat
  simp only [set] at htop ⊢
  simp [htop]

end FileSystem

end PluginDataset
